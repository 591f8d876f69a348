import Drone.System.Dispatch

/-!
# Settled builds stay settled

A successful `Cancel` leaves every stage of its build done, but an `Accept` of a stage
handed out before can make it pending again (`accept_reopens_cancelled_stage`).
`settled_build_stays_done` says that is the only way back: once every stage of a build
is done, they stay done through every later run, unless one of them had already been
handed to an agent that has not accepted it yet, or is still ahead in the pass in flight.
No snapshot taken later lists them, so no later pass hands them out, and every other
step writes only stages that are not done.
-/

namespace Drone

namespace Sys

structure Settled (b : Int) (s : Sys) : Prop where
  build : ∃ c ∈ s.store.builds, c.id = b
  done : ∀ x ∈ s.store.stages, x.buildId = b → x.status.isDone = true
  handed : ∀ i ∈ s.handed, ∀ x ∈ s.store.stages, x.id = i → x.buildId ≠ b
  pass : ∀ items rest, s.pass = some (items, rest) → ∀ x ∈ rest, x.buildId ≠ b

section
variable {b : Int} {s t : Sys}

theorem done_updateStage {st : Store} (hd : ∀ x ∈ st.stages, x.buildId = b → x.status.isDone = true)
    {row r : Stage} (hrow : row ∈ st.stages) (hid : r.id = row.id) (hrb : r.buildId = row.buildId)
    (hb : row.buildId ≠ b) : ∀ y ∈ (st.updateStage r).stages, y.buildId = b → y.status.isDone = true := by
  have h₂ := Store.forall₂_updateStage
    (R := fun x y => (x.buildId = b → x.status.isDone = true) → y.buildId = b → y.status.isDone = true)
    (fun _ => id) hrow hid fun _ e => absurd (hrb.symm.trans e) hb
  exact forall₂_right (fun _ _ h => h.2 h.1) ((List.forall₂_and_left _ _).2 ⟨hd, h₂⟩)

theorem Settled.of_rowsKept (hc : Settled b s) (hk : s.store.RowsKept t.store)
    (hd : ∀ x ∈ t.store.stages, x.buildId = b → x.status.isDone = true) (hH : ∀ i ∈ t.handed, i ∈ s.handed)
    (hp : t.pass = s.pass) : Settled b t := by
  refine ⟨?_, hd, fun i hi y hy e => ?_, fun items rest h => hc.pass items rest (hp ▸ h)⟩
  · obtain ⟨c, hcm, hcb⟩ := hc.build
    obtain ⟨c', hc', e, -⟩ := forall₂_left hk.builds c hcm
    exact ⟨c', hc', e.trans hcb⟩
  · obtain ⟨x, hx, ⟨ei, eb, -⟩, -⟩ := forall₂_left hk.stages.flip y hy
    rw [eb]
    exact hc.handed i (hH i hi) x hx (ei.symm.trans e)

theorem Settled.buildId_ne (hc : Settled b s) {row : Stage} (hrow : row ∈ s.store.stages)
    (hnd : row.status.isDone = false) : row.buildId ≠ b :=
  fun e => by simp [hc.done row hrow e] at hnd

theorem Settled.create (hc : Settled b s) {b' : Build} {new : List Stage}
    (h : s.step (.create b' new) = some t) : Settled b t := by
  obtain ⟨hf, -, hnew, rfl⟩ := step_create h
  obtain ⟨c, hcm, hcb⟩ := hc.build
  -- the new build's id is above every build in the store, `b` among them
  have hne : ∀ y ∈ new, y.buildId ≠ b := fun y hy e => by
    have := hf.1 c hcm
    have := (hnew y hy).1
    omega
  refine ⟨⟨c, List.mem_append_left _ hcm, hcb⟩, fun x hx e => ?_, fun i hi x hx e => ?_, hc.pass⟩
  · rcases List.mem_append.1 hx with hx | hx
    · exact hc.done x hx e
    · exact absurd e (hne x hx)
  · rcases List.mem_append.1 hx with hx | hx
    · exact hc.handed i hi x hx e
    · exact hne x hx

theorem Settled.handOff (hw : s.WF) (hc : Settled b s) (h : s.step .handOff = some t) : Settled b t := by
  obtain ⟨items, item, rest, hp, -, rfl⟩ := step_handOff h
  have hsnap := hw.pass _ _ hp
  obtain ⟨x', hx', hsame, -⟩ := hsnap.rows item (hsnap.suffix.subset (List.mem_cons_self _ _))
  have hitem := hc.pass _ _ hp item (List.mem_cons_self _ _)
  refine ⟨hc.build, hc.done, fun i hi y hy e => ?_, fun _ _ h' x hx => ?_⟩
  · rcases List.mem_cons.1 hi with rfl | hi
    · -- the row of the handed item is the snapshot's row, of another build
      rw [Store.stage_eq_of_id hy hx' (e.trans hsame.1.symm), hsame.2.1]
      exact hitem
    · exact hc.handed i hi y hy e
  · cases h'
    exact hc.pass _ _ hp x (List.mem_cons_of_mem _ hx)

theorem Settled.step (hw : s.WF) (hc : Settled b s) {e : Event} (h : s.step e = some t) : Settled b t := by
  cases e with
  | create b' new => exact hc.create h
  | promote i =>
    obtain ⟨row, hf, hwt, rfl⟩ := step_promote h
    have hrow := (Store.findStage_some hf).1
    exact hc.of_rowsKept (Store.rowsKept_updateStage hrow ⟨rfl, rfl, rfl, rfl, rfl⟩ (by simp))
      (done_updateStage hc.done hrow rfl rfl (hc.buildId_ne hrow (by simp [hwt]))) (fun _ h => h) rfl
  | snapshot =>
    obtain ⟨-, rfl⟩ := step_snapshot h
    refine { hc with pass := ?_ }
    rintro _ _ ⟨⟩ x hx e
    -- the snapshot lists stages that are not done
    obtain ⟨x₀, hx₀, hi, rfl⟩ := Store.mem_listIncomplete.1 hx
    exact absurd (Stage.incomplete_eq_false (hc.done x₀ hx₀ e)) (by simp [hi])
  | handOff => exact hc.handOff hw h
  | skipItem =>
    obtain ⟨items, item, rest, hp, rfl⟩ := step_skipItem h
    refine { hc with pass := ?_ }
    rintro _ _ ⟨⟩ x hx
    exact hc.pass _ _ hp x (List.mem_cons_of_mem _ hx)
  | endPass =>
    obtain ⟨_, -, rfl⟩ := step_endPass h
    exact { hc with pass := fun _ _ h => by cases h }
  | accept i m n =>
    obtain ⟨hi, rfl⟩ := step_accept h
    have hH : ∀ j ∈ s.handed.erase i, j ∈ s.handed := fun _ h => List.erase_subset _ _ h
    rcases acceptRow_cases s.store i m n with e | ⟨row, hf, -, e⟩
    · exact hc.of_rowsKept (e ▸ rowsKept_acceptRow _ _ _ _) (by rw [e]; exact hc.done) hH rfl
    · -- the accepted row was handed out, so it is of another build
      obtain ⟨hrow, hid⟩ := Store.findStage_some hf
      exact hc.of_rowsKept (rowsKept_acceptRow _ _ _ _)
        (by rw [e]; exact done_updateStage hc.done hrow rfl rfl (hc.handed i hi row hrow hid)) hH rfl
  | acceptFail i =>
    obtain ⟨-, rfl⟩ := step_acceptFail h
    exact hc.of_rowsKept (.refl _) hc.done (fun _ h => List.erase_subset _ _ h) rfl
  | start i n =>
    obtain ⟨row, hf, hp, -, rfl⟩ := step_start h
    have hrow := (Store.findStage_some hf).1
    refine hc.of_rowsKept (rowsKept_startRow hrow n) ?_ (fun _ h => h) rfl
    rw [startRow_stages]
    exact done_updateStage hc.done hrow rfl rfl (hc.buildId_ne hrow (by simp [hp]))
  | finish i st n =>
    obtain ⟨row, hf, hi, hd, rfl⟩ := step_finish h
    have hrow := (Store.findStage_some hf).1
    exact hc.of_rowsKept (Store.rowsKept_updateStage hrow ⟨rfl, rfl, rfl, rfl, rfl⟩ (Status.ne_waiting_of_isDone hd))
      (done_updateStage hc.done hrow rfl rfl fun e => by
        simp [Stage.incomplete_eq_false (hc.done row hrow e)] at hi)
      (fun _ h => h) rfl
  | cancel env i user =>
    obtain ⟨b₀, hb₀, rfl⟩ := step_cancel h
    refine hc.of_rowsKept (rowsKept_cancel (Store.findBuild_some hb₀).1 env user) ?_ (fun _ h => h) rfl
    rcases cancel_rows env b₀ user s.store with e | ⟨-, hst, -⟩
    · rw [e]; exact hc.done
    · -- a row `Cancel` writes is done; the others are as they were
      refine forall₂_right (fun x y h e => ?_) ((List.forall₂_and_left _ _).2 ⟨hc.done, hst⟩)
      rcases h.2 with rfl | ⟨-, -, k, rfl⟩
      · exact h.1 e
      · exact (stageWrite_isDone _ _ _).1
  | buildDone i st n =>
    obtain ⟨c, hcf, -, -, -, rfl⟩ := step_buildDone h
    exact hc.of_rowsKept (Store.rowsKept_updateBuild (Store.findBuild_some hcf).1 ⟨rfl, rfl, rfl⟩) hc.done
      (fun _ h => h) rfl

theorem Settled.run (hw : s.WF) (hc : Settled b s) {es : List Event} (h : s.run es = some t) : Settled b t := by
  induction es generalizing s with
  | nil => cases h; exact hc
  | cons e es ih =>
    obtain ⟨u, hu, hr⟩ := run_cons.1 h
    exact ih (hw.step hu) (hc.step hw hu) hr

end

/-- Once every stage of a build is done, as a successful `Cancel` leaves them, they stay
done through every later run of the system, unless one of them had already been handed
to an agent that has not accepted it, or is still ahead in the pass in flight. -/
theorem settled_build_stays_done {s t : Sys} (hs : s.Reachable) {es : List Event} (h : s.run es = some t)
    {b : Int} (hb : ∃ c ∈ s.store.builds, c.id = b)
    (hdone : ∀ x ∈ s.store.stages, x.buildId = b → x.status.isDone = true)
    (hhanded : ∀ i ∈ s.handed, ∀ x ∈ s.store.stages, x.id = i → x.buildId ≠ b)
    (hpass : ∀ items rest, s.pass = some (items, rest) → ∀ x ∈ rest, x.buildId ≠ b) :
    ∀ x ∈ t.store.stages, x.buildId = b → x.status.isDone = true :=
  (Settled.run (reachable_wf hs) ⟨hb, hdone, hhanded, hpass⟩ h).done

def cancelledRun : List Event :=
  [.create (mkBuild 1 "main") [mkStage 1 1 "default" .pending 0], .cancel quietEnv 1 false]

def cancelledState : Sys := (Sys.init.run cancelledRun).getD Sys.init

theorem settled_build_after_cancel :
    ∃ s t, Sys.init.run cancelledRun = some s ∧ s.Reachable ∧
      s.run [.snapshot, .endPass, .create (mkBuild 2 "main") [mkStage 2 2 "default" .pending 0], .snapshot,
        .handOff, .endPass, .accept 2 "m1" 100] = some t ∧
      (∃ c ∈ s.store.builds, c.id = 1) ∧ (∀ x ∈ s.store.stages, x.buildId = 1 → x.status.isDone = true) ∧
      (∀ i ∈ s.handed, ∀ x ∈ s.store.stages, x.id = i → x.buildId ≠ 1) ∧
      (∀ items rest, s.pass = some (items, rest) → ∀ x ∈ rest, x.buildId ≠ 1) ∧
      ∀ x ∈ t.store.stages, x.buildId = 1 → x.status.isDone = true := by
  have hb : ∃ c ∈ cancelledState.store.builds, c.id = 1 := ⟨_, List.mem_singleton_self _, rfl⟩
  have hd : ∀ x ∈ cancelledState.store.stages, x.buildId = 1 → x.status.isDone = true := by decide
  have hh : ∀ i ∈ cancelledState.handed, ∀ x ∈ cancelledState.store.stages, x.id = i → x.buildId ≠ 1 :=
    fun _ h => absurd h (List.not_mem_nil _)
  have hp : ∀ items rest, cancelledState.pass = some (items, rest) → ∀ x ∈ rest, x.buildId ≠ 1 :=
    fun _ _ h => by cases h
  exact ⟨cancelledState, _, rfl, ⟨cancelledRun, rfl⟩, rfl, hb, hd, hh, hp,
    @settled_build_stays_done cancelledState _ ⟨cancelledRun, rfl⟩ [.snapshot, .endPass,
      .create (mkBuild 2 "main") [mkStage 2 2 "default" .pending 0], .snapshot, .handOff, .endPass,
      .accept 2 "m1" 100] rfl 1 hb hd hh hp⟩

end Sys

end Drone

import Drone.System.Model
import Drone.Manager.Linearize

/-!
# Done stages and machines

Of all the steps of the system only an `Accept` writes a stage that is done:
`done_stage_run` says a done stage stays exactly as it is through every run that
has no `Accept` of it. `Accept` itself does not look at the status it reads: a stage
handed out before its build was cancelled comes back pending with a machine
(`accept_reopens_cancelled_stage`).

The system's `Accept` is one step; `acceptRow_whole` says it is the whole `Accept` of the
serial history that every interleaving of the real calls reduces to (`accept_serial`).
Since it writes only a row with no machine and every other step keeps the machine of
the rows it writes, a stage's machine is never replaced or cleared (`machine_kept_run`).
-/

namespace Drone

theorem stageWrite_sameRow (clock : Nat → Int) (k : Nat) (x : Stage) : x.SameRow (stageWrite clock k x) := by
  unfold stageWrite killStage; split <;> exact ⟨rfl, rfl, rfl, rfl, rfl⟩

theorem stageWrite_machine (clock : Nat → Int) (k : Nat) (x : Stage) :
    (stageWrite clock k x).machine = x.machine := by
  unfold stageWrite killStage; split <;> rfl

namespace Sys

theorem done_stage_step {s t : Sys} {e : Event} (h : s.step e = some t) {x : Stage}
    (hx : x ∈ s.store.stages) (hd : x.status.isDone = true) (he : ∀ m n, e ≠ .accept x.id m n) :
    x ∈ t.store.stages := by
  -- a row a lifecycle move rewrites is not done, so it is not `x`
  have keep : ∀ {i : Int} {row : Stage} (r : Stage), s.store.findStage i = some row →
      row.status.isDone = false → r.id = row.id → x ∈ (s.store.updateStage r).stages := by
    intro i row r hf hr hid
    refine Store.mem_updateStage hx fun e => ?_
    obtain rfl := Store.stage_eq_of_id hx (Store.findStage_some hf).1 (e.trans hid)
    simp [hd] at hr
  cases e with
  | create b new =>
    obtain ⟨_, _, _, rfl⟩ := step_create h
    exact List.mem_append_left _ hx
  | promote i =>
    obtain ⟨row, hf, hw, rfl⟩ := step_promote h
    exact keep _ hf (by simp [hw]) rfl
  | snapshot => obtain ⟨-, rfl⟩ := step_snapshot h; exact hx
  | handOff => obtain ⟨_, _, _, -, -, rfl⟩ := step_handOff h; exact hx
  | skipItem => obtain ⟨_, _, _, -, rfl⟩ := step_skipItem h; exact hx
  | endPass => obtain ⟨_, -, rfl⟩ := step_endPass h; exact hx
  | accept i m n =>
    obtain ⟨-, rfl⟩ := step_accept h
    rcases acceptRow_cases s.store i m n with e | ⟨row, hf, -, e⟩ <;> simp only [e]
    · exact hx
    · refine Store.mem_updateStage hx fun hid => he m n ?_
      rw [hid, acceptStage, (Store.findStage_some hf).2]
  | acceptFail i => obtain ⟨-, rfl⟩ := step_acceptFail h; exact hx
  | start i n =>
    obtain ⟨row, hf, hp, -, rfl⟩ := step_start h
    rw [startRow_stages]
    exact keep _ hf (by simp [hp]) rfl
  | finish i st n =>
    obtain ⟨row, hf, hi, -, rfl⟩ := step_finish h
    refine keep _ hf ?_ rfl
    simp only [Stage.incomplete, Bool.or_eq_true, beq_iff_eq] at hi
    rcases hi with hi | hi <;> simp [hi]
  | cancel env i user =>
    obtain ⟨b, -, rfl⟩ := step_cancel h
    rcases cancel_rows env b user s.store with e | ⟨-, hst, -⟩
    · simpa [e] using hx
    · obtain ⟨y, hy, hxy⟩ := forall₂_left hst x hx
      rcases hxy with rfl | ⟨-, hn, -⟩
      · exact hy
      · simp [hd] at hn
  | buildDone i st n =>
    obtain ⟨b, -, -, -, -, rfl⟩ := step_buildDone h
    exact hx

/-- A done stage stays exactly as it is through every run with no `Accept` of it. -/
theorem done_stage_run {s t : Sys} {es : List Event} (h : s.run es = some t) {x : Stage}
    (hx : x ∈ s.store.stages) (hd : x.status.isDone = true)
    (he : ∀ m n, Event.accept x.id m n ∉ es) : x ∈ t.store.stages := by
  induction es generalizing s with
  | nil => cases h; exact hx
  | cons e es ih =>
    obtain ⟨u, hu, hr⟩ := run_cons.1 h
    exact ih hr (done_stage_step hu hx hd fun m n he' => he m n (he' ▸ List.mem_cons_self _ _))
      fun m n hm => he m n (List.mem_cons_of_mem _ hm)

/-! ## Machines -/

/-- The system's `Accept` is a whole `Accept` of the serial history: on a row with no
machine it writes the row `RowWrite.apply` gives, version included, and where
`RowWrite.apply` is no write, on a row with a machine, it writes nothing. -/
theorem acceptRow_whole {st : Store} {id : Int} {row : Stage} (hf : st.findStage id = some row)
    (i : Nat) (m : String) (now : Int) :
    (∀ r, (RowWrite.accept i m now).apply row = some r →
        (acceptRow st id m now).stages = replaceBy Stage.id r st.stages) ∧
      ((RowWrite.accept i m now).apply row = none → acceptRow st id m now = st) := by
  by_cases hm : row.machine = ""
  · have ha : acceptRow st id m now = st.updateStage (acceptStage row m now) := by simp [acceptRow, hf, hm]
    refine ⟨fun r e => ?_, fun e => by simp [RowWrite.apply, hm] at e⟩
    simp only [RowWrite.apply, if_pos hm, Option.some.injEq] at e
    rw [ha, ← e]
    rfl
  · have ha : acceptRow st id m now = st := by simp [acceptRow, hf, hm]
    exact ⟨fun r e => by simp [RowWrite.apply, hm] at e, fun _ => ha⟩

def MachineKept (x y : Stage) : Prop := y.id = x.id ∧ (x.machine ≠ "" → y.machine = x.machine)

/-- No step takes a machine from a stage or gives the stage another one: an `Accept`
writes only a row with no machine, and every other write keeps the machine. -/
theorem machineKept_step {s t : Sys} {e : Event} (h : s.step e = some t) :
    ∀ x ∈ s.store.stages, ∃ y ∈ t.store.stages, MachineKept x y := by
  have same : ∀ x ∈ s.store.stages, ∃ y ∈ s.store.stages, MachineKept x y :=
    fun x hx => ⟨x, hx, rfl, fun _ => rfl⟩
  have upd : ∀ {row r : Stage}, row ∈ s.store.stages → r.id = row.id → (row.machine ≠ "" → r.machine = row.machine) →
      ∀ x ∈ s.store.stages, ∃ y ∈ (s.store.updateStage r).stages, MachineKept x y := fun hrow hid hr =>
    forall₂_left (Store.forall₂_updateStage (fun x => ⟨rfl, fun _ => rfl⟩) hrow hid ⟨hid, hr⟩)
  cases e with
  | create b new =>
    obtain ⟨_, _, _, rfl⟩ := step_create h
    exact fun x hx => ⟨x, List.mem_append_left _ hx, rfl, fun _ => rfl⟩
  | promote i =>
    obtain ⟨row, hf, -, rfl⟩ := step_promote h
    exact upd (Store.findStage_some hf).1 rfl fun _ => rfl
  | snapshot => obtain ⟨-, rfl⟩ := step_snapshot h; exact same
  | handOff => obtain ⟨_, _, _, -, -, rfl⟩ := step_handOff h; exact same
  | skipItem => obtain ⟨_, _, _, -, rfl⟩ := step_skipItem h; exact same
  | endPass => obtain ⟨_, -, rfl⟩ := step_endPass h; exact same
  | accept i m n =>
    obtain ⟨-, rfl⟩ := step_accept h
    rcases acceptRow_cases s.store i m n with e | ⟨row, hf, hm, e⟩ <;> rw [e]
    · exact same
    · exact upd (Store.findStage_some hf).1 rfl fun h => absurd hm h
  | acceptFail i => obtain ⟨-, rfl⟩ := step_acceptFail h; exact same
  | start i n =>
    obtain ⟨row, hf, -, -, rfl⟩ := step_start h
    rw [startRow_stages]
    exact upd (Store.findStage_some hf).1 rfl fun _ => rfl
  | finish i st n =>
    obtain ⟨row, hf, -, -, rfl⟩ := step_finish h
    exact upd (Store.findStage_some hf).1 rfl fun _ => rfl
  | cancel env i user =>
    obtain ⟨b, -, rfl⟩ := step_cancel h
    rcases cancel_rows env b user s.store with e | ⟨-, hst, -⟩
    · rw [e]; exact same
    · refine fun x hx => ?_
      obtain ⟨y, hy, hxy⟩ := forall₂_left hst x hx
      refine ⟨y, hy, ?_⟩
      rcases hxy with rfl | ⟨-, -, k, rfl⟩
      · exact ⟨rfl, fun _ => rfl⟩
      · exact ⟨(stageWrite_sameRow _ _ _).1, fun _ => stageWrite_machine _ _ _⟩
  | buildDone i st n =>
    obtain ⟨b, -, -, -, -, rfl⟩ := step_buildDone h
    exact same

/-- Through every run of the system, from any state, a stage that has a machine keeps its
row and that machine: no step hands it to another machine or takes its machine away. -/
theorem machine_kept_run {s t : Sys} {es : List Event} (h : s.run es = some t) :
    ∀ x ∈ s.store.stages, x.machine ≠ "" → ∃ y ∈ t.store.stages, y.id = x.id ∧ y.machine = x.machine := by
  induction es generalizing s with
  | nil => cases h; exact fun x hx _ => ⟨x, hx, rfl, rfl⟩
  | cons e es ih =>
    obtain ⟨u, hu, hr⟩ := run_cons.1 h
    intro x hx hm
    obtain ⟨y₁, hy₁, hid₁, hm₁⟩ := machineKept_step hu x hx
    obtain ⟨y, hy, hid, hmy⟩ := ih hr y₁ hy₁ (by rw [hm₁ hm]; exact hm)
    exact ⟨y, hy, hid.trans hid₁, hmy.trans (hm₁ hm)⟩

theorem failed_stage_kept_by_cancel :
    ∃ t, (⟨failedStageStore, none, []⟩ : Sys).run [.snapshot, .endPass, .cancel quietEnv 1 false] = some t ∧
      buildStage .failing 3 4 ∈ failedStageStore.stages ∧ (buildStage .failing 3 4).status.isDone = true ∧
      (∀ m n, Event.accept (buildStage .failing 3 4).id m n ∉ [.snapshot, .endPass, .cancel quietEnv 1 false]) ∧
      buildStage .failing 3 4 ∈ t.store.stages :=
  ⟨_, rfl, List.mem_singleton_self _, rfl, by simp,
    @done_stage_run ⟨failedStageStore, none, []⟩ _ [.snapshot, .endPass, .cancel quietEnv 1 false] rfl _
      (List.mem_singleton_self _) rfl (by simp)⟩

def mkStage (id buildId : Int) (name : String) (status : Status) (limit : Int) : Stage :=
  { id := id, buildId := buildId, repoId := 1, name := name, os := "linux", arch := "amd64",
    variant := "", kernel := "", labels := ∅, machine := "", status := status,
    started := 0, stopped := 0, limit := limit, updated := 0, version := 1,
    build := ⟨buildId, 1, .pending, "push", "", 0, 0⟩ }

def mkBuild (id : Int) (source : String) : Build := ⟨id, 1, .pending, "push", source, 0, 0⟩

/-- A build with one pending stage; a pass hands the stage to an agent; the build is
cancelled, which skips the stage. -/
def reopenRun : List Event :=
  [.create (mkBuild 1 "main") [mkStage 1 1 "default" .pending 0], .snapshot, .handOff, .endPass,
   .cancel quietEnv 1 false]

/-- The agent's `Accept` then finds the stage skipped with no machine, and writes it
back pending with its machine. -/
theorem accept_reopens_cancelled_stage :
    ∃ s t, Sys.init.run reopenRun = some s ∧ (s.store.findStage 1).map (·.status) = some .skipped ∧
      s.step (.accept 1 "m1" 200) = some t ∧
      (t.store.findStage 1).map (fun x => (x.status, x.machine)) = some (.pending, "m1") :=
  ⟨_, _, rfl, rfl, rfl, rfl⟩

def acceptedRun : List Event :=
  [.create (mkBuild 1 "main") [mkStage 1 1 "default" .pending 0], .snapshot, .handOff, .endPass,
   .snapshot, .handOff, .endPass, .accept 1 "m1" 100]

theorem machine_kept_second_accept :
    ∃ s t x, Sys.init.run acceptedRun = some s ∧
      s.run [.accept 1 "m2" 101, .cancel quietEnv 1 false] = some t ∧ x ∈ s.store.stages ∧ x.machine ≠ "" ∧
      ∃ y ∈ t.store.stages, y.id = x.id ∧ y.machine = x.machine :=
  ⟨(Sys.init.run acceptedRun).getD Sys.init, _, _, rfl, rfl, List.mem_singleton_self _, by decide,
    @machine_kept_run ((Sys.init.run acceptedRun).getD Sys.init) _ [.accept 1 "m2" 101, .cancel quietEnv 1 false]
      rfl _ (List.mem_singleton_self _) (by decide)⟩

end Sys

end Drone

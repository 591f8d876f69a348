import Drone.System.Dispatch

/-!
# Stage timestamps over whole runs

The spec asks for `Started ≤ Stopped` on every stage whose two timestamps are set. Setup
sets `Started` of a pending stage, completion sets `Stopped`, and `Cancel` sets both the
way `cancel_timestamp_order` describes. `stage_times_ordered` says the order holds on
every stage through every run whose clock never goes back, as long as no `Accept` lands
on a stage that is done: such an `Accept` makes a stopped stage pending again
(`accept_reopens_cancelled_stage`), and Setup then gives it a `Started` after its
`Stopped`. The invariant behind it (`Stage.TimesOk`) adds that a stage that is not done
has not stopped.
-/

namespace Drone

def Stage.TimesOk (x : Stage) : Prop :=
  (x.started ≠ 0 → x.stopped ≠ 0 → x.started ≤ x.stopped) ∧ (x.status.isDone = false → x.stopped = 0)

theorem Stage.timesOk_of_forall₂ {l l' : List Stage} (h : List.Forall₂ (fun x y => x.TimesOk → y.TimesOk) l l')
    (hl : ∀ x ∈ l, x.TimesOk) : ∀ y ∈ l', y.TimesOk :=
  forall₂_right (fun _ _ h => h.2 h.1) ((List.forall₂_and_left _ _).2 ⟨hl, h⟩)

theorem Stage.timesOk_of_stopped {y : Stage} (h0 : y.stopped = 0) : y.TimesOk :=
  ⟨fun _ h => absurd h0 h, fun _ => h0⟩

namespace Sys

/-- The clock never goes back: a stage completes at a time not before its `Started`,
and `Cancel` reads the clock in order, never before a `Started` of the build's stages;
new stages have not stopped; and every `Accept` finds its stage not done. -/
def ClockGuard (s : Sys) : Event → Prop
  | .create _ new => ∀ y ∈ new, y.stopped = 0
  | .accept i _ _ => ∀ x ∈ s.store.stages, x.id = i → x.status.isDone = false
  | .finish i _ n => ∀ x ∈ s.store.stages, x.id = i → x.started ≤ n
  | .cancel env i _ => (∀ m k, m ≤ k → env.clock m ≤ env.clock k) ∧
      ∀ x ∈ s.store.stages, x.buildId = i → x.started ≤ env.clock 0
  | _ => True

def StageTimes (s : Sys) : Prop := ∀ x ∈ s.store.stages, x.TimesOk

theorem StageTimes.init : StageTimes init := fun _ h => absurd h (List.not_mem_nil _)

theorem StageTimes.updateStage {s : Sys} (hi : StageTimes s) {row r : Stage} (hrow : row ∈ s.store.stages)
    (hid : r.id = row.id) (hr : row.TimesOk → r.TimesOk) : ∀ y ∈ (s.store.updateStage r).stages, y.TimesOk :=
  Stage.timesOk_of_forall₂ (Store.forall₂_updateStage (fun _ => id) hrow hid hr) hi

theorem StageTimes.step {s t : Sys} {e : Event} (hi : StageTimes s) (h : s.step e = some t)
    (hg : ClockGuard s e) : StageTimes t := by
  cases e with
  | create b new =>
    obtain ⟨_, _, hnew, rfl⟩ := step_create h
    intro y hy
    rcases List.mem_append.1 hy with hy | hy
    · exact hi y hy
    · exact Stage.timesOk_of_stopped (hg y hy)
  | promote i =>
    obtain ⟨row, hf, hw, rfl⟩ := step_promote h
    exact hi.updateStage (Store.findStage_some hf).1 rfl fun hx => Stage.timesOk_of_stopped (hx.2 (by simp [hw]))
  | snapshot => obtain ⟨-, rfl⟩ := step_snapshot h; exact hi
  | handOff => obtain ⟨_, _, _, -, -, rfl⟩ := step_handOff h; exact hi
  | skipItem => obtain ⟨_, _, _, -, rfl⟩ := step_skipItem h; exact hi
  | endPass => obtain ⟨_, -, rfl⟩ := step_endPass h; exact hi
  | accept i m n =>
    obtain ⟨-, rfl⟩ := step_accept h
    rcases acceptRow_cases s.store i m n with e | ⟨row, hf, -, e⟩
    · simpa [StageTimes, e] using hi
    · obtain ⟨hrow, hid⟩ := Store.findStage_some hf
      simpa [StageTimes, e] using hi.updateStage (r := acceptStage row m n) hrow rfl fun hx =>
        Stage.timesOk_of_stopped (hx.2 (hg row hrow hid))
  | acceptFail i => obtain ⟨-, rfl⟩ := step_acceptFail h; exact hi
  | start i n =>
    obtain ⟨row, hf, hp, -, rfl⟩ := step_start h
    have hs := hi.updateStage (r := { row with status := .running, started := n }) (Store.findStage_some hf).1
      rfl fun hx => Stage.timesOk_of_stopped (hx.2 (by simp [hp]))
    simpa [StageTimes] using hs
  | finish i st n =>
    obtain ⟨row, hf, -, hd, rfl⟩ := step_finish h
    obtain ⟨hrow, hid⟩ := Store.findStage_some hf
    exact hi.updateStage hrow rfl fun _ => ⟨fun _ _ => hg row hrow hid, fun h => by simp [hd] at h⟩
  | cancel env i user =>
    obtain ⟨b, hb, rfl⟩ := step_cancel h
    obtain ⟨hclock, hstart⟩ := hg
    rcases cancel_rows env b user s.store with e | ⟨-, hst, -⟩
    · simpa [StageTimes, e] using hi
    · have hP : ∀ x ∈ s.store.stages, x.TimesOk ∧ (x.buildId = b.id → x.started ≤ env.clock 0) :=
        fun x hx => ⟨hi x hx, fun e => hstart x hx (e.trans (Store.findBuild_some hb).2)⟩
      refine forall₂_right (fun x y h => ?_) ((List.forall₂_and_left _ _).2 ⟨hP, hst⟩)
      obtain ⟨⟨hx, hsx⟩, hxy⟩ := h
      rcases hxy with rfl | ⟨hbx, -, k, rfl⟩
      · exact hx
      · exact ⟨fun _ _ => stageWrite_started_le hclock k (hsx hbx),
          fun h => by simp [(stageWrite_isDone _ _ _).1] at h⟩
  | buildDone i st n =>
    obtain ⟨b, -, -, -, -, rfl⟩ := step_buildDone h
    exact hi

theorem StageTimes.guarded {s t : Sys} {es : List Event} (h : Guarded ClockGuard s es t) :
    StageTimes s → StageTimes t := by
  induction h with
  | nil => exact id
  | cons hs hg _ ih => exact fun hi => ih (hi.step hs hg)

/-- Through every run whose clock never goes back and whose `Accept`s find their stages
not done, every stage has `Started ≤ Stopped` when both are set. -/
theorem stage_times_ordered {es : List Event} {t : Sys} (h : Guarded ClockGuard init es t) :
    ∀ x ∈ t.store.stages, x.started ≠ 0 → x.stopped ≠ 0 → x.started ≤ x.stopped :=
  fun x hx => (StageTimes.guarded h StageTimes.init x hx).1

/-- Without the guard on `Accept` the order fails: the stage `Cancel` skipped at times
102 and 103 is accepted again at 200 and set up at 300. -/
example : ∃ t, init.run (reopenRun ++ [.accept 1 "m1" 200, .start 1 300]) = some t ∧
    ∃ x ∈ t.store.stages, x.started ≠ 0 ∧ x.stopped ≠ 0 ∧ x.stopped < x.started :=
  ⟨_, rfl, by decide⟩

def timedRun : List Event :=
  [.create (mkBuild 1 "main") [mkStage 1 1 "default" .pending 0], .snapshot, .handOff, .endPass,
   .accept 1 "m1" 100, .start 1 110, .finish 1 .passing 120]

theorem stage_times_ordered_timed_run :
    Guarded ClockGuard init timedRun ((init.run timedRun).getD init) ∧
      ∀ x ∈ ((init.run timedRun).getD init).store.stages, x.started ≠ 0 → x.stopped ≠ 0 →
        x.started ≤ x.stopped := by
  have G : Guarded ClockGuard init timedRun ((init.run timedRun).getD init) :=
    .cons rfl (by simp only [ClockGuard]; decide) (.cons rfl trivial (.cons rfl trivial (.cons rfl trivial
      (.cons rfl (by simp only [ClockGuard]; decide) (.cons rfl trivial
        (.cons rfl (by simp only [ClockGuard]; decide) (.nil _)))))))
  exact ⟨G, stage_times_ordered G⟩

end Sys

end Drone

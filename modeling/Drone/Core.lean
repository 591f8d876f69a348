import Mathlib.Data.List.AList

/-!
# Core records

The records the queue and the build manager read and write (`core.Build`,
`core.Stage`, `core.Step`), with the fields some modelled function uses. Ids and
timestamps are Go `int64` and `Stage.Limit` is a Go `int`; the modelled code only
compares them, so they are `Int`. The second section holds the build, stage and step
tables that the stores keep.
-/

namespace Drone

/-- The statuses of builds, stages and steps (`core.Status*`). -/
inductive Status
  | skipped | blocked | declined | waiting | pending | running
  | passing | failing | killed | error
  deriving DecidableEq, Repr

/-- Modelled from the spec: `IsDone` of `core.Stage` and `core.Step` is not in the
sources. Everything but waiting, pending, running and blocked is done; on the
lifecycle `waiting → pending → running → terminal` these are the terminal statuses
passing, failing, killed, skipped and error. -/
def Status.isDone : Status → Bool
  | .waiting | .pending | .running | .blocked => false
  | _ => true

abbrev Labels := AList (fun _ : String => String)

structure Build where
  id : Int
  repoId : Int
  status : Status
  event : String
  source : String
  started : Int
  finished : Int
  deriving DecidableEq, Repr

structure Step where
  id : Int
  stageId : Int
  status : Status
  started : Int
  stopped : Int
  exitCode : Int
  deriving DecidableEq, Repr

/-- `core.Stage`; `build` is the denormalized build that `ListIncomplete` joins in and
`version` the optimistic-lock column. The embedded `Steps` are paired with the stage
where `ListSteps` returns them. -/
structure Stage where
  id : Int
  buildId : Int
  repoId : Int
  name : String
  os : String
  arch : String
  variant : String
  kernel : String
  labels : Labels
  machine : String
  status : Status
  started : Int
  stopped : Int
  limit : Int
  updated : Int
  version : Int
  build : Build

theorem Status.isDone_iff (s : Status) :
    s.isDone = true ↔ s ≠ .waiting ∧ s ≠ .pending ∧ s ≠ .running ∧ s ≠ .blocked := by
  cases s <;> decide

@[simp] theorem Status.isDone_killed : Status.killed.isDone = true := rfl
@[simp] theorem Status.isDone_skipped : Status.skipped.isDone = true := rfl
@[simp] theorem Status.isDone_pending : Status.pending.isDone = false := rfl
@[simp] theorem Status.isDone_running : Status.running.isDone = false := rfl
@[simp] theorem Status.isDone_waiting : Status.waiting.isDone = false := rfl

/-! ## The build, stage and step tables

Modelled from the spec: the stores are not in the sources. A `Store` holds the rows
of the three tables, each keyed by its id; a successful `Update` replaces the row with
the caller's copy, and a stage's version goes up by one.
-/

def replaceBy {α : Type} (key : α → Int) (r : α) (rows : List α) : List α :=
  rows.map fun x => if key x = key r then r else x

theorem map_replaceBy {α : Type} (key : α → Int) (r : α) (rows : List α) :
    (replaceBy key r rows).map key = rows.map key := by
  simp only [replaceBy, List.map_map]
  congr 1
  funext x
  by_cases h : key x = key r <;> simp [h]

theorem mem_replaceBy {α : Type} {key : α → Int} {r x : α} {rows : List α} :
    x ∈ replaceBy key r rows ↔ ∃ y ∈ rows, (if key y = key r then r else y) = x := by
  simp [replaceBy]

theorem getElem?_concat_some {α : Type} {l : List α} {x a : α} {i : Nat} (h : (l ++ [x])[i]? = some a) :
    l[i]? = some a ∨ (i = l.length ∧ a = x) := by
  rw [List.getElem?_append] at h
  split_ifs at h with hi
  · exact .inl h
  · obtain ⟨hlt, e⟩ := List.getElem?_eq_some_iff.1 h
    simp only [List.length_singleton] at hlt
    rw [List.getElem_singleton] at e
    exact .inr ⟨by omega, e.symm⟩

theorem getElem?_set_some {α : Type} {l : List α} {i j : Nat} {a b c : α} (h : l[i]? = some a)
    (hj : (l.set i b)[j]? = some c) : (j = i ∧ c = b) ∨ (j ≠ i ∧ l[j]? = some c) := by
  rw [List.getElem?_set] at hj
  by_cases e : i = j
  · subst e
    rw [if_pos rfl, if_pos (List.getElem?_eq_some_iff.1 h).1] at hj
    exact .inl ⟨rfl, (Option.some.inj hj).symm⟩
  · rw [if_neg e] at hj
    exact .inr ⟨Ne.symm e, hj⟩

structure Store where
  builds : List Build
  stages : List Stage
  steps : List Step
  build_ids : (builds.map Build.id).Nodup
  stage_ids : (stages.map Stage.id).Nodup
  step_ids : (steps.map Step.id).Nodup

namespace Store

def updateBuild (st : Store) (b : Build) : Store :=
  { st with builds := replaceBy Build.id b st.builds
            build_ids := by rw [map_replaceBy]; exact st.build_ids }

def updateStage (st : Store) (s : Stage) : Store :=
  { st with stages := replaceBy Stage.id { s with version := s.version + 1 } st.stages
            stage_ids := by rw [map_replaceBy]; exact st.stage_ids }

def updateStep (st : Store) (t : Step) : Store :=
  { st with steps := replaceBy Step.id t st.steps
            step_ids := by rw [map_replaceBy]; exact st.step_ids }

/-- `Stages.ListSteps`: the build's stages, each with its steps. -/
def listSteps (st : Store) (buildId : Int) : List (Stage × List Step) :=
  (st.stages.filter (·.buildId == buildId)).map fun s => (s, st.steps.filter (·.stageId == s.id))

@[simp] theorem updateBuild_stages (st : Store) (b : Build) : (st.updateBuild b).stages = st.stages := rfl
@[simp] theorem updateBuild_steps (st : Store) (b : Build) : (st.updateBuild b).steps = st.steps := rfl
@[simp] theorem updateStage_builds (st : Store) (s : Stage) : (st.updateStage s).builds = st.builds := rfl
@[simp] theorem updateStage_steps (st : Store) (s : Stage) : (st.updateStage s).steps = st.steps := rfl
@[simp] theorem updateStep_builds (st : Store) (t : Step) : (st.updateStep t).builds = st.builds := rfl
@[simp] theorem updateStep_stages (st : Store) (t : Step) : (st.updateStep t).stages = st.stages := rfl
@[simp] theorem listSteps_updateBuild (st : Store) (b : Build) (i : Int) :
    (st.updateBuild b).listSteps i = st.listSteps i := rfl

end Store

end Drone

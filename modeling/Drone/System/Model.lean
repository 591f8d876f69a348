import Drone.Manager.Accept
import Drone.Manager.Cancel
import Drone.Queue.Match

/-!
# Dispatch, acceptance and cancellation over one store

The system the queue is part of. `signal` takes a `ListIncomplete` snapshot and
walks it, handing the stages `eligible` admits to waiting agents; the agents later
`Accept` what they were handed; users `Cancel` builds; stages and builds move along
their lifecycle. Every one of these interleaves with every other: nothing holds the
store between a snapshot and the hand-offs made from it, or between a hand-off and the
`Accept` that follows.

`Accept` is one step: its `Update` is optimistic, so an `Accept` whose `Find` and
`Update` have another write between them fails, which `acceptFail` covers. `Cancel` is
one step too, with its collaborator failures in its `CancelEnv`.
-/

namespace Drone

/-- A stage `ListIncomplete` returns: pending or running. -/
def Stage.incomplete (s : Stage) : Bool := s.status == .pending || s.status == .running

namespace Store

/-- `Stages.Find`. -/
def findStage (st : Store) (id : Int) : Option Stage := st.stages.find? (·.id == id)

/-- `Builds.Find`. -/
def findBuild (st : Store) (id : Int) : Option Build := st.builds.find? (·.id == id)

/-- Modelled from the spec: `Stages.ListIncomplete` returns the pending and running
stages in id order, each with its build's row joined in. The rows are kept in the
order they were created, which is id order (`Sys.WF`). -/
def listIncomplete (st : Store) : List Stage :=
  (st.stages.filter (·.incomplete)).map fun s => { s with build := (st.findBuild s.buildId).getD s.build }

def Fresh (st : Store) (b : Build) (stages : List Stage) : Prop :=
  (∀ x ∈ st.builds, x.id < b.id) ∧ (∀ x ∈ st.stages, ∀ y ∈ stages, x.id < y.id) ∧
    (stages.map Stage.id).Pairwise (· < ·)

instance (st : Store) (b : Build) (stages : List Stage) : Decidable (st.Fresh b stages) := by
  unfold Fresh; infer_instance

/-- Modelled from the spec: the trigger that stores a new build and its stages. -/
def create (st : Store) (b : Build) (stages : List Stage) (h : st.Fresh b stages) : Store where
  builds := st.builds ++ [b]
  stages := st.stages ++ stages
  steps := st.steps
  build_ids := by
    rw [List.map_append, List.nodup_append]
    exact ⟨st.build_ids, List.nodup_singleton _, by
      simpa [List.Disjoint] using fun x hx e => (h.1 x hx).ne e⟩
  stage_ids := by
    rw [List.map_append, List.nodup_append]
    refine ⟨st.stage_ids, h.2.2.nodup, ?_⟩
    simp only [List.Disjoint, List.mem_map]
    rintro _ ⟨x, hx, rfl⟩ ⟨y, hy, e⟩
    exact (h.2.1 x hx y hy).ne e.symm
  step_ids := st.step_ids

end Store

def Stage.SameRow (x y : Stage) : Prop :=
  y.id = x.id ∧ y.buildId = x.buildId ∧ y.repoId = x.repoId ∧ y.name = x.name ∧ y.limit = x.limit

def Build.SameRow (b c : Build) : Prop := c.id = b.id ∧ c.repoId = b.repoId ∧ c.source = b.source

/-- Modelled from the spec: a stage as the trigger stores it, for build `b`: no
machine, and pending or waiting on its dependencies. -/
def NewStage (b : Build) (y : Stage) : Prop :=
  y.buildId = b.id ∧ y.repoId = b.repoId ∧ y.machine = "" ∧ (y.status = .pending ∨ y.status = .waiting)

instance (b : Build) (y : Stage) : Decidable (NewStage b y) := by
  unfold NewStage; infer_instance

/-- The store, the pass of `signal` in flight (its snapshot and the items it has yet
to walk), and the ids of the stages handed to agents whose `Accept` has not run. -/
structure Sys where
  store : Store
  pass : Option (List Stage × List Stage)
  handed : List Int

def Sys.init : Sys := ⟨⟨[], [], [], List.nodup_nil, List.nodup_nil, List.nodup_nil⟩, none, []⟩

/-- The steps of the system. `snapshot` is `ListIncomplete` at the start of a pass;
`handOff` hands the pass's next item to a worker that fits it, `skipItem` walks past
an item no worker takes, `endPass` ends the pass. `accept` is an agent's `Accept` of a
stage it was handed, `acceptFail` one that returns a store error. `start`, `finish`,
`promote` and `buildDone` are the lifecycle moves of Setup, the Updater, the
dependency scheduler and Teardown. -/
inductive Event
  | create (b : Build) (stages : List Stage)
  | promote (id : Int)
  | snapshot
  | handOff
  | skipItem
  | endPass
  | accept (id : Int) (machine : String) (now : Int)
  | acceptFail (id : Int)
  | start (id : Int) (now : Int)
  | finish (id : Int) (status : Status) (now : Int)
  | cancel (env : CancelEnv) (id : Int) (user : Bool)
  | buildDone (id : Int) (status : Status) (now : Int)

namespace Sys

/-- `Manager.Accept(id, machine)` run to its end on the current row. -/
def acceptRow (st : Store) (id : Int) (machine : String) (now : Int) : Store :=
  match st.findStage id with
  | some row => if row.machine != "" then st else st.updateStage (acceptStage row machine now)
  | none => st

def startRow (st : Store) (row : Stage) (now : Int) : Store :=
  let st := st.updateStage { row with status := .running, started := now }
  match st.findBuild row.buildId with
  | some b => if b.status = .pending then st.updateBuild { b with status := .running, started := now } else st
  | none => st

def step (s : Sys) : Event → Option Sys
  | .create b stages =>
    if h : s.store.Fresh b stages ∧ b.status = .pending ∧ ∀ y ∈ stages, NewStage b y then
      some { s with store := s.store.create b stages h.1 }
    else none
  | .promote id =>
    match s.store.findStage id with
    | some row =>
      if row.status = .waiting then some { s with store := s.store.updateStage { row with status := .pending } }
      else none
    | none => none
  | .snapshot =>
    match s.pass with
    | none => some { s with pass := some (s.store.listIncomplete, s.store.listIncomplete) }
    | some _ => none
  | .handOff =>
    match s.pass with
    | some (items, item :: rest) =>
      if eligible items item then some { s with pass := some (items, rest), handed := item.id :: s.handed }
      else none
    | _ => none
  | .skipItem =>
    match s.pass with
    | some (items, _ :: rest) => some { s with pass := some (items, rest) }
    | _ => none
  | .endPass =>
    match s.pass with
    | some (_, []) => some { s with pass := none }
    | _ => none
  | .accept id machine now =>
    if id ∈ s.handed then
      some { s with store := acceptRow s.store id machine now, handed := s.handed.erase id }
    else none
  | .acceptFail id => if id ∈ s.handed then some { s with handed := s.handed.erase id } else none
  | .start id now =>
    match s.store.findStage id with
    | some row =>
      if row.status = .pending ∧ row.machine ≠ "" then some { s with store := startRow s.store row now }
      else none
    | none => none
  | .finish id status now =>
    match s.store.findStage id with
    | some row =>
      if row.incomplete ∧ status.isDone then
        some { s with store := s.store.updateStage { row with status := status, stopped := now } }
      else none
    | none => none
  | .cancel env id user =>
    match s.store.findBuild id with
    | some b => some { s with store := (cancel env b user s.store).store }
    | none => none
  | .buildDone id status now =>
    match s.store.findBuild id with
    | some b =>
      if b.status.isDone = false ∧ status.isDone ∧ ∀ x ∈ s.store.stages, x.buildId = id → x.status.isDone then
        some { s with store := s.store.updateBuild { b with status := status, finished := now } }
      else none
    | none => none

def run (s : Sys) : List Event → Option Sys
  | [] => some s
  | e :: es => (s.step e).bind (run · es)

def Reachable (s : Sys) : Prop := ∃ es, run init es = some s

theorem run_cons {s t : Sys} {e : Event} {es : List Event} :
    s.run (e :: es) = some t ↔ ∃ u, s.step e = some u ∧ u.run es = some t :=
  Option.bind_eq_some

theorem run_append {s : Sys} {l₁ l₂ : List Event} :
    s.run (l₁ ++ l₂) = (s.run l₁).bind (run · l₂) := by
  induction l₁ generalizing s with
  | nil => rfl
  | cons e l ih => simp [run, ih, Option.bind_assoc]

end Sys

/-! ## Rows -/

namespace Store

theorem findStage_some {st : Store} {i : Int} {row : Stage} (h : st.findStage i = some row) :
    row ∈ st.stages ∧ row.id = i :=
  ⟨List.mem_of_find?_eq_some h, by simpa using List.find?_some h⟩

theorem findBuild_some {st : Store} {i : Int} {b : Build} (h : st.findBuild i = some b) :
    b ∈ st.builds ∧ b.id = i :=
  ⟨List.mem_of_find?_eq_some h, by simpa using List.find?_some h⟩

theorem stage_eq_of_id {st : Store} {x y : Stage} (hx : x ∈ st.stages) (hy : y ∈ st.stages)
    (h : x.id = y.id) : x = y :=
  List.inj_on_of_nodup_map st.stage_ids hx hy h

theorem mem_updateStage {st : Store} {r x : Stage} (hx : x ∈ st.stages) (hne : x.id ≠ r.id) :
    x ∈ (st.updateStage r).stages :=
  mem_replaceBy.2 ⟨x, hx, if_neg hne⟩

theorem build_eq_of_id {st : Store} {b c : Build} (hb : b ∈ st.builds) (hc : c ∈ st.builds)
    (h : b.id = c.id) : b = c :=
  List.inj_on_of_nodup_map st.build_ids hb hc h

theorem forall₂_updateStage {R : Stage → Stage → Prop} (hR : ∀ x, R x x) {st : Store} {row r : Stage}
    (hrow : row ∈ st.stages) (hid : r.id = row.id) (hr : R row { r with version := r.version + 1 }) :
    List.Forall₂ R st.stages (st.updateStage r).stages := by
  refine List.forall₂_map_right_iff.2 (List.forall₂_same.2 fun x hx => ?_)
  by_cases e : x.id = r.id
  · obtain rfl := stage_eq_of_id hx hrow (e.trans hid)
    simpa [e] using hr
  · simpa [e] using hR x

theorem forall₂_updateBuild {R : Build → Build → Prop} (hR : ∀ x, R x x) {st : Store} {b c : Build}
    (hb : b ∈ st.builds) (hid : c.id = b.id) (hc : R b c) :
    List.Forall₂ R st.builds (st.updateBuild c).builds := by
  refine List.forall₂_map_right_iff.2 (List.forall₂_same.2 fun x hx => ?_)
  by_cases e : x.id = c.id
  · obtain rfl := build_eq_of_id hx hb (e.trans hid)
    simpa [e] using hc
  · simpa [e] using hR x

@[simp] theorem updateStage_ids (st : Store) (r : Stage) :
    (st.updateStage r).stages.map Stage.id = st.stages.map Stage.id :=
  map_replaceBy _ _ _

@[simp] theorem create_stages (st : Store) (b : Build) (new : List Stage) (h : st.Fresh b new) :
    (st.create b new h).stages = st.stages ++ new := rfl

@[simp] theorem create_builds (st : Store) (b : Build) (new : List Stage) (h : st.Fresh b new) :
    (st.create b new h).builds = st.builds ++ [b] := rfl

end Store

namespace Sys

theorem acceptRow_cases (st : Store) (i : Int) (m : String) (n : Int) :
    acceptRow st i m n = st ∨
      ∃ row, st.findStage i = some row ∧ row.machine = "" ∧
        acceptRow st i m n = st.updateStage (acceptStage row m n) := by
  unfold acceptRow
  split
  next row hf =>
    split
    · exact .inl rfl
    next hm => exact .inr ⟨row, hf, by simpa using hm, rfl⟩
  · exact .inl rfl

@[simp] theorem acceptRow_builds (st : Store) (i : Int) (m : String) (n : Int) :
    (acceptRow st i m n).builds = st.builds := by
  rcases acceptRow_cases st i m n with e | ⟨row, -, -, e⟩ <;> rw [e]
  rfl

@[simp] theorem startRow_stages (st : Store) (row : Stage) (n : Int) :
    (startRow st row n).stages = (st.updateStage { row with status := .running, started := n }).stages := by
  simp only [startRow]
  split
  · split <;> rfl
  · rfl

/-! ## What each step does -/

section
variable {s t : Sys}

theorem step_create {b : Build} {new : List Stage} (h : s.step (.create b new) = some t) :
    ∃ hf : s.store.Fresh b new, b.status = .pending ∧ (∀ y ∈ new, NewStage b y) ∧
      t = { s with store := s.store.create b new hf } := by
  simp only [step] at h
  split at h
  next hc => cases h; exact ⟨_, hc.2.1, hc.2.2, rfl⟩
  next => cases h

theorem step_promote {i : Int} (h : s.step (.promote i) = some t) :
    ∃ row, s.store.findStage i = some row ∧ row.status = .waiting ∧
      t = { s with store := s.store.updateStage { row with status := .pending } } := by
  simp only [step] at h
  split at h
  · split at h
    · cases h; exact ⟨_, ‹_›, ‹_›, rfl⟩
    · cases h
  · cases h

theorem step_snapshot (h : s.step .snapshot = some t) :
    s.pass = none ∧ t = { s with pass := some (s.store.listIncomplete, s.store.listIncomplete) } := by
  simp only [step] at h
  split at h
  · cases h; exact ⟨‹_›, rfl⟩
  · cases h

theorem step_handOff (h : s.step .handOff = some t) :
    ∃ items item rest, s.pass = some (items, item :: rest) ∧ eligible items item = true ∧
      t = { s with pass := some (items, rest), handed := item.id :: s.handed } := by
  simp only [step] at h
  split at h
  · split at h
    · cases h; exact ⟨_, _, _, ‹_›, ‹_›, rfl⟩
    · cases h
  · cases h

theorem step_skipItem (h : s.step .skipItem = some t) :
    ∃ items item rest, s.pass = some (items, item :: rest) ∧ t = { s with pass := some (items, rest) } := by
  simp only [step] at h
  split at h
  · cases h; exact ⟨_, _, _, ‹_›, rfl⟩
  · cases h

theorem step_endPass (h : s.step .endPass = some t) :
    ∃ items, s.pass = some (items, []) ∧ t = { s with pass := none } := by
  simp only [step] at h
  split at h
  · cases h; exact ⟨_, ‹_›, rfl⟩
  · cases h

theorem step_accept {i : Int} {m : String} {n : Int} (h : s.step (.accept i m n) = some t) :
    i ∈ s.handed ∧ t = { s with store := acceptRow s.store i m n, handed := s.handed.erase i } := by
  simp only [step] at h
  split at h
  · cases h; exact ⟨‹_›, rfl⟩
  · cases h

theorem step_acceptFail {i : Int} (h : s.step (.acceptFail i) = some t) :
    i ∈ s.handed ∧ t = { s with handed := s.handed.erase i } := by
  simp only [step] at h
  split at h
  · cases h; exact ⟨‹_›, rfl⟩
  · cases h

theorem step_start {i n : Int} (h : s.step (.start i n) = some t) :
    ∃ row, s.store.findStage i = some row ∧ row.status = .pending ∧ row.machine ≠ "" ∧
      t = { s with store := startRow s.store row n } := by
  simp only [step] at h
  split at h
  · split at h
    next hc => cases h; exact ⟨_, ‹_›, hc.1, hc.2, rfl⟩
    next => cases h
  · cases h

theorem step_finish {i n : Int} {st : Status} (h : s.step (.finish i st n) = some t) :
    ∃ row, s.store.findStage i = some row ∧ row.incomplete = true ∧ st.isDone = true ∧
      t = { s with store := s.store.updateStage { row with status := st, stopped := n } } := by
  simp only [step] at h
  split at h
  · split at h
    next hc => cases h; exact ⟨_, ‹_›, hc.1, hc.2, rfl⟩
    next => cases h
  · cases h

theorem step_cancel {env : CancelEnv} {i : Int} {user : Bool} (h : s.step (.cancel env i user) = some t) :
    ∃ b, s.store.findBuild i = some b ∧ t = { s with store := (cancel env b user s.store).store } := by
  simp only [step] at h
  split at h
  · cases h; exact ⟨_, ‹_›, rfl⟩
  · cases h

theorem step_buildDone {i n : Int} {st : Status} (h : s.step (.buildDone i st n) = some t) :
    ∃ b, s.store.findBuild i = some b ∧ b.status.isDone = false ∧ st.isDone = true ∧
      (∀ x ∈ s.store.stages, x.buildId = i → x.status.isDone = true) ∧
      t = { s with store := s.store.updateBuild { b with status := st, finished := n } } := by
  simp only [step] at h
  split at h
  · split at h
    next hc => cases h; exact ⟨_, ‹_›, hc.1, hc.2.1, hc.2.2, rfl⟩
    next => cases h
  · cases h

end

end Sys

end Drone

import Drone.Core

/-!
# `Accept` under optimistic locking

`Manager.Accept` reads the stage, gives up if a machine is assigned, and otherwise
writes the machine, `pending` and the time back through `Stages.Update`, which fails
with `ErrOptimisticLock` when the row was written after the read. Any number of calls
interleave their reads and writes over one row. An empty machine passes the check and
is written back as "unassigned": `accept_empty_machine_twice` has two calls both
return nil, the second overwriting the first's assignment. While every call names a
machine, at most one call returns nil (`accept_exclusive`).
-/

namespace Drone

/-- What `Accept` returns: nil, `db.ErrOptimisticLock`, or another store error. -/
inductive AcceptResult
  | ok
  | optimisticLock
  | storeError
  deriving DecidableEq, Repr

/-- The writes `Accept` makes to its copy of the stage (lines 209–211). -/
def acceptStage (stage : Stage) (machine : String) (now : Int) : Stage :=
  { stage with machine := machine, status := .pending, updated := now }

/-- Modelled from the spec: the stage store is not in the sources. `Update` succeeds
only if the row still has the version the caller read, and bumps it; otherwise it
fails with `ErrOptimisticLock`. -/
def updateStage (row stage : Stage) : Option Stage :=
  if row.version = stage.version then some { stage with version := stage.version + 1 } else none

inductive AcceptPc
  | start (machine : String)
  | update (stage : Stage)
  | done (r : AcceptResult)

structure AState where
  row : Stage
  calls : List AcceptPc

def AState.init (row : Stage) (machines : List String) : AState :=
  ⟨row, machines.map .start⟩

/-- `find i now` is call `i`'s `Stages.Find` with the machine check and the writes to
its copy, `now` being its `time.Now().Unix()`; `update i` its `Stages.Update`;
`findFail` and `updateFail` the store's other errors. `other` is a successful update
by another writer (Cancel, setup, teardown, the step updater), which reads the row it
writes and so keeps its machine. -/
inductive AAction
  | find (i : Nat) (now : Int)
  | findFail (i : Nat)
  | update (i : Nat)
  | updateFail (i : Nat)
  | other (status : Status) (started stopped : Int)

def astep (s : AState) : AAction → Option AState
  | .find i now =>
    match s.calls[i]? with
    | some (.start m) =>
      let next := if s.row.machine != "" then .done .optimisticLock
        else .update (acceptStage s.row m now)
      some { s with calls := s.calls.set i next }
    | _ => none
  | .findFail i =>
    match s.calls[i]? with
    | some (.start _) => some { s with calls := s.calls.set i (.done .storeError) }
    | _ => none
  | .update i =>
    match s.calls[i]? with
    | some (.update stage) =>
      match updateStage s.row stage with
      | some row => some ⟨row, s.calls.set i (.done .ok)⟩
      | none => some { s with calls := s.calls.set i (.done .optimisticLock) }
    | _ => none
  | .updateFail i =>
    match s.calls[i]? with
    | some (.update _) => some { s with calls := s.calls.set i (.done .storeError) }
    | _ => none
  | .other status started stopped =>
    some { s with row := { s.row with status := status, started := started, stopped := stopped,
                                      version := s.row.version + 1 } }

def arun (s : AState) : List AAction → Option AState
  | [] => some s
  | a :: acts => (astep s a).bind (arun · acts)

theorem astep_cases {s t : AState} {a : AAction} (h : astep s a = some t) :
    (∃ (i : Nat) (c : AcceptPc) (r : AcceptResult), s.calls[i]? = some c ∧ (∀ r', c ≠ .done r') ∧
        r ≠ .ok ∧ t = { s with calls := s.calls.set i (.done r) }) ∨
      (∃ (i : Nat) (m : String) (now : Int), s.calls[i]? = some (.start m) ∧ s.row.machine = "" ∧
        t = { s with calls := s.calls.set i (.update (acceptStage s.row m now)) }) ∨
      (∃ (i : Nat) (stage : Stage), s.calls[i]? = some (.update stage) ∧ s.row.version = stage.version ∧
        t = ⟨{ stage with version := stage.version + 1 }, s.calls.set i (.done .ok)⟩) ∨
      ∃ status started stopped, t =
        { s with row := { s.row with status := status, started := started, stopped := stopped,
                                     version := s.row.version + 1 } } := by
  cases a with
  | find i now =>
    simp only [astep] at h
    split at h
    next m hc =>
      cases h
      by_cases hm : s.row.machine = ""
      · rw [if_neg (by simp [hm])]
        exact .inr (.inl ⟨i, m, now, hc, hm, rfl⟩)
      · rw [if_pos (by simpa using hm)]
        exact .inl ⟨i, _, .optimisticLock, hc, (fun _ h => by cases h), by decide, rfl⟩
    · cases h
  | findFail i =>
    simp only [astep] at h
    split at h
    next hc => cases h; exact .inl ⟨i, _, .storeError, hc, (fun _ h => by cases h), by decide, rfl⟩
    · cases h
  | update i =>
    simp only [astep] at h
    split at h
    next stage hc =>
      split at h
      next row hu =>
        unfold updateStage at hu
        split at hu
        next hv => cases hu; cases h; exact .inr (.inr (.inl ⟨i, stage, hc, hv, rfl⟩))
        · cases hu
      next => cases h; exact .inl ⟨i, _, .optimisticLock, hc, (fun _ h => by cases h), by decide, rfl⟩
    · cases h
  | updateFail i =>
    simp only [astep] at h
    split at h
    next hc => cases h; exact .inl ⟨i, _, .storeError, hc, (fun _ h => by cases h), by decide, rfl⟩
    · cases h
  | other status started stopped =>
    cases h
    exact .inr (.inr (.inr ⟨status, started, stopped, rfl⟩))

def unassignedStage : Stage :=
  { id := 7, buildId := 1, repoId := 1, name := "default", os := "linux", arch := "amd64",
    variant := "", kernel := "", labels := ∅, machine := "", status := .pending,
    started := 0, stopped := 0, limit := 0, updated := 0, version := 1,
    build := ⟨1, 1, .pending, "push", "main", 0, 0⟩ }

/-- `Accept(7, "")` and then `Accept(7, "m2")`, one after the other: both return nil,
and the second replaces the machine the first assigned. -/
theorem accept_empty_machine_twice :
    ∃ s, arun (AState.init unassignedStage ["", "m2"])
        [.find 0 100, .update 0, .find 1 101, .update 1] = some s ∧
      (∃ s₁, arun (AState.init unassignedStage ["", "m2"]) [.find 0 100, .update 0] = some s₁ ∧
        s₁.row.machine = "" ∧ s₁.row.status = .pending) ∧
      s.row.machine = "m2" ∧
      ∃ c₀ c₁, s.calls = [c₀, c₁] ∧ c₀ = .done .ok ∧ c₁ = .done .ok :=
  ⟨_, rfl, ⟨_, rfl, rfl, rfl⟩, rfl, _, _, rfl, rfl, rfl⟩

/-! ## At most one winner

The source's comment gives `Accept` its purpose: several agents may pull the same stage,
and optimistic locking keeps all but one from executing it. That holds while every call
names a machine (`accept_exclusive`). -/

structure AcceptInv (s : AState) : Prop where
  start : ∀ (i : Nat) m, s.calls[i]? = some (.start m) → m ≠ ""
  update : ∀ (i : Nat) (stage : Stage), s.calls[i]? = some (.update stage) →
    stage.machine ≠ "" ∧ stage.version ≤ s.row.version
  ok : ∀ i : Nat, s.calls[i]? = some (.done .ok) → s.row.machine ≠ "" ∧
    (∀ (j : Nat) (stage : Stage), s.calls[j]? = some (.update stage) → stage.version < s.row.version) ∧
    ∀ j : Nat, s.calls[j]? = some (.done .ok) → j = i

theorem AcceptInv.fail {s : AState} (hi : AcceptInv s) {i : Nat} {c : AcceptPc} (hc : s.calls[i]? = some c)
    {r : AcceptResult} (hr : r ≠ .ok) : AcceptInv { s with calls := s.calls.set i (.done r) } := by
  refine ⟨fun j m hj => ?_, fun j st hj => ?_, fun j hj => ?_⟩
  · rcases getElem?_set_some hc hj with ⟨-, h⟩ | ⟨-, h⟩
    · cases h
    · exact hi.start j m h
  · rcases getElem?_set_some hc hj with ⟨-, h⟩ | ⟨-, h⟩
    · cases h
    · exact hi.update j st h
  · rcases getElem?_set_some hc hj with ⟨-, h⟩ | ⟨-, h⟩
    · cases h; exact absurd rfl hr
    obtain ⟨hm, hv, hu⟩ := hi.ok j h
    refine ⟨hm, fun k st hk => ?_, fun k hk => ?_⟩ <;> rcases getElem?_set_some hc hk with ⟨-, h'⟩ | ⟨-, h'⟩
    · cases h'
    · exact hv k st h'
    · cases h'; exact absurd rfl hr
    · exact hu k h'

theorem AcceptInv.find {s : AState} (hi : AcceptInv s) {i : Nat} {m : String} (hc : s.calls[i]? = some (.start m))
    (hm : s.row.machine = "") (now : Int) :
    AcceptInv { s with calls := s.calls.set i (.update (acceptStage s.row m now)) } := by
  refine ⟨fun j m' hj => ?_, fun j st hj => ?_, fun j hj => ?_⟩ <;>
    rcases getElem?_set_some hc hj with ⟨-, h⟩ | ⟨-, h⟩
  · cases h
  · exact hi.start j m' h
  · cases h; exact ⟨hi.start i m hc, le_refl _⟩
  · exact hi.update j st h
  · cases h
  · exact absurd hm (hi.ok j h).1

/-- A write that finds the row's version wins: no call had returned nil, since call `i`'s
copy is as new as the row, and every other copy is now older than the row. -/
theorem AcceptInv.win {s : AState} (hi : AcceptInv s) {i : Nat} {stage : Stage}
    (hc : s.calls[i]? = some (.update stage)) (hv : s.row.version = stage.version) :
    AcceptInv ⟨{ stage with version := stage.version + 1 }, s.calls.set i (.done .ok)⟩ := by
  have only : ∀ j, (s.calls.set i (.done .ok))[j]? = some (.done .ok) → j = i := fun j hj => by
    rcases getElem?_set_some hc hj with ⟨e, -⟩ | ⟨-, h⟩
    · exact e
    · have := (hi.ok j h).2.1 i stage hc
      omega
  refine ⟨fun j m hj => ?_, fun j st hj => ?_, fun j hj => ⟨(hi.update i stage hc).1, fun k st hk => ?_,
    fun k hk => (only k hk).trans (only j hj).symm⟩⟩
  · rcases getElem?_set_some hc hj with ⟨-, h⟩ | ⟨-, h⟩
    · cases h
    · exact hi.start j m h
  · rcases getElem?_set_some hc hj with ⟨-, h⟩ | ⟨-, h⟩
    · cases h
    · obtain ⟨h₁, h₂⟩ := hi.update j st h
      exact ⟨h₁, show st.version ≤ stage.version + 1 by omega⟩
  · rcases getElem?_set_some hc hk with ⟨-, h⟩ | ⟨-, h⟩
    · cases h
    · have := (hi.update k st h).2
      show st.version < stage.version + 1
      omega

theorem AcceptInv.step {s t : AState} {a : AAction} (hi : AcceptInv s) (h : astep s a = some t) :
    AcceptInv t := by
  cases a with
  | find i now =>
    simp only [astep] at h
    split at h
    next m hc =>
      cases h
      split
      · exact hi.fail hc (by decide)
      · next hm => exact hi.find hc (by simpa using hm) now
    · cases h
  | findFail i =>
    simp only [astep] at h
    split at h
    next hc => cases h; exact hi.fail hc (by decide)
    · cases h
  | update i =>
    simp only [astep] at h
    split at h
    next stage hc =>
      split at h
      next row hu =>
        unfold updateStage at hu
        split at hu
        next hv => cases hu; cases h; exact hi.win hc hv
        · cases hu
      next => cases h; exact hi.fail hc (by decide)
    · cases h
  | updateFail i =>
    simp only [astep] at h
    split at h
    next hc => cases h; exact hi.fail hc (by decide)
    · cases h
  | other status started stopped =>
    simp only [astep] at h
    cases h
    -- another writer bumps the version and keeps the machine
    refine ⟨hi.start, fun j st hj => ?_, fun j hj => ?_⟩
    · obtain ⟨h₁, h₂⟩ := hi.update j st hj
      exact ⟨h₁, show st.version ≤ s.row.version + 1 by omega⟩
    · obtain ⟨hm, hv, hu⟩ := hi.ok j hj
      exact ⟨hm, fun k st hk => show st.version < s.row.version + 1 by have := hv k st hk; omega, hu⟩

theorem AcceptInv.run {s t : AState} {acts : List AAction} (hi : AcceptInv s) (h : arun s acts = some t) :
    AcceptInv t := by
  induction acts generalizing s with
  | nil => cases h; exact hi
  | cons a acts ih =>
    obtain ⟨u, hu, hr⟩ := Option.bind_eq_some.1 h
    exact ih (hi.step hu) hr

theorem AcceptInv.init (row : Stage) {machines : List String} (hm : ∀ m ∈ machines, m ≠ "") :
    AcceptInv (AState.init row machines) := by
  refine ⟨fun i m h => ?_, fun i st h => ?_, fun i h => ?_⟩ <;>
    obtain ⟨m', hm', e⟩ := Option.map_eq_some'.1 ((List.getElem?_map _ _ _).symm.trans h)
  · cases e; exact hm _ (List.getElem?_mem hm')
  · cases e
  · cases e

/-- While every call names a machine, at most one `Accept` returns nil, however the
calls and the stage's other writers interleave. -/
theorem accept_exclusive (row : Stage) {machines : List String} (hm : ∀ m ∈ machines, m ≠ "")
    {acts : List AAction} {s : AState} (h : arun (AState.init row machines) acts = some s) {i j : Nat}
    (hi : s.calls[i]? = some (.done .ok)) (hj : s.calls[j]? = some (.done .ok)) : i = j :=
  (((AcceptInv.init row hm).run h).ok i hi).2.2 j hj |>.symm

theorem accept_exclusive_two_agents :
    ∃ s, arun (AState.init unassignedStage ["m1", "m2"]) [.find 0 100, .find 1 100, .update 0, .update 1] = some s ∧
      s.calls[0]? = some (.done .ok) ∧ s.calls[1]? = some (.done .optimisticLock) ∧
      ∀ j : Nat, s.calls[j]? = some (.done .ok) → j = 0 :=
  ⟨_, rfl, rfl, rfl, fun j hj => @accept_exclusive unassignedStage ["m1", "m2"] (by decide)
    [.find 0 100, .find 1 100, .update 0, .update 1] _ rfl j 0 hj rfl⟩

end Drone

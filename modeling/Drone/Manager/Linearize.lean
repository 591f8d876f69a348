import Drone.Manager.Accept

/-!
# Accept as a serial history of whole writes

`Stages.Update` succeeds only on the version its caller read, and every write bumps the
version. So the copy a successful `Update` writes was taken from the row as it still is:
the call's `Find`, its machine check and its writes act as one step at the moment of its
`Update`. `accept_serial` says that every interleaving of `Accept` calls and other
writers leaves the row as a serial history of whole `Accept`s, each on a row with no
machine, and other writes would leave it, and that the `Accept`s of that history are the
calls that returned nil, each once, with its own machine. A whole `Accept` is what the
dispatch system's one-step `Accept` (`Sys.acceptRow`) writes. In a serial history a
machine once written is never replaced, so a call that returned nil for a machine finds
that machine in the row in every later state (`accept_winner_recorded`).
-/

namespace Drone

/-- One whole write to the stage row: call `i`'s `Accept` of `machine` at time `now`, or
another writer's update. -/
inductive RowWrite
  | accept (i : Nat) (machine : String) (now : Int)
  | other (status : Status) (started stopped : Int)

namespace RowWrite

def apply (row : Stage) : RowWrite → Option Stage
  | .accept _ m now =>
    if row.machine = "" then some { acceptStage row m now with version := row.version + 1 } else none
  | .other status started stopped =>
    some { row with status := status, started := started, stopped := stopped, version := row.version + 1 }

def serial (row : Stage) : List RowWrite → Option Stage
  | [] => some row
  | w :: ws => (w.apply row).bind (serial · ws)

def caller : RowWrite → Option Nat
  | .accept i _ _ => some i
  | .other .. => none

theorem serial_append_single {row t : Stage} {ws : List RowWrite} (h : serial row ws = some t) (w : RowWrite) :
    serial row (ws ++ [w]) = w.apply t := by
  induction ws generalizing row with
  | nil => cases h; simp [serial]
  | cons v ws ih =>
    obtain ⟨u, hu, hr⟩ := Option.bind_eq_some.1 h
    simp only [List.cons_append, serial, hu, Option.some_bind]
    exact ih hr

theorem serial_machine_kept : ∀ {row t : Stage} {ws : List RowWrite}, serial row ws = some t →
    row.machine ≠ "" → t.machine = row.machine
  | _, _, [], h, _ => by cases h; rfl
  | row, t, w :: ws, h, hm => by
    obtain ⟨u, hu, hr⟩ := Option.bind_eq_some.1 h
    cases w with
    | accept i m now =>
      simp only [apply, if_neg hm] at hu
      cases hu
    | other status started stopped =>
      cases hu
      exact (serial_machine_kept hr hm).trans rfl

theorem serial_accept_machine : ∀ {row t : Stage} {ws : List RowWrite}, serial row ws = some t →
    ∀ {i : Nat} {m : String} {now : Int}, accept i m now ∈ ws → m ≠ "" → t.machine = m
  | _, _, [], _, _, _, _, hw, _ => absurd hw (List.not_mem_nil _)
  | row, t, w :: ws, h, i, m, now, hw, hm => by
    obtain ⟨u, hu, hr⟩ := Option.bind_eq_some.1 h
    rcases List.mem_cons.1 hw with rfl | hw
    · simp only [apply] at hu
      split at hu
      · cases hu
        exact (serial_machine_kept hr hm).trans rfl
      · cases hu
    · exact serial_accept_machine hr hw hm

end RowWrite

open RowWrite

/-! ## The interleaved calls against their serial history -/

structure Serialized (row₀ : Stage) (machines : List String) (s : AState) (ws : List RowWrite) : Prop where
  row : serial row₀ ws = some s.row
  length : s.calls.length = machines.length
  start : ∀ (i : Nat) m, s.calls[i]? = some (.start m) → machines[i]? = some m
  update : ∀ (i : Nat) stage, s.calls[i]? = some (.update stage) → ∃ r m now, stage = acceptStage r m now ∧
    machines[i]? = some m ∧ r.machine = "" ∧ r.version ≤ s.row.version ∧ (r.version = s.row.version → r = s.row)
  written : ∀ i : Nat, i ∈ ws.filterMap caller ↔ s.calls[i]? = some (.done .ok)
  machine : ∀ i m now, accept i m now ∈ ws → machines[i]? = some m
  nodup : (ws.filterMap caller).Nodup

section
variable {row₀ : Stage} {machines : List String} {s t : AState} {ws : List RowWrite}

theorem Serialized.init (row₀ : Stage) (machines : List String) :
    Serialized row₀ machines (AState.init row₀ machines) [] := by
  have hc : ∀ (i : Nat) c, (AState.init row₀ machines).calls[i]? = some c → ∃ m, machines[i]? = some m ∧ c = .start m :=
    fun i c h => by
      obtain ⟨m, hm, e⟩ := Option.map_eq_some'.1 ((List.getElem?_map _ _ _).symm.trans h)
      exact ⟨m, hm, e.symm⟩
  refine ⟨rfl, List.length_map _ _, fun i m h => ?_, fun i st h => ?_, fun i => ?_, fun _ _ _ h => ?_, List.nodup_nil⟩
  · obtain ⟨m', hm, e⟩ := hc i _ h
    cases e
    exact hm
  · obtain ⟨m', -, e⟩ := hc i _ h
    cases e
  · simp only [List.filterMap_nil, List.not_mem_nil, false_iff]
    intro h
    obtain ⟨m', -, e⟩ := hc i _ h
    cases e
  · cases h

theorem Serialized.set (hs : Serialized row₀ machines s ws) {i : Nat} {c c' : AcceptPc}
    (hc : s.calls[i]? = some c) (hn : c ≠ .done .ok) (hn' : c' ≠ .done .ok)
    (hstart : ∀ m, c' = .start m → machines[i]? = some m)
    (hupd : ∀ stage, c' = .update stage → ∃ r m now, stage = acceptStage r m now ∧ machines[i]? = some m ∧
      r.machine = "" ∧ r.version ≤ s.row.version ∧ (r.version = s.row.version → r = s.row)) :
    Serialized row₀ machines { s with calls := s.calls.set i c' } ws := by
  refine ⟨hs.row, (List.length_set _ _ _).trans hs.length, fun j m hj => ?_, fun j st hj => ?_, fun j => ?_,
    hs.machine, hs.nodup⟩
  · rcases getElem?_set_some hc hj with ⟨rfl, rfl⟩ | ⟨-, h⟩
    · exact hstart m rfl
    · exact hs.start j m h
  · rcases getElem?_set_some hc hj with ⟨rfl, rfl⟩ | ⟨-, h⟩
    · exact hupd st rfl
    · exact hs.update j st h
  · rw [hs.written]
    by_cases e : j = i
    · subst e
      rw [List.getElem?_set_eq_of_lt _ (List.getElem?_eq_some_iff.1 hc).1, hc]
      exact ⟨fun h => absurd (Option.some.inj h) hn, fun h => absurd (Option.some.inj h) hn'⟩
    · rw [List.getElem?_set_ne (Ne.symm e)]

theorem Serialized.update_bump (hs : Serialized row₀ machines s ws) {j : Nat} {stage : Stage}
    (hj : s.calls[j]? = some (.update stage)) {row : Stage} (hv : row.version = s.row.version + 1) :
    ∃ r m now, stage = acceptStage r m now ∧ machines[j]? = some m ∧ r.machine = "" ∧
      r.version ≤ row.version ∧ (r.version = row.version → r = row) := by
  obtain ⟨r, m, now, e, h₁, h₂, h₃, -⟩ := hs.update j stage hj
  exact ⟨r, m, now, e, h₁, h₂, by omega, fun e' => absurd e' (by omega)⟩

theorem Serialized.fail (hs : Serialized row₀ machines s ws) {i : Nat} {c : AcceptPc} {r : AcceptResult}
    (hc : s.calls[i]? = some c) (hn : ∀ r', c ≠ .done r') (hr : r ≠ .ok) :
    Serialized row₀ machines { s with calls := s.calls.set i (.done r) } ws :=
  hs.set hc (hn _) (fun h => hr (by cases h; rfl)) (fun _ h => by cases h) fun _ h => by cases h

theorem Serialized.find (hs : Serialized row₀ machines s ws) {i : Nat} {m : String}
    (hc : s.calls[i]? = some (.start m)) (hm : s.row.machine = "") (now : Int) :
    Serialized row₀ machines { s with calls := s.calls.set i (.update (acceptStage s.row m now)) } ws :=
  hs.set hc (fun h => by cases h) (fun h => by cases h) (fun _ h => by cases h) fun _ h => by
    cases h
    exact ⟨s.row, m, now, rfl, hs.start i m hc, hm, le_refl _, fun _ => rfl⟩

theorem Serialized.win (hs : Serialized row₀ machines s ws) {i : Nat} {stage : Stage}
    (hc : s.calls[i]? = some (.update stage)) (hv : s.row.version = stage.version) :
    ∃ ws', Serialized row₀ machines ⟨{ stage with version := stage.version + 1 }, s.calls.set i (.done .ok)⟩ ws' := by
  obtain ⟨r, m, now, rfl, hm, hr, -, heq⟩ := hs.update i stage hc
  obtain rfl : r = s.row := heq hv.symm
  have hi : i ∉ ws.filterMap caller := fun h => by rw [hs.written, hc] at h; cases h
  have hlt := (List.getElem?_eq_some_iff.1 hc).1
  refine ⟨ws ++ [.accept i m now], ?_, (List.length_set _ _ _).trans hs.length, fun j m' hj => ?_,
    fun j st hj => ?_, fun j => ?_, fun j m' now' hj => ?_, ?_⟩
  · rw [serial_append_single hs.row, apply, if_pos hr]
    rfl
  · rcases getElem?_set_some hc hj with ⟨-, h⟩ | ⟨-, h⟩
    · cases h
    · exact hs.start j m' h
  · rcases getElem?_set_some hc hj with ⟨-, h⟩ | ⟨-, h⟩
    · cases h
    · exact hs.update_bump h (congrArg (· + 1) hv.symm)
  · rw [List.filterMap_append, List.mem_append, hs.written]
    by_cases e : j = i
    · subst e
      simp [caller, List.getElem?_set_eq_of_lt _ hlt]
    · simp [caller, e, List.getElem?_set_ne (Ne.symm e)]
  · rcases List.mem_append.1 hj with hj | hj
    · exact hs.machine j m' now' hj
    · cases List.mem_singleton.1 hj
      exact hm
  · rw [List.filterMap_append]
    exact List.nodup_append.2 ⟨hs.nodup, List.nodup_singleton _, by simpa [caller] using hi⟩

theorem Serialized.other (hs : Serialized row₀ machines s ws) (status : Status) (started stopped : Int) :
    Serialized row₀ machines { s with row := { s.row with status := status, started := started, stopped := stopped,
                                                          version := s.row.version + 1 } }
      (ws ++ [.other status started stopped]) := by
  have hf : (ws ++ [RowWrite.other status started stopped]).filterMap caller = ws.filterMap caller := by
    simp [caller]
  refine ⟨serial_append_single hs.row _, hs.length, hs.start, fun j st hj => ?_, fun j => ?_,
    fun j m now hj => ?_, hf ▸ hs.nodup⟩
  · exact hs.update_bump hj rfl
  · rw [hf]
    exact hs.written j
  · rcases List.mem_append.1 hj with hj | hj
    · exact hs.machine j m now hj
    · cases List.mem_singleton.1 hj

theorem Serialized.step (hs : Serialized row₀ machines s ws) {a : AAction} (h : astep s a = some t) :
    ∃ ws', Serialized row₀ machines t ws' := by
  rcases astep_cases h with ⟨i, c, r, hc, hn, hr, rfl⟩ | ⟨i, m, now, hc, hm, rfl⟩ | ⟨i, stage, hc, hv, rfl⟩ |
    ⟨status, started, stopped, rfl⟩
  · exact ⟨ws, hs.fail hc hn hr⟩
  · exact ⟨ws, hs.find hc hm now⟩
  · exact hs.win hc hv
  · exact ⟨_, hs.other status started stopped⟩

theorem Serialized.run (hs : Serialized row₀ machines s ws) {acts : List AAction} (h : arun s acts = some t) :
    ∃ ws', Serialized row₀ machines t ws' := by
  induction acts generalizing s ws with
  | nil => cases h; exact ⟨ws, hs⟩
  | cons a acts ih =>
    obtain ⟨u, hu, hr⟩ := Option.bind_eq_some.1 h
    obtain ⟨ws', hs'⟩ := hs.step hu
    exact ih hs' hr

end

/-! ## The serial history and the agreement it gives -/

/-- Every interleaving of `Accept` calls and other writers on a stage row leaves the row
as a serial history of whole `Accept`s, each on a row with no machine, and other writes
would leave it; the `Accept`s in that history are exactly the calls that returned nil,
each once, with its own machine. -/
theorem accept_serial (row : Stage) (machines : List String) {acts : List AAction} {s : AState}
    (h : arun (AState.init row machines) acts = some s) :
    ∃ ws : List RowWrite, serial row ws = some s.row ∧ (ws.filterMap caller).Nodup ∧
      (∀ i m now, RowWrite.accept i m now ∈ ws → machines[i]? = some m) ∧
      ∀ i : Nat, s.calls[i]? = some (.done .ok) ↔ i ∈ ws.filterMap caller := by
  obtain ⟨ws, hs⟩ := (Serialized.init row machines).run h
  exact ⟨ws, hs.row, hs.nodup, hs.machine, fun i => (hs.written i).symm⟩

def raceActs : List AAction := [.find 0 100, .other .pending 0 0, .update 0, .find 1 101, .update 1]

theorem accept_serial_race :
    ∃ s, arun (AState.init unassignedStage ["m1", "m2"]) raceActs = some s ∧
      s.calls[0]? = some (.done .optimisticLock) ∧
      ∃ ws : List RowWrite, serial unassignedStage ws = some s.row ∧ (ws.filterMap caller).Nodup ∧
        (∀ i m now, RowWrite.accept i m now ∈ ws → (["m1", "m2"] : List String)[i]? = some m) ∧
        ∀ i : Nat, s.calls[i]? = some (.done .ok) ↔ i ∈ ws.filterMap caller :=
  ⟨_, rfl, rfl, @accept_serial unassignedStage ["m1", "m2"] raceActs _ rfl⟩

/-- A call that returned nil for a machine finds that machine in the row in every state
of every interleaving with other `Accept` calls and other writers. -/
theorem accept_winner_recorded (row : Stage) (machines : List String) {acts : List AAction} {s : AState}
    (h : arun (AState.init row machines) acts = some s) {i : Nat} {m : String}
    (hi : s.calls[i]? = some (.done .ok)) (hm : machines[i]? = some m) (hne : m ≠ "") : s.row.machine = m := by
  obtain ⟨ws, hs⟩ := (Serialized.init row machines).run h
  obtain ⟨w, hw, hc⟩ := List.mem_filterMap.1 ((hs.written i).2 hi)
  cases w with
  | accept j m' now =>
    obtain rfl : j = i := Option.some.inj hc
    obtain rfl : m' = m := Option.some.inj ((hs.machine _ _ _ hw).symm.trans hm)
    exact serial_accept_machine hs.row hw hne
  | other => cases hc

theorem accept_winner_recorded_race :
    ∃ s, arun (AState.init unassignedStage ["m1", "m2"]) raceActs = some s ∧ s.calls[1]? = some (.done .ok) ∧
      (["m1", "m2"] : List String)[1]? = some "m2" ∧ "m2" ≠ "" ∧ s.row.machine = "m2" :=
  ⟨_, rfl, rfl, rfl, by decide,
    @accept_winner_recorded unassignedStage ["m1", "m2"] raceActs _ rfl 1 "m2" rfl rfl (by decide)⟩

end Drone

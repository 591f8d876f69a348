import Drone.Queue.Match

/-!
# The queue as interleaved goroutines

The dispatcher (`start` calling `signal`), every `Request` call, and the callers of
`Schedule`, `Pause` and `Resume` are processes over one `QState`. An action is one
atomic step of one of them, and `step` returns `none` when it is not enabled. The
mutex is held exactly while the dispatcher is in the loop of `signal`: every other
critical section of queue.go is a lock, a few reads or writes and an unlock, so it is
one step that needs the mutex free.
-/

namespace Drone

/-- `core.Filter`: the fields `queue.Request` copies into its worker. -/
structure Filter where
  os : String
  arch : String
  kernel : String
  variant : String
  labels : Labels

inductive ReqPc
  | hint
  | wait
  | cancelling
  | done (got : Option Stage)

structure Req where
  worker : Worker
  pc : ReqPc

/-- Where the dispatcher is. `items` is the pass's snapshot and `rest` what the loop
over it has left; in `send` it is blocked on `w.channel <- item`. -/
inductive Disp
  | idle
  | check
  | list
  | relock (items : List Stage)
  | loop (items rest : List Stage)
  | send (items rest : List Stage) (item : Stage) (w : Nat)

/-- The queue's shared state and the program counters. `ready` counts the tokens in
`q.ready`; `workers` are the keys of `q.workers`, as indices into `reqs`, the
`Request` calls in arrival order. -/
structure QState where
  ready : Nat
  paused : Bool
  workers : List Nat
  reqs : List Req
  disp : Disp

/-- `newQueue`: nothing buffered, not paused, the dispatcher waiting in `start`. -/
def QState.init : QState := ⟨0, false, [], [], .idle⟩

/-- The buffer size of `q.ready` (`make(chan struct{}, 1)`). -/
def readyCap : Nat := 1

/-- A non-blocking send on `q.ready`: `select { case q.ready <- struct{}{}: default: }`. -/
def trySend (n : Nat) : Nat := if n < readyCap then n + 1 else n

def Disp.holdsLock : Disp → Bool
  | .loop .. | .send .. => true
  | _ => false

inductive QAction
  | request (f : Filter)
  | reqHint (i : Nat)
  | reqCancel (i : Nat)
  | reqDelete (i : Nat)
  | schedule
  | pause
  | resume
  | wake
  | tick
  | check
  | list (items : Option (List Stage))
  | relock
  | pick (w : Nat)
  | skip
  | deliver
  | unlock

def QState.fits (s : QState) (item : Stage) (i : Nat) : Bool :=
  match s.reqs[i]? with
  | some r => platformMatch r.worker item
  | none => false

/-- One step. `request` is lines 75–85 of `Request`, `reqHint` lines 87–90,
`reqCancel` its `ctx.Done()` branch and `reqDelete` lines 94–97; `schedule` is the
send of `Schedule` or the one that ends `Resume`, `resume` the locked part of
`Resume`. `wake` and `tick` are the two wake-ups of `start`; `check` is lines
104–113 of `signal`, `list` the `ListIncomplete` call (or its error), `relock`
line 119. In the loop, `pick w` settles on the waiting worker `w` that the map
iteration reaches first among those that fit, `skip` drops an item that is filtered
out or that no worker fits, `deliver` is the send meeting the receive of line 98, and
`unlock` ends the pass. -/
def step (s : QState) : QAction → Option QState
  | .request f =>
    if s.disp.holdsLock then none
    else
      let w : Worker := ⟨s.reqs.length, f.os, f.arch, f.kernel, f.variant, f.labels⟩
      some { s with reqs := s.reqs ++ [⟨w, .hint⟩], workers := s.workers ++ [s.reqs.length] }
  | .reqHint i =>
    match s.reqs[i]? with
    | some ⟨w, .hint⟩ => some { s with ready := trySend s.ready, reqs := s.reqs.set i ⟨w, .wait⟩ }
    | _ => none
  | .reqCancel i =>
    match s.reqs[i]? with
    | some ⟨w, .wait⟩ => some { s with reqs := s.reqs.set i ⟨w, .cancelling⟩ }
    | _ => none
  | .reqDelete i =>
    match s.reqs[i]? with
    | some ⟨w, .cancelling⟩ =>
      if s.disp.holdsLock then none
      else some { s with workers := s.workers.erase i, reqs := s.reqs.set i ⟨w, .done none⟩ }
    | _ => none
  | .schedule => some { s with ready := trySend s.ready }
  | .pause => if s.disp.holdsLock then none else some { s with paused := true }
  | .resume => if s.disp.holdsLock then none else some { s with paused := false }
  | .wake =>
    match s.disp with
    | .idle => if 0 < s.ready then some { s with ready := s.ready - 1, disp := .check } else none
    | _ => none
  | .tick =>
    match s.disp with
    | .idle => some { s with disp := .check }
    | _ => none
  | .check =>
    match s.disp with
    | .check => some { s with disp := if s.paused || s.workers.isEmpty then .idle else .list }
    | _ => none
  | .list r =>
    match s.disp, r with
    | .list, some items => some { s with disp := .relock items }
    | .list, none => some { s with disp := .idle }
    | _, _ => none
  | .relock =>
    match s.disp with
    | .relock items => some { s with disp := .loop items items }
    | _ => none
  | .pick w =>
    match s.disp with
    | .loop items (item :: rest) =>
      if eligible items item && s.workers.contains w && s.fits item w then
        some { s with disp := .send items rest item w }
      else none
    | _ => none
  | .skip =>
    match s.disp with
    | .loop items (item :: rest) =>
      if !eligible items item || !s.workers.any (s.fits item) then
        some { s with disp := .loop items rest }
      else none
    | _ => none
  | .deliver =>
    match s.disp with
    | .send items rest item w =>
      match s.reqs[w]? with
      | some ⟨v, .wait⟩ =>
        some { s with workers := s.workers.erase w, reqs := s.reqs.set w ⟨v, .done (some item)⟩,
                      disp := .loop items rest }
      | _ => none
    | _ => none
  | .unlock =>
    match s.disp with
    | .loop _ [] => some { s with disp := .idle }
    | _ => none

def run (s : QState) : List QAction → Option QState
  | [] => some s
  | a :: acts => (step s a).bind (run · acts)

def Reachable (s : QState) : Prop := ∃ acts, run QState.init acts = some s

theorem run_cons {s t : QState} {a : QAction} {acts : List QAction} :
    run s (a :: acts) = some t ↔ ∃ u, step s a = some u ∧ run u acts = some t := by
  simp [run, Option.bind_eq_some]

theorem run_append {s : QState} {l₁ l₂ : List QAction} :
    run s (l₁ ++ l₂) = (run s l₁).bind (run · l₂) := by
  induction l₁ generalizing s with
  | nil => rfl
  | cons a l ih => simp [run, ih, Option.bind_assoc]

theorem run_snoc {s t : QState} {acts : List QAction} {a : QAction} :
    run s (acts ++ [a]) = some t ↔ ∃ u, run s acts = some u ∧ step u a = some t := by
  simp [run_append, run, Option.bind_eq_some]

/-! ## What each action does -/

section
variable {s t : QState}

theorem step_request {f : Filter} (h : step s (.request f) = some t) :
    s.disp.holdsLock = false ∧
      t = { s with reqs := s.reqs ++ [⟨⟨s.reqs.length, f.os, f.arch, f.kernel, f.variant, f.labels⟩, .hint⟩],
                   workers := s.workers ++ [s.reqs.length] } := by
  simp only [step] at h
  split at h
  · cases h
  · next hl => cases h; exact ⟨by simpa using hl, rfl⟩

theorem step_reqHint {i : Nat} (h : step s (.reqHint i) = some t) :
    ∃ w, s.reqs[i]? = some ⟨w, .hint⟩ ∧
      t = { s with ready := trySend s.ready, reqs := s.reqs.set i ⟨w, .wait⟩ } := by
  simp only [step] at h
  split at h
  · next w hr => cases h; exact ⟨w, hr, rfl⟩
  · cases h

theorem step_reqCancel {i : Nat} (h : step s (.reqCancel i) = some t) :
    ∃ w, s.reqs[i]? = some ⟨w, .wait⟩ ∧ t = { s with reqs := s.reqs.set i ⟨w, .cancelling⟩ } := by
  simp only [step] at h
  split at h
  · next w hr => cases h; exact ⟨w, hr, rfl⟩
  · cases h

theorem step_reqDelete {i : Nat} (h : step s (.reqDelete i) = some t) :
    ∃ w, s.reqs[i]? = some ⟨w, .cancelling⟩ ∧ s.disp.holdsLock = false ∧
      t = { s with workers := s.workers.erase i, reqs := s.reqs.set i ⟨w, .done none⟩ } := by
  simp only [step] at h
  split at h
  · next w hr =>
    split at h
    · cases h
    · next hl => cases h; exact ⟨w, hr, by simpa using hl, rfl⟩
  · cases h

theorem step_frame {a : QAction} (h : step s a = some t)
    (ha : a = .schedule ∨ a = .pause ∨ a = .resume ∨ a = .wake ∨ a = .tick ∨ a = .check) :
    t.reqs = s.reqs ∧ t.workers = s.workers ∧ (t.disp = s.disp ∨ t.disp.holdsLock = false) := by
  rcases ha with rfl | rfl | rfl | rfl | rfl | rfl <;> simp only [step] at h
  · cases h; exact ⟨rfl, rfl, .inl rfl⟩
  all_goals (repeat' split at h) <;> cases h <;> refine ⟨rfl, rfl, ?_⟩
  all_goals first | exact .inl rfl | exact .inr rfl

theorem step_list {r : Option (List Stage)} (h : step s (.list r) = some t) :
    s.disp = .list ∧ t.reqs = s.reqs ∧ t.workers = s.workers ∧
      ((∃ items, r = some items ∧ t.disp = .relock items) ∨ t.disp = .idle) := by
  simp only [step] at h
  split at h
  · next hd => cases h; exact ⟨hd, rfl, rfl, .inl ⟨_, rfl, rfl⟩⟩
  · next hd => cases h; exact ⟨hd, rfl, rfl, .inr rfl⟩
  · cases h

theorem step_relock (h : step s .relock = some t) :
    ∃ items, s.disp = .relock items ∧ t = { s with disp := .loop items items } := by
  simp only [step] at h
  split at h
  · next items hd => cases h; exact ⟨items, hd, rfl⟩
  · cases h

theorem step_pick {w : Nat} (h : step s (.pick w) = some t) :
    ∃ items item rest, s.disp = .loop items (item :: rest) ∧ eligible items item = true ∧
      w ∈ s.workers ∧ s.fits item w = true ∧ t = { s with disp := .send items rest item w } := by
  simp only [step] at h
  split at h
  · next items item rest hd =>
    split at h
    · next hc =>
      simp only [Bool.and_eq_true, List.elem_iff, List.contains] at hc
      cases h; exact ⟨items, item, rest, hd, hc.1.1, hc.1.2, hc.2, rfl⟩
    · cases h
  · cases h

theorem step_skip (h : step s .skip = some t) :
    ∃ items item rest, s.disp = .loop items (item :: rest) ∧
      (eligible items item = true → ∀ i ∈ s.workers, s.fits item i = false) ∧
      t = { s with disp := .loop items rest } := by
  simp only [step] at h
  split at h
  · next items item rest hd =>
    split at h
    · next hc =>
      cases h
      refine ⟨items, item, rest, hd, fun he i hi => ?_, rfl⟩
      simp only [he, Bool.not_true, Bool.false_or, Bool.not_eq_true', List.any_eq_false] at hc
      simpa using hc i hi
    · cases h
  · cases h

theorem step_deliver (h : step s .deliver = some t) :
    ∃ items rest item w v, s.disp = .send items rest item w ∧ s.reqs[w]? = some ⟨v, .wait⟩ ∧
      t = { s with workers := s.workers.erase w, reqs := s.reqs.set w ⟨v, .done (some item)⟩,
                   disp := .loop items rest } := by
  simp only [step] at h
  split at h
  · next items rest item w hd =>
    split at h
    · next v hr => cases h; exact ⟨items, rest, item, w, v, hd, hr, rfl⟩
    · cases h
  · cases h

theorem step_unlock (h : step s .unlock = some t) :
    ∃ items, s.disp = .loop items [] ∧ t = { s with disp := .idle } := by
  simp only [step] at h
  split at h
  · next items hd => cases h; exact ⟨items, hd, rfl⟩
  · cases h

end

/-! ## What one step does to each part of the state -/

def QAction.onReady : QAction → Nat → Nat
  | .schedule, n | .reqHint _, n => trySend n
  | .wake, n => n - 1
  | _, n => n

def QAction.onPaused : QAction → Bool → Bool
  | .pause, _ => true
  | .resume, _ => false
  | _, b => b

def Disp.inPass : Disp → Bool
  | .list | .relock _ | .loop .. | .send .. => true
  | _ => false

theorem ready_step {s t : QState} {a : QAction} (hs : step s a = some t) :
    t.ready = a.onReady s.ready := by
  cases a <;> simp only [step] at hs <;> (try split at hs) <;> (try split at hs) <;> cases hs <;> rfl

theorem paused_step {s t : QState} {a : QAction} (hs : step s a = some t) :
    t.paused = a.onPaused s.paused := by
  cases a <;> simp only [step] at hs <;> (try split at hs) <;> (try split at hs) <;> cases hs <;> rfl

theorem inPass_of_step {s t : QState} {a : QAction} (hs : step s a = some t) (ha : a ≠ .check)
    (ht : t.disp.inPass = true) : s.disp.inPass = true := by
  cases a with
  | check => exact absurd rfl ha
  | schedule => cases hs; exact ht
  | request _ | reqHint _ | reqCancel _ | reqDelete _ | pause | resume =>
    simp only [step] at hs; (try split at hs) <;> (try split at hs) <;> (cases hs; try exact ht)
  | _ =>
    simp only [step] at hs; split at hs <;> (try split at hs) <;> cases hs <;> simp_all [Disp.inPass]

theorem step_check {s t : QState} (hs : step s .check = some t) :
    s.disp = .check ∧ t = { s with disp := if s.paused || s.workers.isEmpty then .idle else .list } := by
  simp only [step] at hs; split at hs
  · rename_i h; cases hs; exact ⟨h, rfl⟩
  · cases hs

theorem inPass_of_deliver {s t : QState} (hs : step s .deliver = some t) : s.disp.inPass = true := by
  simp only [step] at hs; split at hs
  · simp_all [Disp.inPass]
  · cases hs

end Drone

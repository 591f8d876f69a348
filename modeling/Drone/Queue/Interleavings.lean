import Drone.Queue.Machine

/-!
# Three properties of the queue over all interleavings

`signal` keeps the mutex while it sends on an unbuffered worker channel, and a
`Request` whose context fires needs that mutex to leave: `cancelled_request_deadlock`
reaches the state where each waits for the other, and no later step of any process
undoes it. `signal` reads `q.paused` once per pass, before `ListIncomplete`:
`handoff_paused_after_check` says a hand-off while the queue is paused comes from a
pass that a `Pause` overtook. `ready_token_kept` is the wake-up buffer's invariant.
-/

namespace Drone

def linuxFilter : Filter := ⟨"linux", "amd64", "", "", ∅⟩

def passOpening : List QAction :=
  [.request linuxFilter, .reqHint 0, .wake, .check, .list (some [linuxStage]), .relock]

/-! ## The dispatcher and a cancelled `Request` wait on each other -/

/-- The dispatcher holds the mutex, blocked on the hand-off to worker `w`, whose
`Request` has taken `ctx.Done()` and waits for the mutex to delete itself. -/
def DeadlockedOn (w : Nat) (s : QState) : Prop :=
  (∃ items rest item, s.disp = .send items rest item w) ∧ ∃ v, s.reqs[w]? = some ⟨v, .cancelling⟩

/-- No step of any process leaves the deadlock: the send needs `w` in its select and
every other way forward needs the mutex. -/
theorem deadlockedOn_step {w : Nat} {s t : QState} {a : QAction} (h : DeadlockedOn w s)
    (hs : step s a = some t) : DeadlockedOn w t := by
  obtain ⟨⟨items, rest, item, hd⟩, v, hv⟩ := h
  have hl : s.disp.holdsLock = true := by rw [hd]; rfl
  cases a with
  | reqHint i | reqCancel i =>
    simp only [step] at hs
    split at hs
    · rename_i w' hi
      have hne : i ≠ w := by rintro rfl; simp [hv] at hi
      cases hs
      exact ⟨⟨items, rest, item, hd⟩, v, by simp [List.getElem?_set_ne hne, hv]⟩
    · cases hs
  | schedule => cases hs; exact ⟨⟨items, rest, item, hd⟩, v, hv⟩
  | deliver => simp [step, hd, hv] at hs
  | request _ | pause | resume => simp [step, hl] at hs
  | reqDelete i => simp only [step, hl] at hs; split at hs <;> simp at hs
  | _ => simp [step, hd] at hs

theorem deadlockedOn_run {w : Nat} {s t : QState} {acts : List QAction} (h : DeadlockedOn w s)
    (hr : run s acts = some t) : DeadlockedOn w t := by
  induction acts generalizing s with
  | nil => cases hr; exact h
  | cons a acts ih =>
    obtain ⟨u, hu, hr⟩ := run_cons.1 hr
    exact ih (deadlockedOn_step h hu) hr

/-- A worker registers and hints; the dispatcher wakes, checks, lists one matching
stage and re-takes the mutex; the worker's context fires; the loop reaches the
worker. -/
def deadlockRun : List QAction :=
  [.request linuxFilter, .reqHint 0, .wake, .check, .list (some [linuxStage]), .relock,
   .reqCancel 0, .pick 0]

theorem cancelled_request_deadlock :
    ∃ s, run QState.init deadlockRun = some s ∧ DeadlockedOn 0 s ∧
      ∀ acts t, run s acts = some t → DeadlockedOn 0 t := by
  obtain ⟨s, hr, hd⟩ : ∃ s, run QState.init deadlockRun = some s ∧ DeadlockedOn 0 s :=
    ⟨_, rfl, ⟨_, _, _, rfl⟩, _, rfl⟩
  exact ⟨s, hr, hd, fun _ _ h => deadlockedOn_run hd h⟩

/-! ## Pause and a pass in flight -/

theorem notInPass_run {s t : QState} {acts : List QAction} (h : run s acts = some t)
    (hc : QAction.check ∉ acts) (hs : s.disp.inPass = false) : t.disp.inPass = false := by
  induction acts generalizing s with
  | nil => cases h; exact hs
  | cons a acts ih =>
    obtain ⟨u, hu, hr⟩ := run_cons.1 h
    have hu' : u.disp.inPass = false := by
      cases hp : u.disp.inPass
      · rfl
      · simpa [hs] using inPass_of_step hu (fun e => hc (e ▸ List.mem_cons_self _ _)) hp
    exact ih hr (fun hm => hc (List.mem_cons_of_mem _ hm)) hu'

theorem paused_run {s t : QState} {acts : List QAction} (h : run s acts = some t)
    (hc : QAction.pause ∉ acts) (hp : s.paused = false) : t.paused = false := by
  induction acts generalizing s with
  | nil => cases h; exact hp
  | cons a acts ih =>
    obtain ⟨u, hu, hr⟩ := run_cons.1 h
    refine ih hr (fun hm => hc (List.mem_cons_of_mem _ hm)) ?_
    rw [paused_step hu]
    cases a <;> first | exact absurd (List.mem_cons_self _ _) hc | exact hp | rfl

theorem run_last_check {s t : QState} {acts : List QAction} (h : run s acts = some t)
    (ht : t.disp.inPass = true) :
    (QAction.check ∉ acts ∧ s.disp.inPass = true) ∨
      ∃ pre mid u₀ u₁, acts = pre ++ .check :: mid ∧ QAction.check ∉ mid ∧
        run s pre = some u₀ ∧ step u₀ .check = some u₁ ∧ run u₁ mid = some t := by
  induction acts generalizing s with
  | nil => cases h; exact .inl ⟨List.not_mem_nil _, ht⟩
  | cons a acts ih =>
    obtain ⟨u, hu, hr⟩ := run_cons.1 h
    rcases ih hr with ⟨hc, hin⟩ | ⟨pre, mid, u₀, u₁, rfl, hc, h₀, h₁, h₂⟩
    · by_cases ha : a = .check
      · subst ha; exact .inr ⟨[], acts, s, u, rfl, hc, rfl, hu, hr⟩
      · exact .inl ⟨by simp [Ne.symm ha, hc], inPass_of_step hu ha hin⟩
    · exact .inr ⟨a :: pre, mid, u₀, u₁, rfl, hc, run_cons.2 ⟨u, hu, h₀⟩, h₁, h₂⟩

/-- Worker and dispatcher as in `deadlockRun`, but `Pause` runs while `signal` is in
`ListIncomplete`; the hand-off is then enabled with the queue paused. -/
def pausedRun : List QAction :=
  [.request linuxFilter, .reqHint 0, .wake, .check, .list (some [linuxStage]), .pause,
   .relock, .pick 0]

theorem handoff_while_paused :
    ∃ s t, run QState.init pausedRun = some s ∧ s.paused = true ∧ step s .deliver = some t :=
  ⟨_, _, rfl, rfl, rfl⟩

/-- Every hand-off made while `q.paused` is set belongs to a pass during which, after
its check of the flag, a `Pause` call completed. -/
theorem handoff_paused_after_check {acts : List QAction} {s t : QState}
    (hrun : run QState.init acts = some s) (hd : step s .deliver = some t) (hp : s.paused = true) :
    ∃ pre mid, acts = pre ++ .check :: mid ∧ QAction.check ∉ mid ∧ QAction.pause ∈ mid := by
  rcases run_last_check hrun (inPass_of_deliver hd) with ⟨-, h⟩ | ⟨pre, mid, u₀, u₁, rfl, hc, -, h₁, h₂⟩
  · exact absurd h (by decide)
  obtain ⟨-, rfl⟩ := step_check h₁
  refine ⟨pre, mid, rfl, hc, ?_⟩
  by_contra hm
  cases hu : u₀.paused
  · simpa [hp] using paused_run h₂ hm hu
  · have := notInPass_run h₂ hc (by simp [hu, Disp.inPass])
    simp [inPass_of_deliver hd] at this

theorem pausedRun_pause_after_check :
    ∃ pre mid, pausedRun = pre ++ .check :: mid ∧ QAction.check ∉ mid ∧ QAction.pause ∈ mid :=
  handoff_paused_after_check rfl rfl rfl

/-! ## The wake-up buffer -/

def QAction.sendsReady : QAction → Bool
  | .schedule | .reqHint _ => true
  | _ => false

theorem trySend_le {n : Nat} (h : n ≤ readyCap) : trySend n ≤ readyCap := by
  unfold trySend readyCap at *; split <;> omega

theorem trySend_full {n : Nat} (h : n ≤ readyCap) : trySend n = readyCap := by
  unfold trySend readyCap at *; split <;> omega

theorem onReady_le {a : QAction} {n : Nat} (h : n ≤ readyCap) : a.onReady n ≤ readyCap := by
  cases a <;> simp only [QAction.onReady] <;> first | exact trySend_le h | omega

theorem onReady_full {a : QAction} {n : Nat} (ha : a ≠ .wake) (h : n = readyCap) :
    a.onReady n = readyCap := by
  cases a <;> simp only [QAction.onReady] <;>
    first | exact trySend_full h.le | exact absurd rfl ha | exact h

theorem onReady_send {a : QAction} {n : Nat} (ha : a.sendsReady = true) (h : n ≤ readyCap) :
    a.onReady n = readyCap := by
  cases a <;> simp only [QAction.sendsReady, QAction.onReady] at ha ⊢ <;>
    first | exact trySend_full h | cases ha

theorem ready_le_run {s t : QState} {acts : List QAction} (h : run s acts = some t)
    (hs : s.ready ≤ readyCap) : t.ready ≤ readyCap := by
  induction acts generalizing s with
  | nil => cases h; exact hs
  | cons a acts ih =>
    obtain ⟨u, hu, hr⟩ := run_cons.1 h
    exact ih hr (ready_step hu ▸ onReady_le hs)

theorem ready_full_run {s t : QState} {acts : List QAction} (h : run s acts = some t)
    (hw : QAction.wake ∉ acts) (hs : s.ready = readyCap) : t.ready = readyCap := by
  induction acts generalizing s with
  | nil => cases h; exact hs
  | cons a acts ih =>
    obtain ⟨u, hu, hr⟩ := run_cons.1 h
    exact ih hr (fun hm => hw (List.mem_cons_of_mem _ hm))
      (ready_step hu ▸ onReady_full (fun e => hw (e ▸ List.mem_cons_self _ _)) hs)

/-- `q.ready` never holds more than one token, and a send made after the dispatcher's
last receive leaves one there. -/
theorem ready_token_kept :
    (∀ s, Reachable s → s.ready ≤ 1) ∧
      ∀ pre a post s, run QState.init (pre ++ a :: post) = some s → a.sendsReady = true →
        QAction.wake ∉ post → s.ready = 1 := by
  refine ⟨fun s ⟨acts, h⟩ => ready_le_run h (Nat.zero_le _), fun pre a post s h ha hw => ?_⟩
  rw [run_append] at h
  obtain ⟨u, hu, h'⟩ := Option.bind_eq_some.1 h
  obtain ⟨v, hv, hr⟩ := run_cons.1 h'
  exact ready_full_run hr hw (ready_step hv ▸ onReady_send ha (ready_le_run hu (Nat.zero_le _)))

theorem ready_token_kept_schedule_in_pass :
    ∃ s, run QState.init (passOpening ++ QAction.schedule :: [.pick 0, .deliver, .unlock]) = some s ∧
      s.ready ≤ 1 ∧ QAction.schedule.sendsReady = true ∧ QAction.wake ∉ [QAction.pick 0, .deliver, .unlock] ∧
      s.ready = 1 :=
  ⟨_, rfl, ready_token_kept.1 _ ⟨passOpening ++ QAction.schedule :: [.pick 0, .deliver, .unlock], rfl⟩, rfl,
    by simp, ready_token_kept.2 passOpening .schedule [.pick 0, .deliver, .unlock] _ rfl rfl (by simp)⟩

end Drone

import Drone.Queue.Interleavings
import Mathlib.Data.List.Nodup

/-!
# What a `Request` call gets

`signal` sends an item to a worker only after the item passed the filters against the
pass's snapshot and the worker's platform matched it, and a `Request` call leaves
`q.workers` when it returns. Both hold along every interleaving: the map holds exactly
the calls that have not returned, each once (`workers_pending`), and every stage a call
returns fits its worker and passed the filters against the `ListIncomplete` answer that
began the pass that sent it, which the run itself names (`request_result_sound`).
-/

namespace Drone

def ReqPc.returned : ReqPc → Bool
  | .done _ => true
  | _ => false

structure CallsInv (s : QState) : Prop where
  workers : ∀ i : Nat, i ∈ s.workers ↔ ∃ r : Req, s.reqs[i]? = some r ∧ r.pc.returned = false
  nodup : s.workers.Nodup
  ids : ∀ (i : Nat) (r : Req), s.reqs[i]? = some r → r.worker.id = i

structure PassInv (s : QState) : Prop where
  loop : ∀ items rest, s.disp = .loop items rest → rest <:+ items
  send : ∀ items rest item w, s.disp = .send items rest item w →
    item :: rest <:+ items ∧ eligible items item = true ∧ s.fits item w = true

structure QInv (s : QState) extends CallsInv s, PassInv s : Prop

section
variable {s t : QState}

theorem QState.fits_of_set {i : Nat} {w : Worker} {pc pc' : ReqPc} (hr : s.reqs[i]? = some ⟨w, pc⟩)
    (ht : t.reqs = s.reqs.set i ⟨w, pc'⟩) (item : Stage) (j : Nat) : t.fits item j = s.fits item j := by
  unfold QState.fits
  rw [ht]
  by_cases e : i = j
  · subst e
    rw [List.getElem?_set_eq_of_lt _ (List.getElem?_eq_some_iff.1 hr).1, hr]
  · rw [List.getElem?_set_ne e]

theorem CallsInv.congr (hc : CallsInv s) (hr : t.reqs = s.reqs) (hw : t.workers = s.workers) : CallsInv t :=
  ⟨by rw [hw, hr]; exact hc.workers, hw ▸ hc.nodup, by rw [hr]; exact hc.ids⟩

theorem CallsInv.request (hc : CallsInv s) (f : Filter) :
    CallsInv { s with reqs := s.reqs ++ [⟨⟨s.reqs.length, f.os, f.arch, f.kernel, f.variant, f.labels⟩, .hint⟩],
                      workers := s.workers ++ [s.reqs.length] } := by
  have fresh : s.reqs.length ∉ s.workers := fun hn => by
    obtain ⟨r, hr, -⟩ := (hc.workers _).1 hn
    exact absurd (List.getElem?_eq_some_iff.1 hr).1 (lt_irrefl _)
  refine ⟨fun i => ?_, List.nodup_append.2 ⟨hc.nodup, List.nodup_singleton _, fun j hj hj' => ?_⟩,
    fun i r hr => ?_⟩
  · simp only [List.mem_append, List.mem_singleton, hc.workers]
    constructor
    · rintro (⟨r, hr, hp⟩ | rfl)
      · exact ⟨r, by rw [List.getElem?_append_left (List.getElem?_eq_some_iff.1 hr).1, hr], hp⟩
      · exact ⟨_, List.getElem?_concat_length _ _, rfl⟩
    · rintro ⟨r, hr, hp⟩
      rcases getElem?_concat_some hr with hr | ⟨rfl, -⟩
      · exact .inl ⟨r, hr, hp⟩
      · exact .inr rfl
  · rw [List.mem_singleton.1 hj'] at hj
    exact fresh hj
  · rcases getElem?_concat_some hr with hr | ⟨rfl, rfl⟩
    · exact hc.ids i r hr
    · rfl

theorem CallsInv.set_pending (hc : CallsInv s) {i : Nat} {w : Worker} {pc pc' : ReqPc}
    (hr : s.reqs[i]? = some ⟨w, pc⟩) (hpc : pc.returned = false) (hpc' : pc'.returned = false)
    (ht : t.reqs = s.reqs.set i ⟨w, pc'⟩) (hw : t.workers = s.workers) : CallsInv t := by
  refine ⟨fun j => ?_, hw ▸ hc.nodup, fun j r hj => ?_⟩
  · rw [hw, hc.workers, ht]
    by_cases e : i = j
    · subst e
      rw [List.getElem?_set_eq_of_lt _ (List.getElem?_eq_some_iff.1 hr).1, hr]
      exact ⟨fun _ => ⟨_, rfl, hpc'⟩, fun _ => ⟨_, rfl, hpc⟩⟩
    · rw [List.getElem?_set_ne e]
  · rw [ht] at hj
    rcases getElem?_set_some hr hj with ⟨rfl, rfl⟩ | ⟨-, hj⟩
    · exact hc.ids j ⟨w, pc⟩ hr
    · exact hc.ids j r hj

theorem CallsInv.set_done (hc : CallsInv s) {i : Nat} {w : Worker} {pc : ReqPc} {got : Option Stage}
    (hr : s.reqs[i]? = some ⟨w, pc⟩) (ht : t.reqs = s.reqs.set i ⟨w, .done got⟩)
    (hw : t.workers = s.workers.erase i) : CallsInv t := by
  refine ⟨fun j => ?_, hw ▸ hc.nodup.erase i, fun j r hj => ?_⟩
  · rw [hw, hc.nodup.mem_erase_iff, hc.workers, ht]
    by_cases e : i = j
    · subst e
      rw [List.getElem?_set_eq_of_lt _ (List.getElem?_eq_some_iff.1 hr).1]
      simp [ReqPc.returned]
    · rw [List.getElem?_set_ne e]
      exact ⟨fun h => h.2, fun h => ⟨Ne.symm e, h⟩⟩
  · rw [ht] at hj
    rcases getElem?_set_some hr hj with ⟨rfl, rfl⟩ | ⟨-, hj⟩
    · exact hc.ids j ⟨w, pc⟩ hr
    · exact hc.ids j r hj

theorem PassInv.of_idle (hd : t.disp.holdsLock = false) : PassInv t :=
  ⟨fun _ _ e => (by rw [e] at hd; cases hd), fun _ _ _ _ e => (by rw [e] at hd; cases hd)⟩

theorem PassInv.congr (hp : PassInv s) (hd : t.disp = s.disp) (hf : ∀ item j, t.fits item j = s.fits item j) :
    PassInv t :=
  ⟨fun items rest e => hp.loop items rest (hd ▸ e), fun items rest item w e => by
    rw [hf]; exact hp.send items rest item w (hd ▸ e)⟩

theorem QInv.step {a : QAction} (hi : QInv s) (h : step s a = some t) : QInv t := by
  cases a with
  | request f =>
    obtain ⟨hl, rfl⟩ := step_request h
    exact ⟨hi.request f, .of_idle hl⟩
  | reqHint i =>
    obtain ⟨w, hr, rfl⟩ := step_reqHint h
    exact ⟨hi.set_pending hr (by rfl) (by rfl) rfl rfl, hi.toPassInv.congr rfl (QState.fits_of_set hr rfl)⟩
  | reqCancel i =>
    obtain ⟨w, hr, rfl⟩ := step_reqCancel h
    exact ⟨hi.set_pending hr (by rfl) (by rfl) rfl rfl, hi.toPassInv.congr rfl (QState.fits_of_set hr rfl)⟩
  | reqDelete i =>
    obtain ⟨w, hr, hl, rfl⟩ := step_reqDelete h
    exact ⟨hi.set_done hr rfl rfl, .of_idle hl⟩
  | schedule | pause | resume | wake | tick | check =>
    obtain ⟨hr, hw, hd⟩ := step_frame h (by simp)
    refine ⟨hi.congr hr hw, ?_⟩
    rcases hd with hd | hd
    · exact hi.toPassInv.congr hd fun _ _ => by unfold QState.fits; rw [hr]
    · exact .of_idle hd
  | list r =>
    obtain ⟨-, hr, hw, hd⟩ := step_list h
    refine ⟨hi.congr hr hw, .of_idle ?_⟩
    rcases hd with ⟨items, -, hd⟩ | hd <;> rw [hd] <;> rfl
  | relock =>
    obtain ⟨items, -, rfl⟩ := step_relock h
    exact ⟨hi.congr rfl rfl, fun _ _ e => (by cases e; exact List.suffix_refl _), fun _ _ _ _ e => (by cases e)⟩
  | pick w =>
    obtain ⟨items, item, rest, hd, he, -, hf, rfl⟩ := step_pick h
    refine ⟨hi.congr rfl rfl, fun _ _ e => (by cases e), fun _ _ _ _ e => ?_⟩
    cases e
    exact ⟨hi.loop items _ hd, he, hf⟩
  | skip =>
    obtain ⟨items, item, rest, hd, -, rfl⟩ := step_skip h
    refine ⟨hi.congr rfl rfl, fun _ _ e => ?_, fun _ _ _ _ e => (by cases e)⟩
    cases e
    exact (List.suffix_cons _ _).trans (hi.loop items _ hd)
  | deliver =>
    obtain ⟨items, rest, item, w, v, hd, hr, rfl⟩ := step_deliver h
    refine ⟨hi.set_done hr rfl rfl, fun _ _ e => ?_, fun _ _ _ _ e => (by cases e)⟩
    cases e
    exact (List.suffix_cons _ _).trans (hi.send items rest item w hd).1
  | unlock =>
    obtain ⟨items, -, rfl⟩ := step_unlock h
    exact ⟨hi.congr rfl rfl, .of_idle rfl⟩

theorem QInv.run {acts : List QAction} (hi : QInv s) (h : run s acts = some t) : QInv t := by
  induction acts generalizing s with
  | nil => cases h; exact hi
  | cons a acts ih =>
    obtain ⟨u, hu, hr⟩ := run_cons.1 h
    exact ih (hi.step hu) hr

end

theorem QInv.init : QInv QState.init :=
  ⟨⟨by simp [QState.init], .nil, by simp [QState.init]⟩, .of_idle rfl⟩

/-- In every reachable state `q.workers` holds exactly the `Request` calls that have not
returned, each once. -/
theorem workers_pending {s : QState} (h : Reachable s) :
    s.workers.Nodup ∧ ∀ i : Nat, i ∈ s.workers ↔ ∃ r : Req, s.reqs[i]? = some r ∧ r.pc.returned = false :=
  let ⟨_, hr⟩ := h
  let hi := QInv.init.run hr
  ⟨hi.nodup, hi.workers⟩

/-! ## The pass that sent a stage -/

def Disp.snapshot : Disp → Option (List Stage)
  | .relock items | .loop items _ | .send items _ _ _ => some items
  | _ => none

theorem snapshot_step {s t : QState} {a : QAction} (h : step s a = some t) {items : List Stage}
    (ht : t.disp.snapshot = some items) :
    a = .list (some items) ∨ (∀ o, a ≠ .list o) ∧ s.disp.snapshot = some items := by
  cases a <;> simp only [step] at h <;> (repeat' split at h) <;> cases h <;> simp_all [Disp.snapshot]

theorem snapshot_listed {acts : List QAction} :
    ∀ {s : QState}, run QState.init acts = some s → ∀ {items : List Stage}, s.disp.snapshot = some items →
      ∃ pre mid, acts = pre ++ .list (some items) :: mid ∧ ∀ o, QAction.list o ∉ mid := by
  induction acts using List.reverseRecOn with
  | nil => intro s h items hs; cases h; cases hs
  | append_singleton acts a ih =>
    intro s h items hs
    obtain ⟨u, hu, h⟩ := run_snoc.1 h
    rcases snapshot_step h hs with rfl | ⟨ha, hu'⟩
    · exact ⟨acts, [], by simp, by simp⟩
    · obtain ⟨pre, mid, rfl, hmid⟩ := ih hu hu'
      exact ⟨pre, mid ++ [a], by simp, fun o ho =>
        (List.mem_append.1 ho).elim (hmid o) fun ho => ha o (List.mem_singleton.1 ho).symm⟩

theorem got_step {s t : QState} {a : QAction} (h : step s a = some t) {i : Nat} {r : Req} {st : Stage}
    (hr : t.reqs[i]? = some r) (hd : r.pc = .done (some st)) :
    s.reqs[i]? = some r ∨ a = .deliver ∧ (∃ items rest, s.disp = .send items rest st i) ∧
      s.reqs[i]? = some ⟨r.worker, .wait⟩ := by
  -- a step that rewrites call `j` to a state other than the stage keeps `i`'s entry
  have other : ∀ {j w} {c : Req}, s.reqs[j]? = some w → t.reqs = s.reqs.set j c →
      (c.pc = .done (some st) → False) → s.reqs[i]? = some r := fun hw ht hc => by
    rw [ht] at hr
    rcases getElem?_set_some hw hr with ⟨-, rfl⟩ | ⟨-, hr⟩
    · exact (hc hd).elim
    · exact hr
  cases a with
  | request f =>
    obtain ⟨-, rfl⟩ := step_request h
    rcases getElem?_concat_some hr with hr | ⟨-, rfl⟩
    · exact .inl hr
    · cases hd
  | reqHint i' =>
    obtain ⟨w, hw, rfl⟩ := step_reqHint h
    exact .inl (other hw rfl nofun)
  | reqCancel i' =>
    obtain ⟨w, hw, rfl⟩ := step_reqCancel h
    exact .inl (other hw rfl nofun)
  | reqDelete i' =>
    obtain ⟨w, hw, -, rfl⟩ := step_reqDelete h
    exact .inl (other hw rfl nofun)
  | schedule | pause | resume | wake | tick | check =>
    exact .inl ((step_frame h (by simp)).1 ▸ hr)
  | list o => exact .inl ((step_list h).2.1 ▸ hr)
  | relock => obtain ⟨_, -, rfl⟩ := step_relock h; exact .inl hr
  | pick w => obtain ⟨_, _, _, -, -, -, -, rfl⟩ := step_pick h; exact .inl hr
  | skip => obtain ⟨_, _, _, -, -, rfl⟩ := step_skip h; exact .inl hr
  | unlock => obtain ⟨_, -, rfl⟩ := step_unlock h; exact .inl hr
  | deliver =>
    obtain ⟨items, rest, item, w, v, hdisp, hw, rfl⟩ := step_deliver h
    rcases getElem?_set_some hw hr with ⟨rfl, rfl⟩ | ⟨-, hr⟩
    · cases hd
      exact .inr ⟨rfl, ⟨items, rest, hdisp⟩, hw⟩
    · exact .inl hr

/-- In the run `acts`, call `i` received `st` from the pass over `items`: the pass began
with `ListIncomplete` answering `items`, no pass has listed since, and the pass was
sending `st` to call `i` when the `deliver` met the call's receive. -/
def SentIn (acts : List QAction) (i : Nat) (st : Stage) (items : List Stage) : Prop :=
  ∃ pre mid post, acts = pre ++ .list (some items) :: mid ++ .deliver :: post ∧ (∀ o, QAction.list o ∉ mid) ∧
    ∃ u rest, run QState.init (pre ++ .list (some items) :: mid) = some u ∧ u.disp = .send items rest st i

theorem SentIn.snoc {acts : List QAction} {i : Nat} {st : Stage} {items : List Stage}
    (h : SentIn acts i st items) (a : QAction) : SentIn (acts ++ [a]) i st items := by
  obtain ⟨pre, mid, post, rfl, hmid, hu⟩ := h
  exact ⟨pre, mid, post ++ [a], by simp, hmid, hu⟩

/-- Every stage a `Request` call returns, in every interleaving of the queue's
goroutines, fits the call's worker and passed the filters against the `ListIncomplete`
answer that began the pass that sent it. -/
theorem request_result_sound {acts : List QAction} {s : QState} (h : run QState.init acts = some s)
    {i : Nat} {r : Req} {st : Stage} (hr : s.reqs[i]? = some r) (hd : r.pc = .done (some st)) :
    Fits r.worker st ∧ ∃ items, SentIn acts i st items ∧ st ∈ items ∧ Eligible items st := by
  induction acts using List.reverseRecOn generalizing s r with
  | nil => cases h; cases hr
  | append_singleton acts a ih =>
    obtain ⟨u, hu, hs⟩ := run_snoc.1 h
    rcases got_step hs hr hd with hr' | ⟨rfl, ⟨items, rest, hdisp⟩, hw⟩
    · obtain ⟨hf, items, hsent, hmem, he⟩ := ih hu hr' hd
      exact ⟨hf, items, hsent.snoc a, hmem, he⟩
    · -- the `deliver` that returned the stage: the pass in flight checked it
      obtain ⟨hsuf, he, hfits⟩ := (QInv.init.run hu).send items rest st i hdisp
      obtain ⟨pre, mid, rfl, hmid⟩ := snapshot_listed hu (by rw [hdisp]; rfl)
      have hm : platformMatch r.worker st = true := by
        unfold QState.fits at hfits
        rwa [hw] at hfits
      exact ⟨(platformMatch_iff _ _).1 hm, items, ⟨pre, mid, [], by simp, hmid, u, rest, hu, hdisp⟩,
        hsuf.subset (List.mem_cons_self _ _), (eligible_iff _ _).1 he⟩

def serveRun : List QAction :=
  [.request linuxFilter, .reqHint 0, .wake, .check, .list (some [linuxStage]), .relock, .pick 0,
   .deliver, .unlock]

theorem workers_pending_served :
    Reachable ((run QState.init serveRun).getD QState.init) ∧
      ((run QState.init serveRun).getD QState.init).workers.Nodup ∧
      ∀ i : Nat, i ∈ ((run QState.init serveRun).getD QState.init).workers ↔
        ∃ r : Req, ((run QState.init serveRun).getD QState.init).reqs[i]? = some r ∧ r.pc.returned = false :=
  ⟨⟨serveRun, rfl⟩, workers_pending ⟨serveRun, rfl⟩⟩

theorem request_result_sound_served :
    run QState.init serveRun = some ((run QState.init serveRun).getD QState.init) ∧
      ((run QState.init serveRun).getD QState.init).reqs[0]? = some ⟨linuxWorker, .done (some linuxStage)⟩ ∧
      Fits linuxWorker linuxStage ∧
      ∃ items, SentIn serveRun 0 linuxStage items ∧ linuxStage ∈ items ∧ Eligible items linuxStage :=
  ⟨rfl, rfl, @request_result_sound serveRun _ rfl 0 ⟨linuxWorker, .done (some linuxStage)⟩ linuxStage rfl rfl⟩

end Drone

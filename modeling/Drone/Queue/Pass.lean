import Drone.Queue.Delivery
import Drone.Queue.Filters

/-!
# A pass is a greedy matching

While `signal` is in its loop it holds the mutex, so no `Request` joins or leaves
`q.workers` but by a hand-off, and the other goroutines can only hint, cancel or
schedule. `pass_greedy` says what a whole pass does, whatever interleaves with it: it
hands out a greedy matching (`Greedy`, which `signalLoop` computes) of its snapshot
against the workers waiting when it began, leaves the rest waiting, and each pair it
hands out is a call that returned that stage. Both are about passes that reach their
unlock: a cancelled `Request` can keep a pass from it for ever.
-/

namespace Drone

/-- The workers waiting in `q.workers`, in the map's order. -/
def QState.waiting (s : QState) : List Worker :=
  s.workers.filterMap fun i => (s.reqs[i]?).map Req.worker

def QState.Handed (s : QState) (hs : List (Stage × Worker)) : Prop :=
  ∀ p ∈ hs, s.reqs[p.2.id]? = some ⟨p.2, .done (some p.1)⟩

theorem Greedy.append {items l₁ l₂ : List Stage} {ws ws₁ ws₂ : List Worker} {hs₁ hs₂ : List (Stage × Worker)}
    (h₁ : Greedy items l₁ ws hs₁ ws₁) (h₂ : Greedy items l₂ ws₁ hs₂ ws₂) :
    Greedy items (l₁ ++ l₂) ws (hs₁ ++ hs₂) ws₂ := by
  induction h₁ with
  | nil => exact h₂
  | skip he _ ih => exact .skip he (ih h₂)
  | unmatched he hn _ ih => exact .unmatched he hn (ih h₂)
  | serve he hw hf _ ih => exact .serve he hw hf (ih h₂)

section
variable {s t : QState}

theorem QState.mem_waiting {v : Worker} : v ∈ s.waiting ↔ ∃ i ∈ s.workers, ∃ pc, s.reqs[i]? = some ⟨v, pc⟩ := by
  simp only [QState.waiting, List.mem_filterMap, Option.map_eq_some']
  constructor
  · rintro ⟨i, hi, ⟨v', pc⟩, hr, rfl⟩; exact ⟨i, hi, pc, hr⟩
  · rintro ⟨i, hi, pc, hr⟩; exact ⟨i, hi, _, hr, rfl⟩

theorem QState.waiting_of_set {i : Nat} {w : Worker} {pc pc' : ReqPc} (hr : s.reqs[i]? = some ⟨w, pc⟩)
    (ht : t.reqs = s.reqs.set i ⟨w, pc'⟩) (hw : t.workers = s.workers) : t.waiting = s.waiting := by
  unfold QState.waiting
  rw [hw]
  refine List.filterMap_congr fun j _ => ?_
  rw [ht]
  by_cases e : i = j
  · subst e
    rw [List.getElem?_set_eq_of_lt _ (List.getElem?_eq_some_iff.1 hr).1, hr]
    rfl
  · rw [List.getElem?_set_ne e]

theorem QState.waiting_deliver (hc : CallsInv s) {w : Nat} {v : Worker} {pc : ReqPc} {got : Option Stage}
    (hr : s.reqs[w]? = some ⟨v, pc⟩) (ht : t.reqs = s.reqs.set w ⟨v, .done got⟩)
    (hw : t.workers = s.workers.erase w) : t.waiting = removeWorker s.waiting v := by
  have hv : v.id = w := hc.ids w _ hr
  unfold QState.waiting removeWorker
  rw [hw, hc.nodup.erase_eq_filter, List.filterMap_filter, List.filter_filterMap, ht]
  refine List.filterMap_congr fun j _ => ?_
  by_cases e : w = j
  · subst e
    simp [hr, hv, Option.filter]
  · rw [List.getElem?_set_ne e]
    cases hj : s.reqs[j]? with
    | none => simp
    | some r => simp [hc.ids j r hj, hv, Ne.symm e, Option.filter]

theorem QState.handed_of_set {i : Nat} {w : Worker} {pc pc' : ReqPc} (hr : s.reqs[i]? = some ⟨w, pc⟩)
    (hpc : pc.returned = false) (ht : t.reqs = s.reqs.set i ⟨w, pc'⟩) {hs : List (Stage × Worker)}
    (hh : s.Handed hs) : t.Handed hs := fun p hp => by
  have hne : i ≠ p.2.id := fun e => by
    rw [e, hh p hp] at hr
    cases hr
    cases hpc
  rw [ht, List.getElem?_set_ne hne]
  exact hh p hp

end

def Walked (s₀ : QState) (items pre : List Stage) (u : QState) : Prop :=
  ∃ hs, Greedy items pre s₀.waiting hs u.waiting ∧ u.Handed hs

def PassSoFar (s₀ : QState) (items : List Stage) (u : QState) : Prop :=
  (∃ pre rest, u.disp = .loop items rest ∧ items = pre ++ rest ∧ Walked s₀ items pre u) ∨
  ∃ pre rest item w, u.disp = .send items rest item w ∧ items = pre ++ item :: rest ∧ Walked s₀ items pre u ∧
    Eligible items item ∧ w ∈ u.workers ∧ u.fits item w = true

section
variable {s₀ u u' : QState} {items : List Stage}

theorem PassSoFar.holdsLock (hp : PassSoFar s₀ items u) : u.disp.holdsLock = true := by
  rcases hp with ⟨_, _, hd, -⟩ | ⟨_, _, _, _, hd, -⟩ <;> rw [hd] <;> rfl

theorem PassSoFar.congr (hp : PassSoFar s₀ items u) (hd : u'.disp = u.disp) (hw : u'.workers = u.workers)
    (hwait : u'.waiting = u.waiting) (hf : ∀ item j, u'.fits item j = u.fits item j)
    (hh : ∀ hs, u.Handed hs → u'.Handed hs) : PassSoFar s₀ items u' := by
  have walked : ∀ {pre}, Walked s₀ items pre u → Walked s₀ items pre u' := fun ⟨hs, hg, hhs⟩ =>
    ⟨hs, hwait ▸ hg, hh hs hhs⟩
  rcases hp with ⟨pre, rest, e, hi, hwk⟩ | ⟨pre, rest, item, w, e, hi, hwk, he, hm, hfit⟩
  · exact .inl ⟨pre, rest, hd.trans e, hi, walked hwk⟩
  · exact .inr ⟨pre, rest, item, w, hd.trans e, hi, walked hwk, he, hw ▸ hm, (hf item w).trans hfit⟩

theorem PassSoFar.step {a : QAction} (hi : QInv u) (hp : PassSoFar s₀ items u) (h : step u a = some u')
    (ha : a ≠ .unlock) : PassSoFar s₀ items u' := by
  have hl := hp.holdsLock
  cases a with
  | request f =>
    rw [(step_request h).1] at hl
    cases hl
  | reqDelete i =>
    obtain ⟨-, -, hl', -⟩ := step_reqDelete h
    rw [hl] at hl'
    cases hl'
  | reqHint i =>
    obtain ⟨w, hr, rfl⟩ := step_reqHint h
    exact hp.congr rfl rfl (QState.waiting_of_set hr rfl rfl) (QState.fits_of_set hr rfl)
      fun _ => QState.handed_of_set hr rfl rfl
  | reqCancel i =>
    obtain ⟨w, hr, rfl⟩ := step_reqCancel h
    exact hp.congr rfl rfl (QState.waiting_of_set hr rfl rfl) (QState.fits_of_set hr rfl)
      fun _ => QState.handed_of_set hr rfl rfl
  | schedule =>
    cases h
    exact hp.congr rfl rfl rfl (fun _ _ => rfl) fun _ h => h
  | pick w =>
    obtain ⟨items', item, rest, hd, he, hw, hf, rfl⟩ := step_pick h
    rcases hp with ⟨pre, rest', hd', e, hwk⟩ | ⟨_, _, _, _, hd', -⟩ <;> rw [hd'] at hd <;> cases hd
    exact .inr ⟨pre, rest, item, w, rfl, e, hwk, (eligible_iff _ _).1 he, hw, hf⟩
  | skip =>
    obtain ⟨items', item, rest, hd, hno, rfl⟩ := step_skip h
    rcases hp with ⟨pre, rest', hd', e, hs, hg, hh⟩ | ⟨_, _, _, _, hd', -⟩ <;> rw [hd'] at hd <;> cases hd
    -- the item is filtered out, or no waiting worker fits it
    have hone : Greedy items [item] u.waiting [] u.waiting := by
      by_cases he : eligible items item = true
      · refine .unmatched ((eligible_iff _ _).1 he) (fun v hv hfit => ?_) (.nil _)
        obtain ⟨i, hi', pc, hr⟩ := QState.mem_waiting.1 hv
        have := hno he i hi'
        simp only [QState.fits, hr] at this
        exact absurd ((platformMatch_iff _ _).2 hfit) (by rw [this]; decide)
      · exact .skip (fun h => he ((eligible_iff _ _).2 h)) (.nil _)
    refine .inl ⟨pre ++ [item], rest, rfl, by simp [e], hs ++ [], ?_, by simpa using hh⟩
    exact hg.append hone
  | deliver =>
    obtain ⟨items', rest, item, w, v, hd, hr, ht⟩ := step_deliver h
    rcases hp with ⟨_, _, hd', -⟩ | ⟨pre, rest', item', w', hd', e, ⟨hs, hg, hh⟩, he, hw, hf⟩ <;>
      rw [hd'] at hd <;> cases hd
    have hv : v.id = w := hi.ids w _ hr
    -- the call the pass picked gets the item and leaves the waiting workers
    have hone : Greedy items [item] u.waiting [(item, v)] (removeWorker u.waiting v) := by
      refine .serve he (QState.mem_waiting.2 ⟨w, hw, _, hr⟩) ?_ (.nil _)
      rw [QState.fits, hr] at hf
      exact (platformMatch_iff _ _).1 hf
    have hwait := QState.waiting_deliver (t := u') hi.toCallsInv hr (by rw [ht]) (by rw [ht])
    refine .inl ⟨pre ++ [item], rest, by rw [ht], by simp [e], hs ++ [(item, v)], hwait ▸ hg.append hone,
      fun p hp => ?_⟩
    rcases List.mem_append.1 hp with hp | hp
    · exact QState.handed_of_set hr rfl (by rw [ht]) hh p hp
    · rw [List.mem_singleton.1 hp, ht]
      show (u.reqs.set w _)[v.id]? = _
      rw [hv, List.getElem?_set_eq_of_lt _ (List.getElem?_eq_some_iff.1 hr).1]
  | unlock => exact absurd rfl ha
  | _ =>
    rcases hp with ⟨_, _, hd, -⟩ | ⟨_, _, _, _, hd, -⟩ <;> simp [Drone.step, hd, Disp.holdsLock] at h

theorem PassSoFar.run {body : List QAction} (hi : QInv u) (hp : PassSoFar s₀ items u)
    (hb : .unlock ∉ body) (h : run u body = some u') : PassSoFar s₀ items u' := by
  induction body generalizing u with
  | nil => cases h; exact hp
  | cons a body ih =>
    obtain ⟨v, hv, hr⟩ := run_cons.1 h
    exact ih (hi.step hv) (hp.step hi hv fun e => hb (e ▸ List.mem_cons_self _ _))
      (fun hm => hb (List.mem_cons_of_mem _ hm)) hr

end

theorem pass_walked {s t : QState} (hs : Reachable s) {items : List Stage} (hd : s.disp = .loop items items)
    {body : List QAction} (hb : .unlock ∉ body) (hr : run s (body ++ [.unlock]) = some t) :
    Walked s items items t := by
  obtain ⟨acts, h0⟩ := hs
  rw [run_append] at hr
  obtain ⟨u, hu, hlast⟩ := Option.bind_eq_some.1 hr
  have hp := PassSoFar.run (QInv.init.run h0)
    (.inl ⟨[], items, hd, rfl, [], .nil _, fun _ h => by cases h⟩) hb hu
  obtain ⟨v, hv, hnil⟩ := run_cons.1 hlast
  cases hnil
  obtain ⟨items', hd', rfl⟩ := step_unlock hv
  rcases hp with ⟨pre, rest, hd'', e, hwk⟩ | ⟨_, _, _, _, hd'', -⟩ <;> rw [hd''] at hd' <;> cases hd'
  rw [List.append_nil] at e
  exact e ▸ hwk

/-- A pass of `signal` over its snapshot `items`, from just after it re-takes the mutex
to its unlock, whatever the other goroutines do meanwhile, hands out a greedy matching
of `items` against the workers waiting when it began, leaves the rest of them waiting,
and each pair it hands out is a call that returned that stage. -/
theorem pass_greedy {s t : QState} (hs : Reachable s) {items : List Stage} (hd : s.disp = .loop items items)
    {body : List QAction} (hb : .unlock ∉ body) (hr : run s (body ++ [.unlock]) = some t) :
    ∃ hs, Greedy items items s.waiting hs t.waiting ∧ t.Handed hs :=
  pass_walked hs hd hb hr

theorem pass_greedy_served :
    Reachable ((run QState.init passOpening).getD QState.init) ∧
      ((run QState.init passOpening).getD QState.init).disp = .loop [linuxStage] [linuxStage] ∧
      QAction.unlock ∉ [QAction.pick 0, .deliver] ∧
      run ((run QState.init passOpening).getD QState.init) ([.pick 0, .deliver] ++ [.unlock]) =
        some ((run QState.init (passOpening ++ [.pick 0, .deliver, .unlock])).getD QState.init) ∧
      ∃ hs, Greedy [linuxStage] [linuxStage] ((run QState.init passOpening).getD QState.init).waiting hs
          ((run QState.init (passOpening ++ [.pick 0, .deliver, .unlock])).getD QState.init).waiting ∧
        ((run QState.init (passOpening ++ [.pick 0, .deliver, .unlock])).getD QState.init).Handed hs :=
  ⟨⟨passOpening, rfl⟩, rfl, by simp, rfl,
    @pass_greedy _ _ ⟨passOpening, rfl⟩ [linuxStage] rfl [.pick 0, .deliver] (by simp) rfl⟩

/-- Every pass over a snapshot in id and build order that reaches its unlock, whatever
the other goroutines do meanwhile, serves its oldest stage, when that stage is not
running, has no machine and a limit that is not negative, if a worker that fits it was
waiting when the pass began: the `Request` call of a fitting worker returns it. A pass
need not reach its unlock: a call cancelled after the pass picked it blocks the send
(`cancelled_request_deadlock`). -/
theorem pass_serves_oldest {s t : QState} (hs : Reachable s) {first : Stage} {rest : List Stage}
    (hd : s.disp = .loop (first :: rest) (first :: rest))
    (hid : ((first :: rest).map Stage.id).Pairwise (· < ·))
    (hbid : ((first :: rest).map Stage.buildId).Pairwise (· ≤ ·))
    (hrun : first.status ≠ .running) (hm : first.machine = "") (hl : 0 ≤ first.limit)
    (hw : ∃ w ∈ s.waiting, Fits w first) {body : List QAction} (hb : .unlock ∉ body)
    (hr : run s (body ++ [.unlock]) = some t) :
    ∃ w ∈ s.waiting, Fits w first ∧ t.reqs[w.id]? = some ⟨w, .done (some first)⟩ := by
  obtain ⟨_, hg, hh⟩ := pass_walked hs hd hb hr
  have he : Eligible (first :: rest) first :=
    ⟨hrun, hm, withinBranchLimits_head first rest hbid, (withinLimits_head_iff first rest hid).2 hl⟩
  obtain ⟨w, hws, hfit, hhead⟩ := hg.head_served he hw
  exact ⟨w, hws, hfit, hh _ (List.mem_of_mem_head? hhead)⟩

theorem pass_serves_oldest_opening :
    Reachable ((run QState.init passOpening).getD QState.init) ∧
      ((run QState.init passOpening).getD QState.init).disp = .loop [linuxStage] [linuxStage] ∧
      ([linuxStage].map Stage.id).Pairwise (· < ·) ∧ ([linuxStage].map Stage.buildId).Pairwise (· ≤ ·) ∧
      linuxStage.status ≠ .running ∧ linuxStage.machine = "" ∧ 0 ≤ linuxStage.limit ∧
      (∃ w ∈ ((run QState.init passOpening).getD QState.init).waiting, Fits w linuxStage) ∧
      QAction.unlock ∉ [QAction.pick 0, .deliver] ∧
      run ((run QState.init passOpening).getD QState.init) ([.pick 0, .deliver] ++ [.unlock]) =
        some ((run QState.init (passOpening ++ [.pick 0, .deliver, .unlock])).getD QState.init) ∧
      ∃ w ∈ ((run QState.init passOpening).getD QState.init).waiting, Fits w linuxStage ∧
        ((run QState.init (passOpening ++ [.pick 0, .deliver, .unlock])).getD QState.init).reqs[w.id]? =
          some ⟨w, .done (some linuxStage)⟩ := by
  have hw : ∃ w ∈ ((run QState.init passOpening).getD QState.init).waiting, Fits w linuxStage :=
    ⟨linuxWorker, List.mem_singleton_self _, (platformMatch_iff _ _).1 rfl⟩
  refine ⟨⟨passOpening, rfl⟩, rfl, by decide, by decide, by decide, rfl, by decide, hw, by simp, rfl, ?_⟩
  exact @pass_serves_oldest _ _ ⟨passOpening, rfl⟩ linuxStage [] rfl (by decide) (by decide) (by decide) rfl
    (by decide) hw [.pick 0, .deliver] (by simp) rfl

end Drone

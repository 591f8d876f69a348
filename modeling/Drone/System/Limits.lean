import Drone.System.Dispatch
import Drone.Queue.Filters

/-!
# The per-name concurrency limit

`withinLimits` lets a stage with a limit through only if fewer than `Limit` older
stages of its repository and name are in the pass's snapshot. `limit_respected` says
what this buys over whole runs: while every `Accept` finds its stage pending or running
and a waiting stage is promoted only while no younger stage of its group is pending or
running, no group ever has more than `Limit` incomplete stages with a machine. The
invariant behind it (`LimitInv`) bounds, for every stage an agent holds, the incomplete
older stages of its group. Without the promotion condition a late promotion breaks the
limit (`late_promotion_exceeds_limit`).
-/

namespace Drone

def olderIncomplete (x : Stage) (l : List Stage) : Nat :=
  l.countP fun y => y.incomplete && decide (y.OlderSibling x)

def Store.assigned (st : Store) (repo : Int) (name : String) : List Stage :=
  st.stages.filter fun x => x.repoId == repo && x.name == name && x.incomplete && x.machine != ""

theorem Stage.SameRow.olderSibling_iff {x x' y y' : Stage} (hx : x.SameRow x') (hy : y.SameRow y') :
    y'.OlderSibling x' ↔ y.OlderSibling x := by
  obtain ⟨xi, -, xr, xn, -⟩ := hx
  obtain ⟨yi, -, yr, yn, -⟩ := hy
  simp only [Stage.OlderSibling, xi, xr, xn, yi, yr, yn]

theorem withinLimits_lt {item : Stage} {items : List Stage} (h : withinLimits item items = true)
    (hl : item.limit ≠ 0) : ((items.countP fun y => decide (y.OlderSibling item) : Nat) : Int) < item.limit :=
  ((withinLimits_iff item items).1 h).resolve_left hl

theorem countP_le_of_forall₂ {α β : Type} {R : α → β → Prop} {p : β → Bool} {q : α → Bool}
    (hpq : ∀ a b, R a b → p b = true → q a = true) :
    ∀ {l l'}, List.Forall₂ R l l' → l'.countP p ≤ l.countP q
  | _, _, .nil => le_refl _
  | a :: _, b :: _, .cons h t => by
    have := countP_le_of_forall₂ hpq t
    rw [List.countP_cons, List.countP_cons]
    by_cases hb : p b = true
    · rw [if_pos hb, if_pos (hpq _ _ h hb)]; omega
    · rw [if_neg hb, Nat.add_zero]; exact this.trans (Nat.le_add_right _ _)

namespace Sys

def Holds (s : Sys) (x : Stage) : Prop := x.machine ≠ "" ∨ x.id ∈ s.handed

/-- The steps the limit invariant allows: an `Accept` finds its stage pending or
running, and a waiting stage is promoted only while no younger stage of its repository
and name is pending or running. -/
def LimitGuard (s : Sys) : Event → Prop
  | .accept i _ _ => ∀ x ∈ s.store.stages, x.id = i → x.incomplete = true
  | .promote i => ∀ z ∈ s.store.stages, z.id = i → ∀ y ∈ s.store.stages, y.incomplete = true → ¬ z.OlderSibling y
  | _ => True

/-- Every stage an agent holds has fewer incomplete older siblings than its limit, and
the pass in flight saw every incomplete older sibling of each of its stages that is
still incomplete. -/
structure LimitInv (s : Sys) : Prop where
  bound : ∀ x ∈ s.store.stages, x.incomplete = true → s.Holds x → x.limit ≠ 0 →
    (olderIncomplete x s.store.stages : Int) < x.limit
  covers : ∀ items rest, s.pass = some (items, rest) → ∀ x ∈ items, ∀ x' ∈ s.store.stages,
    x'.id = x.id → x'.incomplete = true → ∀ y ∈ s.store.stages, y.incomplete = true →
      y.OlderSibling x' → y.id ∈ items.map Stage.id

def LimitKept (H : List Int) (x y : Stage) : Prop :=
  x.SameRow y ∧ (y.incomplete = true → x.incomplete = true) ∧ (y.machine ≠ "" → x.machine ≠ "" ∨ x.id ∈ H)

theorem LimitKept.refl (H : List Int) (x : Stage) : LimitKept H x x :=
  ⟨.refl x, id, fun h => .inl h⟩

theorem LimitKept.forall₂_refl (H : List Int) (l : List Stage) : List.Forall₂ (LimitKept H) l l :=
  List.forall₂_same.2 fun x _ => .refl H x

theorem limitKept_updateStage (H : List Int) {st : Store} {row r : Stage} (hrow : row ∈ st.stages)
    (hs : row.SameRow r) (hinc : row.incomplete = true) (hm : r.machine = row.machine) :
    List.Forall₂ (LimitKept H) st.stages (st.updateStage r).stages :=
  Store.forall₂_updateStage (LimitKept.refl H) hrow hs.1 ⟨hs, fun _ => hinc, fun h => .inl (hm ▸ h)⟩

theorem limitKept_acceptRow {H : List Int} {st : Store} {i : Int} (m : String) (n : Int) (hin : i ∈ H)
    (hg : ∀ x ∈ st.stages, x.id = i → x.incomplete = true) :
    List.Forall₂ (LimitKept H) st.stages (Sys.acceptRow st i m n).stages := by
  rcases Sys.acceptRow_cases st i m n with e | ⟨row, hf, -, e⟩ <;> rw [e]
  · exact LimitKept.forall₂_refl H _
  · obtain ⟨hrow, rfl⟩ := Store.findStage_some hf
    exact Store.forall₂_updateStage (LimitKept.refl _) hrow rfl
      ⟨⟨rfl, rfl, rfl, rfl, rfl⟩, fun _ => hg row hrow rfl, fun _ => .inr hin⟩

theorem olderIncomplete_le_of_forall₂ {S S' : List Stage} {R : Stage → Stage → Prop} {x x' : Stage}
    (hR : ∀ a b, R a b → b.incomplete = true → b.OlderSibling x' → a.incomplete = true ∧ a.OlderSibling x)
    (h : List.Forall₂ R S S') : olderIncomplete x' S' ≤ olderIncomplete x S :=
  countP_le_of_forall₂ (fun a b r hb => by
    simp only [Bool.and_eq_true, decide_eq_true_eq] at hb ⊢
    exact hR a b r hb.1 hb.2) h

theorem LimitInv.of_rows {s t : Sys} (hi : s.LimitInv) (hrows : List.Forall₂ (LimitKept s.handed) s.store.stages t.store.stages)
    (hH : ∀ i ∈ t.handed, i ∈ s.handed) (hp : t.pass = s.pass) : t.LimitInv := by
  have back := forall₂_left hrows.flip
  refine ⟨fun y hy hinc hh hl => ?_, fun items rest htp x hx x'' hx'' e hinc y hy hyi ho => ?_⟩
  · obtain ⟨x, hx, hs, hxi, hxm⟩ := back y hy
    have hh' : s.Holds x := by
      rcases hh with hm | hm
      · exact hxm hm
      · exact .inr (hs.1 ▸ hH _ hm)
    have hlt := hi.bound x hx (hxi hinc) hh' (hs.2.2.2.2 ▸ hl)
    rw [hs.2.2.2.2]
    refine lt_of_le_of_lt (Int.ofNat_le.2 (olderIncomplete_le_of_forall₂ (fun a b r hb ho => ?_) hrows)) hlt
    exact ⟨r.2.1 hb, (hs.olderSibling_iff r.1).1 ho⟩
  · obtain ⟨x₀, hx₀, hs₀, hxi, -⟩ := back x'' hx''
    obtain ⟨y₀, hy₀, hsy, hyi₀, -⟩ := back y hy
    rw [hsy.1]
    exact hi.covers items rest (hp ▸ htp) x hx x₀ hx₀ (hs₀.1.symm.trans e) (hxi hinc) y₀ hy₀ (hyi₀ hyi)
      ((hs₀.olderSibling_iff hsy).1 ho)

theorem olderIncomplete_le_snapshot {s : Sys} {items rest : List Stage} (hw : s.WF) (hi : s.LimitInv)
    (hp : s.pass = some (items, rest)) {item x : Stage} (hitem : item ∈ items) (hx : x ∈ s.store.stages)
    (hs : item.SameRow x) (hinc : x.incomplete = true) :
    olderIncomplete x s.store.stages ≤ items.countP fun y => decide (y.OlderSibling item) := by
  have hsnap := hw.pass _ _ hp
  rw [olderIncomplete, List.countP_eq_length_filter, List.countP_eq_length_filter,
    ← List.length_map _ Stage.id, ← List.length_map (items.filter _) Stage.id]
  refine (List.subperm_of_subset ?_ ?_).length_le
  · exact s.store.stage_ids.sublist ((List.filter_sublist _).map _)
  · simp only [List.subset_def, List.mem_map, List.mem_filter, Bool.and_eq_true, decide_eq_true_eq]
    rintro _ ⟨y, ⟨hy, hyi, ho⟩, rfl⟩
    obtain ⟨y₀, hy₀, e⟩ := List.mem_map.1 (hi.covers items rest hp item hitem x hx hs.1 hinc y hy hyi ho)
    obtain ⟨y₁, hy₁, hs₁, -⟩ := hsnap.rows y₀ hy₀
    obtain rfl := Store.stage_eq_of_id hy₁ hy (hs₁.1.trans e)
    exact ⟨y₀, ⟨hy₀, (hs.olderSibling_iff hs₁).1 ho⟩, e⟩

theorem LimitInv.handOff {s t : Sys} (hw : s.WF) (hi : s.LimitInv) (h : s.step .handOff = some t) :
    t.LimitInv := by
  obtain ⟨items, item, rest, hp, hel, rfl⟩ := step_handOff h
  have hsnap := hw.pass _ _ hp
  have hitem : item ∈ items := hsnap.suffix.subset (List.mem_cons_self _ _)
  refine ⟨fun x hx hinc hh hl => ?_, fun _ _ htp => ?_⟩
  · rcases hh with hm | hh
    · exact hi.bound x hx hinc (.inl hm) hl
    rcases List.mem_cons.1 hh with e | hh
    · obtain ⟨x', hx', hs, -⟩ := hsnap.rows item hitem
      obtain rfl := Store.stage_eq_of_id hx hx' (e.trans hs.1.symm)
      have hwl : withinLimits item items = true := by
        simp only [eligible, Bool.and_eq_true] at hel
        exact hel.2
      calc (olderIncomplete x s.store.stages : Int)
          ≤ ((items.countP fun y => decide (y.OlderSibling item) : Nat) : Int) :=
            Int.ofNat_le.2 (olderIncomplete_le_snapshot hw hi hp hitem hx hs hinc)
        _ < item.limit := withinLimits_lt hwl (hs.2.2.2.2 ▸ hl)
        _ = x.limit := hs.2.2.2.2.symm
    · exact hi.bound x hx hinc (.inr hh) hl
  · cases htp
    exact hi.covers _ _ hp

theorem LimitInv.create {s t : Sys} {b : Build} {new : List Stage} (hw : s.WF) (hi : s.LimitInv)
    (h : s.step (.create b new) = some t) : t.LimitInv := by
  obtain ⟨hf, -, hnew, rfl⟩ := step_create h
  have young : ∀ y ∈ new, ∀ x ∈ s.store.stages, ¬ y.OlderSibling x := fun y hy x hx ho =>
    absurd ho.2.2 (not_lt.2 (hf.2.1 x hx y hy).le)
  have cnt : ∀ x ∈ s.store.stages, olderIncomplete x (s.store.stages ++ new) = olderIncomplete x s.store.stages := by
    intro x hx
    rw [olderIncomplete, List.countP_append, (List.countP_eq_zero (l := new)).2 fun y hy => by
      simp [young y hy x hx]]
    rfl
  refine ⟨?_, fun items rest hp x hx x'' hx'' e hinc y hy hyi ho => ?_⟩
  · simp only [Store.create_stages, List.mem_append]
    rintro x (hx | hx) hinc hh hl
    · rw [cnt x hx]
      exact hi.bound x hx hinc hh hl
    · exfalso
      rcases hh with hm | hh
      · exact hm (hnew x hx).2.2.1
      · obtain ⟨y, hy, e⟩ := hw.held _ hh
        exact (hf.2.1 y hy x hx).ne e
  · simp only [Store.create_stages, List.mem_append] at hx'' hy
    obtain ⟨x', hx', hs, -⟩ := (hw.pass _ _ hp).rows x hx
    have hx''₀ : x'' ∈ s.store.stages := hx''.resolve_right fun hn =>
      (hf.2.1 x' hx' x'' hn).ne (hs.1.trans e.symm)
    have hy₀ : y ∈ s.store.stages := hy.resolve_right fun hn => young y hn x'' hx''₀ ho
    exact hi.covers items rest hp x hx x'' hx''₀ e hinc y hy₀ hyi ho

def Promoted (row a b : Stage) : Prop :=
  a.SameRow b ∧ b.machine = a.machine ∧ (a ≠ row → b.incomplete = true → a.incomplete = true)

theorem Store.forall₂_promoted {st : Store} {row : Stage} (hrow : row ∈ st.stages) :
    List.Forall₂ (Promoted row) st.stages (st.updateStage { row with status := .pending }).stages :=
  Store.forall₂_updateStage (fun x => ⟨.refl x, rfl, fun _ => id⟩) hrow rfl
    ⟨⟨rfl, rfl, rfl, rfl, rfl⟩, rfl, fun h => absurd rfl h⟩

theorem Promoted.ne_of_holds {s : Sys} (hw : s.WF) {row x y : Stage} (hrow : row ∈ s.store.stages)
    (hwt : row.status = .waiting) (r : Promoted row x y) (hh : s.Holds y) : x ≠ row := by
  rintro rfl
  obtain ⟨hm₀, hh₀⟩ := hw.waiting x hrow hwt
  rcases hh with hm | hm
  · exact hm (r.2.1.trans hm₀)
  · exact hh₀ (r.1.1 ▸ hm)

theorem WF.ne_waiting_of_snap {s : Sys} (hw : s.WF) {items rest : List Stage} (hp : s.pass = some (items, rest))
    {x x₀ : Stage} (hx : x ∈ items) (hx₀ : x₀ ∈ s.store.stages) (e : x₀.id = x.id) : x₀.status ≠ .waiting := by
  obtain ⟨x₁, hx₁, hs₁, hnw⟩ := (hw.pass _ _ hp).rows x hx
  rwa [Store.stage_eq_of_id hx₁ hx₀ (hs₁.1.trans e.symm)] at hnw

theorem LimitInv.promote {s t : Sys} {i : Int} (hw : s.WF) (hi : s.LimitInv) (hg : s.LimitGuard (.promote i))
    (h : s.step (.promote i) = some t) : t.LimitInv := by
  obtain ⟨row, hf, hwt, rfl⟩ := step_promote h
  obtain ⟨hrow, rfl⟩ := Store.findStage_some hf
  have hrows := Store.forall₂_promoted hrow
  have back := forall₂_left hrows.flip
  -- the promoted row is older than no incomplete row, so any row older than one is not it
  have older : ∀ a b, Promoted row a b → ∀ x ∈ s.store.stages, x.incomplete = true →
      b.incomplete = true → a.OlderSibling x → a.incomplete = true := by
    intro a b r x hx hxi hb ho
    by_cases ha : a = row
    · subst ha; exact absurd ho (hg a hrow rfl x hx hxi)
    · exact r.2.2 ha hb
  refine ⟨fun y hy hinc hh hl => ?_, fun items rest hp x hx x'' hx'' e hinc y hy hyi ho => ?_⟩
  · obtain ⟨x, hx, r⟩ := back y hy
    have hxinc := r.2.2 (Promoted.ne_of_holds hw hrow hwt r hh) hinc
    have hh' : s.Holds x := hh.imp (fun h' => r.2.1 ▸ h') (fun h' => r.1.1 ▸ h')
    have hlt := hi.bound x hx hxinc hh' (r.1.2.2.2.2 ▸ hl)
    rw [r.1.2.2.2.2]
    refine lt_of_le_of_lt (Int.ofNat_le.2 (olderIncomplete_le_of_forall₂ (fun a b r' hb ho => ?_) hrows)) hlt
    have ho' := (r.1.olderSibling_iff r'.1).1 ho
    exact ⟨older a b r' x hx hxinc hb ho', ho'⟩
  · obtain ⟨x₀, hx₀, hs₀, -, hxi⟩ := back x'' hx''
    obtain ⟨y₀, hy₀, hry⟩ := back y hy
    have hx₀i := hxi (fun e' => hw.ne_waiting_of_snap hp hx hx₀ (hs₀.1.symm.trans e) (e' ▸ hwt)) hinc
    have ho₀ := (hs₀.olderSibling_iff hry.1).1 ho
    rw [hry.1.1]
    exact hi.covers items rest hp x hx x₀ hx₀ (hs₀.1.symm.trans e) hx₀i y₀ hy₀
      (older y₀ y hry x₀ hx₀ hx₀i hyi ho₀) ho₀

theorem limitKept_cancel (H : List Int) (env : CancelEnv) (b : Build) (user : Bool) (st : Store) :
    List.Forall₂ (LimitKept H) st.stages (cancel env b user st).store.stages := by
  rcases cancel_rows env b user st with e | ⟨-, hst, -⟩
  · rw [e]; exact LimitKept.forall₂_refl H _
  · refine hst.imp fun x y r => ?_
    rcases r with rfl | ⟨-, -, k, rfl⟩
    · exact .refl _ _
    · refine ⟨stageWrite_sameRow _ _ _, fun h' => ?_, fun h' => .inl (stageWrite_machine _ _ _ ▸ h')⟩
      rw [Stage.incomplete_eq_false (stageWrite_isDone _ _ _).1] at h'
      cases h'

theorem LimitInv.step {s t : Sys} {e : Event} (hw : s.WF) (hi : s.LimitInv) (hg : s.LimitGuard e)
    (h : s.step e = some t) : t.LimitInv := by
  cases e with
  | create b new => exact hi.create hw h
  | promote i => exact hi.promote hw hg h
  | snapshot =>
    obtain ⟨-, rfl⟩ := step_snapshot h
    refine ⟨hi.bound, ?_⟩
    rintro _ _ ⟨⟩ x - x' - - - y hy hyi -
    exact List.mem_map.2 ⟨_, Store.mem_listIncomplete.2 ⟨y, hy, hyi, rfl⟩, rfl⟩
  | handOff => exact hi.handOff hw h
  | skipItem =>
    obtain ⟨items, item, rest, hp, rfl⟩ := step_skipItem h
    refine ⟨hi.bound, ?_⟩
    rintro _ _ ⟨⟩
    exact hi.covers _ _ hp
  | endPass =>
    obtain ⟨_, -, rfl⟩ := step_endPass h
    exact ⟨hi.bound, fun _ _ h => by cases h⟩
  | accept i m n =>
    obtain ⟨hin, rfl⟩ := step_accept h
    exact hi.of_rows (limitKept_acceptRow m n hin hg) (fun _ h => List.erase_subset _ _ h) rfl
  | acceptFail i =>
    obtain ⟨-, rfl⟩ := step_acceptFail h
    exact hi.of_rows (LimitKept.forall₂_refl _ _) (fun _ h => List.erase_subset _ _ h) rfl
  | start i n =>
    obtain ⟨row, hf, hp, -, rfl⟩ := step_start h
    refine hi.of_rows ?_ (fun _ h => h) rfl
    rw [startRow_stages]
    exact limitKept_updateStage _ (Store.findStage_some hf).1 ⟨rfl, rfl, rfl, rfl, rfl⟩
      (by simp [Stage.incomplete, hp]) rfl
  | finish i st n =>
    obtain ⟨row, hf, hinc, -, rfl⟩ := step_finish h
    exact hi.of_rows (limitKept_updateStage _ (Store.findStage_some hf).1 ⟨rfl, rfl, rfl, rfl, rfl⟩ hinc rfl)
      (fun _ h => h) rfl
  | cancel env i user =>
    obtain ⟨b, -, rfl⟩ := step_cancel h
    exact hi.of_rows (limitKept_cancel _ env b user s.store) (fun _ h => h) rfl
  | buildDone i st n =>
    obtain ⟨b, -, -, -, -, rfl⟩ := step_buildDone h
    exact hi.of_rows (LimitKept.forall₂_refl _ _) (fun _ h => h) rfl

theorem LimitInv.init : Sys.init.LimitInv :=
  ⟨by simp [Sys.init], by simp [Sys.init]⟩

theorem LimitInv.guarded {s t : Sys} {es : List Event} (h : Guarded LimitGuard s es t) :
    s.WF → s.LimitInv → t.LimitInv := by
  induction h with
  | nil => exact fun _ hi => hi
  | cons hs hg _ ih => exact fun hw hi => ih (hw.step hs) (hi.step hw hg hs)

/-- In every run where each `Accept` finds its stage pending or running and a waiting
stage is promoted only while no younger stage of its repository and name is pending or
running, a repository's stages named `name` that all carry the limit `L > 0` have at
most `L` incomplete stages with a machine. -/
theorem limit_respected {es : List Event} {t : Sys} (h : Guarded LimitGuard Sys.init es t)
    (repo : Int) (name : String) (L : Int) (hL : 0 < L)
    (hlim : ∀ x ∈ t.store.stages, x.repoId = repo → x.name = name → x.limit = L) :
    ((t.store.assigned repo name).length : Int) ≤ L := by
  have hi := LimitInv.guarded h WF.init LimitInv.init
  have hw := WF.init.run h.run
  by_cases hA : t.store.assigned repo name = []
  · rw [hA, List.length_nil]; omega
  -- the youngest assigned stage has every other one as an incomplete older sibling
  have hsub : List.Sublist (t.store.assigned repo name) t.store.stages := List.filter_sublist _
  have hsplit := List.dropLast_append_getLast hA
  have hX := List.mem_filter.1 (List.getLast_mem hA)
  simp only [Bool.and_eq_true, beq_iff_eq, bne_iff_ne, ne_eq] at hX
  obtain ⟨hX, ⟨⟨hr, hn⟩, hinc⟩, hm⟩ := hX
  have hsorted := hw.sorted.sublist (hsub.map Stage.id)
  rw [← hsplit, List.map_append, List.pairwise_append] at hsorted
  have hbound := hi.bound _ hX hinc (.inl hm) (by rw [hlim _ hX hr hn]; omega)
  rw [hlim _ hX hr hn] at hbound
  have hdrop : (t.store.assigned repo name).dropLast.length ≤
      olderIncomplete ((t.store.assigned repo name).getLast hA) t.store.stages := by
    rw [← List.countP_eq_length.2 fun y hy => ?_]
    · exact ((List.dropLast_sublist _).trans hsub).countP_le _
    · obtain ⟨-, hyp⟩ := List.mem_filter.1 ((List.dropLast_sublist _).subset hy)
      simp only [Bool.and_eq_true, beq_iff_eq, bne_iff_ne, ne_eq] at hyp
      simp only [Bool.and_eq_true, decide_eq_true_eq, Stage.OlderSibling]
      exact ⟨hyp.1.2, hyp.1.1.1.trans hr.symm, hyp.1.1.2.trans hn.symm,
        hsorted.2.2 _ (List.mem_map_of_mem _ hy) _ (List.mem_singleton_self _)⟩
  rw [List.length_dropLast] at hdrop
  have := List.length_pos.2 hA
  omega

def twoStageRun : List Event :=
  [.create (mkBuild 1 "feature") [mkStage 1 1 "deploy" .pending 1, mkStage 2 1 "deploy" .pending 1],
   .snapshot, .handOff, .skipItem, .endPass, .accept 1 "m1" 100]

theorem limit_respected_two_stages :
    Guarded LimitGuard Sys.init twoStageRun ((Sys.init.run twoStageRun).getD Sys.init) ∧ (0 : Int) < 1 ∧
      (∀ x ∈ ((Sys.init.run twoStageRun).getD Sys.init).store.stages,
        x.repoId = 1 → x.name = "deploy" → x.limit = 1) ∧
      ((((Sys.init.run twoStageRun).getD Sys.init).store.assigned 1 "deploy").length : Int) ≤ 1 := by
  have G : Guarded LimitGuard Sys.init twoStageRun ((Sys.init.run twoStageRun).getD Sys.init) :=
    .cons rfl trivial (.cons rfl trivial (.cons rfl trivial (.cons rfl trivial (.cons rfl trivial
      (.cons rfl (by simp only [LimitGuard]; decide) (.nil _))))))
  exact ⟨G, by decide, by decide, limit_respected G 1 "deploy" 1 (by decide) (by decide)⟩

/-- Build 1's stage waits on its dependencies while build 2's stage, of the same
repository and name, is handed out and accepted; then build 1's stage is promoted, and
the next pass hands it out too. -/
def lateRun (source : String) (limit : Int) : List Event :=
  [.create (mkBuild 1 source) [mkStage 1 1 "deploy" .waiting limit],
   .create (mkBuild 2 source) [mkStage 2 2 "deploy" .pending limit],
   .snapshot, .handOff, .endPass, .accept 2 "m2" 100,
   .promote 1, .snapshot, .handOff, .skipItem, .endPass, .accept 1 "m1" 101]

/-- With a limit of one, both stages end up incomplete with a machine. -/
theorem late_promotion_exceeds_limit :
    ∃ s, Sys.init.run (lateRun "feature" 1) = some s ∧
      (∀ x ∈ s.store.stages, x.repoId = 1 ∧ x.name = "deploy" ∧ x.limit = 1) ∧
      (s.store.assigned 1 "deploy").length = 2 :=
  ⟨_, rfl, by decide, rfl⟩

end Sys

end Drone

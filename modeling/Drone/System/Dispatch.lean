import Drone.System.Lifecycle
import Drone.Queue.Pass

/-!
# Passes and their snapshots

A pass judges every stage against the snapshot `ListIncomplete` returned when the pass
began, while the store moves on underneath it. `WF` is what holds in every reachable
state whatever the run: stage ids are in creation order, a younger build's stages come
after an older build's, every stage has its build, a stage waiting on its dependencies
has no machine and is handed to no agent, and the snapshot of the pass in flight still
matches the store on every field no step writes (`Store.Snap`). The last section ties
the system's passes to the queue's: every pass of the interleaved queue that reaches its
unlock is a pass of the system over the same snapshot (`pass_refines_system`).
-/

namespace Drone

theorem Stage.SameRow.refl (x : Stage) : x.SameRow x := ⟨rfl, rfl, rfl, rfl, rfl⟩

theorem Stage.SameRow.trans {x y z : Stage} (h₁ : x.SameRow y) (h₂ : y.SameRow z) : x.SameRow z := by
  obtain ⟨a₁, b₁, c₁, d₁, e₁⟩ := h₁
  obtain ⟨a₂, b₂, c₂, d₂, e₂⟩ := h₂
  exact ⟨a₂.trans a₁, b₂.trans b₁, c₂.trans c₁, d₂.trans d₁, e₂.trans e₁⟩

theorem Build.SameRow.refl (b : Build) : b.SameRow b := ⟨rfl, rfl, rfl⟩

theorem Stage.incomplete_eq_false {x : Stage} (h : x.status.isDone = true) : x.incomplete = false := by
  unfold Stage.incomplete
  cases hs : x.status <;> rw [hs] at h <;> first | rfl | cases h

theorem killBuild_sameRow (clock : Nat → Int) (b : Build) : b.SameRow (killBuild clock b).1 := by
  unfold killBuild; split <;> exact ⟨rfl, rfl, rfl⟩

theorem Status.ne_waiting_of_isDone {st : Status} (h : st.isDone = true) : st ≠ .waiting := by
  rintro rfl; cases h

structure Store.Snap (st : Store) (items rest : List Stage) : Prop where
  suffix : rest <:+ items
  sorted : (items.map Stage.id).Pairwise (· < ·)
  follow : ∀ x ∈ items, ∀ y ∈ items, x.buildId < y.buildId → x.id < y.id
  rows : ∀ x ∈ items, ∃ x' ∈ st.stages, x.SameRow x' ∧ x'.status ≠ .waiting
  build : ∀ x ∈ items, ∃ b ∈ st.builds, b.id = x.buildId ∧ b.source = x.build.source

theorem Store.Snap.mono {st st' : Store} {items rest : List Stage} (h : st.Snap items rest)
    (hs : st.stages ⊆ st'.stages) (hb : st.builds ⊆ st'.builds) : st'.Snap items rest :=
  ⟨h.suffix, h.sorted, h.follow, fun x hx => let ⟨x', h₁, h₂⟩ := h.rows x hx; ⟨x', hs h₁, h₂⟩,
    fun x hx => let ⟨b, h₁, h₂⟩ := h.build x hx; ⟨b, hb h₁, h₂⟩⟩

theorem Store.mem_listIncomplete {st : Store} {x : Stage} :
    x ∈ st.listIncomplete ↔
      ∃ x₀ ∈ st.stages, x₀.incomplete = true ∧ x = { x₀ with build := (st.findBuild x₀.buildId).getD x₀.build } := by
  simp only [listIncomplete, List.mem_map, List.mem_filter]
  constructor
  · rintro ⟨x₀, ⟨h₁, h₂⟩, rfl⟩; exact ⟨x₀, h₁, h₂, rfl⟩
  · rintro ⟨x₀, h₁, h₂, rfl⟩; exact ⟨x₀, ⟨h₁, h₂⟩, rfl⟩

theorem Store.findBuild_of_mem {st : Store} {b : Build} (hb : b ∈ st.builds) : st.findBuild b.id = some b := by
  obtain ⟨c, hc⟩ := Option.ne_none_iff_exists'.1 fun e : st.findBuild b.id = none =>
    (List.find?_eq_none.1 e) b hb (by simp)
  obtain ⟨hc', e⟩ := findBuild_some hc
  rw [hc, build_eq_of_id hc' hb e]

theorem Stage.incomplete_ne_waiting {x : Stage} (h : x.incomplete = true) : x.status ≠ .waiting := by
  simp only [Stage.incomplete, Bool.or_eq_true, beq_iff_eq] at h
  rcases h with h | h <;> rw [h] <;> decide

theorem Store.snap_listIncomplete {st : Store} (hs : (st.stages.map Stage.id).Pairwise (· < ·))
    (hf : ∀ x ∈ st.stages, ∀ y ∈ st.stages, x.buildId < y.buildId → x.id < y.id)
    (hb : ∀ x ∈ st.stages, ∃ b ∈ st.builds, b.id = x.buildId ∧ b.repoId = x.repoId) :
    st.Snap st.listIncomplete st.listIncomplete where
  suffix := List.suffix_refl _
  sorted := by
    simp only [listIncomplete, List.map_map, Function.comp_def]
    exact hs.sublist ((List.filter_sublist _).map _)
  follow := by
    simp only [mem_listIncomplete]
    rintro _ ⟨x, hx, -, rfl⟩ _ ⟨y, hy, -, rfl⟩ hlt
    exact hf x hx y hy hlt
  rows := by
    simp only [mem_listIncomplete]
    rintro _ ⟨x, hx, hi, rfl⟩
    exact ⟨x, hx, ⟨rfl, rfl, rfl, rfl, rfl⟩, Stage.incomplete_ne_waiting hi⟩
  build := by
    simp only [mem_listIncomplete]
    rintro _ ⟨x, hx, -, rfl⟩
    obtain ⟨b, hb', e, -⟩ := hb x hx
    exact ⟨b, hb', e, by simp [← e, findBuild_of_mem hb']⟩

def RowKept (x y : Stage) : Prop :=
  x.SameRow y ∧ (y.status = .waiting → x.status = .waiting ∧ y.machine = x.machine)

theorem RowKept.refl (x : Stage) : RowKept x x := ⟨.refl x, fun h => ⟨h, rfl⟩⟩

theorem RowKept.of_ne_waiting {x y : Stage} (h : x.SameRow y) (hw : y.status ≠ .waiting) : RowKept x y :=
  ⟨h, fun e => absurd e hw⟩

theorem Store.Snap.of_rows {st st' : Store} {items rest : List Stage} (h : st.Snap items rest)
    (hs : List.Forall₂ RowKept st.stages st'.stages) (hb : List.Forall₂ Build.SameRow st.builds st'.builds) :
    st'.Snap items rest where
  suffix := h.suffix
  sorted := h.sorted
  follow := h.follow
  rows x hx := by
    obtain ⟨x', hx', hs', hw⟩ := h.rows x hx
    obtain ⟨y, hy, hr, hyw⟩ := forall₂_left hs x' hx'
    exact ⟨y, hy, hs'.trans hr, fun e => hw (hyw e).1⟩
  build x hx := by
    obtain ⟨b, hb', e, e'⟩ := h.build x hx
    obtain ⟨c, hc, ⟨ci, -, cs⟩⟩ := forall₂_left hb b hb'
    exact ⟨c, hc, ci.trans e, cs.trans e'⟩

structure Store.RowsKept (st st' : Store) : Prop where
  stages : List.Forall₂ RowKept st.stages st'.stages
  builds : List.Forall₂ Build.SameRow st.builds st'.builds

namespace Store

theorem RowsKept.refl (st : Store) : st.RowsKept st :=
  ⟨List.forall₂_same.2 fun x _ => .refl x, List.forall₂_same.2 fun b _ => .refl b⟩

theorem rowsKept_updateStage {st : Store} {row r : Stage} (hrow : row ∈ st.stages) (hs : row.SameRow r)
    (hw : r.status ≠ .waiting) : st.RowsKept (st.updateStage r) :=
  ⟨forall₂_updateStage RowKept.refl hrow hs.1 (.of_ne_waiting hs hw),
    List.forall₂_same.2 fun b _ => .refl b⟩

theorem rowsKept_updateBuild {st : Store} {b c : Build} (hb : b ∈ st.builds) (hs : b.SameRow c) :
    st.RowsKept (st.updateBuild c) :=
  ⟨List.forall₂_same.2 fun x _ => .refl x, forall₂_updateBuild Build.SameRow.refl hb hs.1 hs⟩

end Store

theorem Sys.rowsKept_acceptRow (st : Store) (i : Int) (m : String) (n : Int) :
    st.RowsKept (Sys.acceptRow st i m n) := by
  rcases Sys.acceptRow_cases st i m n with e | ⟨row, hf, -, e⟩ <;> rw [e]
  · exact .refl st
  · exact Store.rowsKept_updateStage (Store.findStage_some hf).1 ⟨rfl, rfl, rfl, rfl, rfl⟩ (by simp [acceptStage])

theorem Sys.rowsKept_startRow {st : Store} {row : Stage} (hrow : row ∈ st.stages) (n : Int) :
    st.RowsKept (Sys.startRow st row n) := by
  have hs := Store.rowsKept_updateStage (r := { row with status := .running, started := n }) hrow
    ⟨rfl, rfl, rfl, rfl, rfl⟩ (by simp)
  simp only [Sys.startRow]
  split
  · rename_i b hb
    split
    · exact ⟨hs.stages, Store.forall₂_updateBuild Build.SameRow.refl (Store.findBuild_some hb).1 rfl
        ⟨rfl, rfl, rfl⟩⟩
    · exact hs
  · exact hs

theorem rowsKept_cancel {st : Store} {b : Build} (hb : b ∈ st.builds) (env : CancelEnv) (user : Bool) :
    st.RowsKept (cancel env b user st).store := by
  rcases cancel_rows env b user st with e | ⟨e, hst, -⟩
  · rw [e]; exact .refl st
  · refine ⟨hst.imp fun x y r => ?_, ?_⟩
    · rcases r with rfl | ⟨-, -, k, rfl⟩
      · exact .refl _
      · exact .of_ne_waiting (stageWrite_sameRow _ _ _)
          (Status.ne_waiting_of_isDone (stageWrite_isDone _ _ _).1)
    · rw [e]
      exact (Store.rowsKept_updateBuild hb (killBuild_sameRow env.clock b)).builds

namespace Sys

structure WF (s : Sys) : Prop where
  sorted : (s.store.stages.map Stage.id).Pairwise (· < ·)
  follow : ∀ x ∈ s.store.stages, ∀ y ∈ s.store.stages, x.buildId < y.buildId → x.id < y.id
  builds : ∀ x ∈ s.store.stages, ∃ b ∈ s.store.builds, b.id = x.buildId ∧ b.repoId = x.repoId
  held : ∀ i ∈ s.handed, ∃ x ∈ s.store.stages, x.id = i
  waiting : ∀ x ∈ s.store.stages, x.status = .waiting → x.machine = "" ∧ x.id ∉ s.handed
  pass : ∀ items rest, s.pass = some (items, rest) → s.store.Snap items rest

theorem WF.of_rowsKept {s t : Sys} (hw : s.WF) (hk : s.store.RowsKept t.store) (hH : ∀ i ∈ t.handed, i ∈ s.handed)
    (hp : t.pass = s.pass) : t.WF := by
  have back := forall₂_left hk.stages.flip
  refine ⟨?_, ?_, ?_, ?_, ?_, ?_⟩
  · rw [forall₂_map_eq Stage.id (fun x y h => h.1.1) hk.stages]
    exact hw.sorted
  · intro x' hx' y' hy' hlt
    obtain ⟨x, hx, ⟨ei, eb, -⟩, -⟩ := back x' hx'
    obtain ⟨y, hy, ⟨fi, fb, -⟩, -⟩ := back y' hy'
    rw [ei, fi]
    rw [eb, fb] at hlt
    exact hw.follow x hx y hy hlt
  · intro x' hx'
    obtain ⟨x, hx, ⟨-, eb, er, -⟩, -⟩ := back x' hx'
    obtain ⟨b, hb, e, e'⟩ := hw.builds x hx
    obtain ⟨c, hc, ci, cr, -⟩ := forall₂_left hk.builds b hb
    exact ⟨c, hc, by rw [ci, e, eb], by rw [cr, e', er]⟩
  · intro i hi
    obtain ⟨x, hx, rfl⟩ := hw.held i (hH i hi)
    obtain ⟨y, hy, ⟨e, -⟩, -⟩ := forall₂_left hk.stages x hx
    exact ⟨y, hy, e⟩
  · intro y hy hwt
    obtain ⟨x, hx, ⟨e, -⟩, hr⟩ := back y hy
    obtain ⟨hxw, hm⟩ := hr hwt
    obtain ⟨h₁, h₂⟩ := hw.waiting x hx hxw
    exact ⟨hm.trans h₁, fun hi => h₂ (e ▸ hH _ hi)⟩
  · intro items rest h
    rw [hp] at h
    exact (hw.pass items rest h).of_rows hk.stages hk.builds

theorem WF.init : Sys.init.WF where
  sorted := .nil
  follow := by simp [Sys.init]
  builds := by simp [Sys.init]
  held := by simp [Sys.init]
  waiting := by simp [Sys.init]
  pass := by simp [Sys.init]

theorem WF.buildId_lt {s : Sys} (hw : s.WF) {b : Build} {new : List Stage} (hf : s.store.Fresh b new)
    {x : Stage} (hx : x ∈ s.store.stages) : x.buildId < b.id := by
  obtain ⟨c, hc, e, -⟩ := hw.builds x hx
  exact e ▸ hf.1 c hc

theorem WF.create {s t : Sys} {b : Build} {new : List Stage} (hw : s.WF)
    (h : s.step (.create b new) = some t) : t.WF := by
  obtain ⟨hf, -, hnew, rfl⟩ := step_create h
  have hbid := fun x (hx : x ∈ s.store.stages) => hw.buildId_lt hf hx
  refine ⟨?_, ?_, ?_, ?_, ?_, ?_⟩ <;> dsimp only <;> try simp only [Store.create_stages, Store.create_builds]
  · rw [List.map_append, List.pairwise_append]
    refine ⟨hw.sorted, hf.2.2, ?_⟩
    simp only [List.mem_map]
    rintro _ ⟨x, hx, rfl⟩ _ ⟨y, hy, rfl⟩
    exact hf.2.1 x hx y hy
  · simp only [List.mem_append]
    rintro x (hx | hx) y (hy | hy) hlt
    · exact hw.follow x hx y hy hlt
    · exact hf.2.1 x hx y hy
    · rw [(hnew x hx).1] at hlt
      exact absurd (hbid y hy) (lt_asymm hlt)
    · rw [(hnew x hx).1, (hnew y hy).1] at hlt
      exact absurd hlt (lt_irrefl _)
  · simp only [List.mem_append, List.mem_singleton]
    rintro x (hx | hx)
    · obtain ⟨c, hc, e⟩ := hw.builds x hx
      exact ⟨c, .inl hc, e⟩
    · exact ⟨b, .inr rfl, (hnew x hx).1.symm, (hnew x hx).2.1.symm⟩
  · intro i hi
    obtain ⟨x, hx, e⟩ := hw.held i hi
    exact ⟨x, List.mem_append_left _ hx, e⟩
  · simp only [List.mem_append]
    rintro x (hx | hx) hxw
    · exact hw.waiting x hx hxw
    · refine ⟨(hnew x hx).2.2.1, fun hi => ?_⟩
      obtain ⟨y, hy, e⟩ := hw.held _ hi
      exact (hf.2.1 y hy x hx).ne e
  · intro items rest hp
    exact (hw.pass items rest hp).mono (List.subset_append_left _ _) (List.subset_append_left _ _)

theorem WF.handOff {s t : Sys} (hw : s.WF) (h : s.step .handOff = some t) : t.WF := by
  obtain ⟨items, item, rest, hp, -, rfl⟩ := step_handOff h
  have hsnap := hw.pass _ _ hp
  obtain ⟨x', hx', hsame, hnw⟩ := hsnap.rows item (hsnap.suffix.subset (List.mem_cons_self _ _))
  refine ⟨hw.sorted, hw.follow, hw.builds, ?_, ?_, ?_⟩
  · intro i hi
    rcases List.mem_cons.1 hi with rfl | hi
    · exact ⟨x', hx', hsame.1⟩
    · exact hw.held i hi
  · intro x hx hxw
    refine ⟨(hw.waiting x hx hxw).1, fun hi => ?_⟩
    rcases List.mem_cons.1 hi with e | hi
    · exact hnw (Store.stage_eq_of_id hx hx' (e.trans hsame.1.symm) ▸ hxw)
    · exact (hw.waiting x hx hxw).2 hi
  · rintro _ _ ⟨⟩
    exact { hsnap with suffix := (List.suffix_cons _ _).trans hsnap.suffix }

theorem WF.step {s t : Sys} {e : Event} (hw : s.WF) (h : s.step e = some t) : t.WF := by
  cases e with
  | create b new => exact hw.create h
  | promote i =>
    obtain ⟨row, hf, -, rfl⟩ := step_promote h
    exact hw.of_rowsKept (Store.rowsKept_updateStage (Store.findStage_some hf).1
      ⟨rfl, rfl, rfl, rfl, rfl⟩ (by simp)) (fun _ h => h) rfl
  | snapshot =>
    obtain ⟨-, rfl⟩ := step_snapshot h
    refine { hw with pass := ?_ }
    rintro _ _ ⟨⟩
    exact Store.snap_listIncomplete hw.sorted hw.follow hw.builds
  | handOff => exact hw.handOff h
  | skipItem =>
    obtain ⟨items, item, rest, hp, rfl⟩ := step_skipItem h
    refine { hw with pass := ?_ }
    rintro _ _ ⟨⟩
    have hsnap := hw.pass _ _ hp
    exact { hsnap with suffix := (List.suffix_cons _ _).trans hsnap.suffix }
  | endPass =>
    obtain ⟨_, -, rfl⟩ := step_endPass h
    exact { hw with pass := fun _ _ h => by cases h }
  | accept i m n =>
    obtain ⟨-, rfl⟩ := step_accept h
    exact hw.of_rowsKept (rowsKept_acceptRow _ _ _ _) (fun _ h => List.erase_subset _ _ h) rfl
  | acceptFail i =>
    obtain ⟨-, rfl⟩ := step_acceptFail h
    exact hw.of_rowsKept (.refl _) (fun _ h => List.erase_subset _ _ h) rfl
  | start i n =>
    obtain ⟨row, hf, -, -, rfl⟩ := step_start h
    exact hw.of_rowsKept (rowsKept_startRow (Store.findStage_some hf).1 n) (fun _ h => h) rfl
  | finish i st n =>
    obtain ⟨row, hf, -, hd, rfl⟩ := step_finish h
    exact hw.of_rowsKept (Store.rowsKept_updateStage (Store.findStage_some hf).1
      ⟨rfl, rfl, rfl, rfl, rfl⟩ (Status.ne_waiting_of_isDone hd)) (fun _ h => h) rfl
  | cancel env i user =>
    obtain ⟨b, hb, rfl⟩ := step_cancel h
    exact hw.of_rowsKept (rowsKept_cancel (Store.findBuild_some hb).1 env user) (fun _ h => h) rfl
  | buildDone i st n =>
    obtain ⟨b, hb, -, -, -, rfl⟩ := step_buildDone h
    exact hw.of_rowsKept (Store.rowsKept_updateBuild (Store.findBuild_some hb).1 ⟨rfl, rfl, rfl⟩)
      (fun _ h => h) rfl

theorem WF.run {s t : Sys} {es : List Event} (hw : s.WF) (h : s.run es = some t) : t.WF := by
  induction es generalizing s with
  | nil => cases h; exact hw
  | cons e es ih =>
    obtain ⟨u, hu, hr⟩ := run_cons.1 h
    exact ih (hw.step hu) hr

theorem reachable_wf {s : Sys} (h : s.Reachable) : s.WF :=
  let ⟨_, hr⟩ := h
  WF.init.run hr

inductive Guarded (g : Sys → Event → Prop) : Sys → List Event → Sys → Prop
  | nil (s : Sys) : Guarded g s [] s
  | cons {s u t : Sys} {e : Event} {es : List Event} :
      s.step e = some u → g s e → Guarded g u es t → Guarded g s (e :: es) t

theorem Guarded.run {g : Sys → Event → Prop} {s t : Sys} {es : List Event} (h : Guarded g s es t) :
    s.run es = some t := by
  induction h with
  | nil => rfl
  | cons hs _ _ ih => exact run_cons.2 ⟨_, hs, ih⟩

end Sys

/-! ## The queue's passes are passes of the system

The dispatch system walks a pass as one event per item: `handOff` for an item that
passes the filters, `skipItem` for any item, `endPass` at the end. The queue machine
walks it with its goroutines interleaved. `pass_refines_system` relates the two: every
pass of the queue that reaches its unlock, whatever the other goroutines do meanwhile, is
matched by a run of
the system's pass events over the same snapshot that hands out the stages the queue's
calls returned, in the same order. Hints, cancellations and `Schedule` change nothing
the system sees. So what the system's runs keep true (`limit_respected`,
`branch_respected`, `machine_kept_run`) covers the stages the real queue hands out.
-/

end Drone

import Drone.System.Limits

/-!
# The master branch policy

`withinBranchLimits` lets a stage through if its build is running, or if the first
stage in the snapshot of another build of its repository, when both builds are on
master, belongs to a younger build. Because the snapshot is in id order and a younger
build's stages come after an older build's, that first stage is the oldest such build's
(`loop_no_older`). `branch_respected` says what this buys over whole runs: while every
`Accept` finds its stage pending or running and a waiting stage of a master build is
promoted only while no other master build of its repository has a pending or running
stage, no two master builds of a repository both have an incomplete stage with a
machine. Without the promotion condition a late promotion lets both through
(`late_promotion_two_master_builds`).
-/

namespace Drone

/-- The first stage of another build of the stage's repository decides; when both
builds are on master it admits only a stage of the older build. So in a snapshot in id
order, where a younger build's stages come after an older build's, a master stage the
loop admits has no stage of an older master build of its repository before or after
it. -/
theorem loop_no_older {stage : Stage} (hm : stage.build.source = "master") {items : List Stage}
    (hs : (items.map Stage.id).Pairwise (· < ·))
    (hf : ∀ x ∈ items, ∀ y ∈ items, x.buildId < y.buildId → x.id < y.id)
    (h : withinBranchLimits.loop stage items = true) :
    ∀ y ∈ items, y.repoId = stage.repoId → y.build.source = "master" → y.buildId < stage.buildId → False := by
  have hb : (items.map Stage.buildId).Pairwise (· ≤ ·) :=
    List.pairwise_map.2 ((List.pairwise_map.1 hs).imp_of_mem fun hx hy hxy =>
      not_lt.1 fun hlt => lt_asymm hxy (hf _ hy _ hx hlt))
  intro y hy hr hym hlt
  exact lt_asymm hlt ((loop_iff stage hb).1 h hm y hy hr hlt.ne hym)

def Store.OnMaster (st : Store) (x : Stage) : Prop :=
  ∃ b ∈ st.builds, b.id = x.buildId ∧ b.source = "master"

def Store.OlderMaster (st : Store) (y x : Stage) : Prop :=
  st.OnMaster y ∧ y.repoId = x.repoId ∧ y.buildId < x.buildId

def Store.RunningMaster (st : Store) (x : Stage) : Prop :=
  ∃ b ∈ st.builds, b.id = x.buildId ∧ b.source = "master" ∧ b.status = .running

def BuildKept (b c : Build) : Prop := b.SameRow c ∧ (c.status = .running → b.status = .running)

theorem BuildKept.refl (b : Build) : BuildKept b b := ⟨.refl b, id⟩

theorem onMaster_iff {st st' : Store} {R : Build → Build → Prop} (hR : ∀ b c, R b c → b.SameRow c)
    (hb : List.Forall₂ R st.builds st'.builds) {x x' : Stage} (e : x'.buildId = x.buildId) :
    st'.OnMaster x' ↔ st.OnMaster x := by
  constructor
  · rintro ⟨c, hc, ci, cs⟩
    obtain ⟨b, hb', r⟩ := forall₂_left hb.flip c hc
    obtain ⟨bi, -, bs⟩ := hR b c r
    exact ⟨b, hb', by rw [← bi, ci, e], by rw [← bs, cs]⟩
  · rintro ⟨b, hb', bi, bs⟩
    obtain ⟨c, hc, r⟩ := forall₂_left hb b hb'
    obtain ⟨ci, -, cs⟩ := hR b c r
    exact ⟨c, hc, by rw [ci, bi, e], by rw [cs, bs]⟩

theorem olderMaster_iff {st st' : Store} {R : Build → Build → Prop} (hR : ∀ b c, R b c → b.SameRow c)
    (hb : List.Forall₂ R st.builds st'.builds) {x x' y y' : Stage} (hx : x.SameRow x') (hy : y.SameRow y') :
    st'.OlderMaster y' x' ↔ st.OlderMaster y x := by
  obtain ⟨-, xb, xr, -⟩ := hx
  obtain ⟨-, yb, yr, -⟩ := hy
  simp only [Store.OlderMaster, onMaster_iff hR hb yb, xb, xr, yb, yr]

theorem runningMaster_of {st st' : Store} (hb : List.Forall₂ BuildKept st.builds st'.builds)
    {x x' : Stage} (e : x'.buildId = x.buildId) (h : st'.RunningMaster x') : st.RunningMaster x := by
  obtain ⟨c, hc, ci, cs, cr⟩ := h
  obtain ⟨b, hb', ⟨bi, -, bs⟩, br⟩ := forall₂_left hb.flip c hc
  exact ⟨b, hb', by rw [← bi, ci, e], by rw [← bs, cs], br cr⟩

theorem Store.Snap.source_of_onMaster {st : Store} {items rest : List Stage} (h : st.Snap items rest)
    {y y' : Stage} (hy : y ∈ items) (hs : y.SameRow y') (hm : st.OnMaster y') :
    y.build.source = "master" := by
  obtain ⟨c, hc, ci, cs⟩ := h.build y hy
  obtain ⟨c', hc', ci', cs'⟩ := hm
  rw [← cs, Store.build_eq_of_id hc hc' (ci.trans (hs.2.1.symm.trans ci'.symm)), cs']

theorem runningMaster_startRow {st : Store} {row x : Stage} {n : Int}
    (h : (Sys.startRow st row n).RunningMaster x) :
    st.RunningMaster x ∨ (st.OnMaster x ∧ x.buildId = row.buildId) := by
  simp only [Sys.startRow] at h
  split at h
  next b hb =>
    split at h
    · obtain ⟨c, hc, ci, cs, cr⟩ := h
      obtain ⟨c₀, hc₀, rfl⟩ := mem_replaceBy.1 hc
      obtain ⟨hb', hbid⟩ := Store.findBuild_some hb
      by_cases e : c₀.id = b.id
      · rw [if_pos e] at ci cs
        exact .inr ⟨⟨b, hb', ci, cs⟩, ci.symm.trans hbid⟩
      · rw [if_neg e] at ci cs cr
        exact .inl ⟨c₀, hc₀, ci, cs, cr⟩
    · exact .inl h
  · exact .inl h

theorem buildKept_cancel {st : Store} {b : Build} (hb : b ∈ st.builds) (env : CancelEnv) (user : Bool) :
    List.Forall₂ BuildKept st.builds (cancel env b user st).store.builds := by
  rcases cancel_rows env b user st with e | ⟨e, -, -⟩
  · rw [e]; exact List.forall₂_same.2 fun c _ => .refl c
  · rw [e]
    refine Store.forall₂_updateBuild BuildKept.refl hb (killBuild_id _ _) ⟨killBuild_sameRow _ _, fun h => ?_⟩
    rw [killBuild_status] at h
    cases h

theorem Sys.WF.repoId_eq {s : Sys} (hw : s.WF) {x y : Stage} (hx : x ∈ s.store.stages) (hy : y ∈ s.store.stages)
    (e : x.buildId = y.buildId) : x.repoId = y.repoId := by
  obtain ⟨b, hb, bi, br⟩ := hw.builds x hx
  obtain ⟨c, hc, ci, cr⟩ := hw.builds y hy
  rw [← br, ← cr, Store.build_eq_of_id hb hc (bi.trans (e.trans ci.symm))]

namespace Sys

/-- The steps the branch invariant allows: an `Accept` finds its stage pending or
running, and a waiting stage of a master build is promoted only while no other master
build of its repository has a pending or running stage. -/
def BranchGuard (s : Sys) : Event → Prop
  | .accept i _ _ => ∀ x ∈ s.store.stages, x.id = i → x.incomplete = true
  | .promote i => ∀ z ∈ s.store.stages, z.id = i → s.store.OnMaster z → ∀ y ∈ s.store.stages,
      y.incomplete = true → s.store.OnMaster y → y.repoId = z.repoId → y.buildId ≠ z.buildId → False
  | _ => True

/-- No stage an agent holds, and no incomplete stage of a running build, on master has
an incomplete stage of an older master build of its repository beside it; and the
pass in flight still vouches for each of its master stages that is still incomplete:
if it saw the stage's build running there is no such older stage, and it saw every one
there is. -/
structure BranchInv (s : Sys) : Prop where
  bound : ∀ x ∈ s.store.stages, x.incomplete = true → s.Holds x → s.store.OnMaster x →
    ∀ y ∈ s.store.stages, y.incomplete = true → s.store.OlderMaster y x → False
  running : ∀ x ∈ s.store.stages, x.incomplete = true → s.store.RunningMaster x →
    ∀ y ∈ s.store.stages, y.incomplete = true → s.store.OlderMaster y x → False
  pass : ∀ items rest, s.pass = some (items, rest) → ∀ x ∈ items, ∀ x' ∈ s.store.stages,
    x'.id = x.id → x'.incomplete = true → s.store.OnMaster x' →
      (x.build.status = .running → ∀ y ∈ s.store.stages, y.incomplete = true → s.store.OlderMaster y x' → False) ∧
      ∀ y ∈ s.store.stages, y.incomplete = true → s.store.OlderMaster y x' → y.id ∈ items.map Stage.id

def NoOlderMaster (st : Store) (x : Stage) : Prop :=
  ∀ y ∈ st.stages, y.incomplete = true → st.OlderMaster y x → False

theorem BranchInv.of_rows {s t : Sys} (hi : s.BranchInv)
    (hrows : List.Forall₂ (LimitKept s.handed) s.store.stages t.store.stages)
    (hbuilds : List.Forall₂ Build.SameRow s.store.builds t.store.builds)
    (hrun : ∀ x ∈ s.store.stages, x.incomplete = true → t.store.RunningMaster x →
      s.store.RunningMaster x ∨ NoOlderMaster s.store x)
    (hH : ∀ i ∈ t.handed, i ∈ s.handed) (hp : t.pass = s.pass) : t.BranchInv := by
  have back := forall₂_left hrows.flip
  have hR : ∀ b c, Build.SameRow b c → b.SameRow c := fun _ _ r => r
  -- an incomplete older master row after the step was one before it
  have older : ∀ {x x'}, x.SameRow x' → ∀ y ∈ t.store.stages, y.incomplete = true →
      t.store.OlderMaster y x' → ∃ y₀ ∈ s.store.stages, y₀.SameRow y ∧ y₀.incomplete = true ∧
        s.store.OlderMaster y₀ x := by
    intro x x' hx y hy hyi ho
    obtain ⟨y₀, hy₀, hs, hi₀, -⟩ := back y hy
    exact ⟨y₀, hy₀, hs, hi₀ hyi, (olderMaster_iff hR hbuilds hx hs).1 ho⟩
  refine ⟨fun x' hx' hinc hh hm y hy hyi ho => ?_, fun x' hx' hinc hrun' y hy hyi ho => ?_,
    fun items rest htp x hx x' hx' e hinc hm => ?_⟩
  · obtain ⟨x, hx, hs, hxi, hxm⟩ := back x' hx'
    obtain ⟨y₀, hy₀, -, hyi₀, ho₀⟩ := older hs y hy hyi ho
    have hh' : s.Holds x := by
      rcases hh with h' | h'
      · exact hxm h'
      · exact .inr (hs.1 ▸ hH _ h')
    exact hi.bound x hx (hxi hinc) hh' ((onMaster_iff hR hbuilds hs.2.1).1 hm) y₀ hy₀ hyi₀ ho₀
  · obtain ⟨x, hx, hs, hxi, -⟩ := back x' hx'
    obtain ⟨y₀, hy₀, -, hyi₀, ho₀⟩ := older hs y hy hyi ho
    obtain ⟨c, hc, ci, cs, cr⟩ := hrun'
    rcases hrun x hx (hxi hinc) ⟨c, hc, ci.trans hs.2.1, cs, cr⟩ with hr | hn
    · exact hi.running x hx (hxi hinc) hr y₀ hy₀ hyi₀ ho₀
    · exact hn y₀ hy₀ hyi₀ ho₀
  · obtain ⟨x₀, hx₀, hs, hxi, -⟩ := back x' hx'
    have h₀ := hi.pass items rest (hp ▸ htp) x hx x₀ hx₀ (hs.1.symm.trans e) (hxi hinc)
      ((onMaster_iff hR hbuilds hs.2.1).1 hm)
    refine ⟨fun hrun y hy hyi ho => ?_, fun y hy hyi ho => ?_⟩ <;>
      obtain ⟨y₀, hy₀, hsy, hyi₀, ho₀⟩ := older hs y hy hyi ho
    · exact h₀.1 hrun y₀ hy₀ hyi₀ ho₀
    · rw [hsy.1]
      exact h₀.2 y₀ hy₀ hyi₀ ho₀

theorem BranchInv.of_kept {s t : Sys} (hi : s.BranchInv)
    (hrows : List.Forall₂ (LimitKept s.handed) s.store.stages t.store.stages)
    (hbuilds : List.Forall₂ BuildKept s.store.builds t.store.builds)
    (hH : ∀ i ∈ t.handed, i ∈ s.handed) (hp : t.pass = s.pass) : t.BranchInv :=
  hi.of_rows hrows (hbuilds.imp fun _ _ r => r.1) (fun _ _ _ h => .inl (runningMaster_of hbuilds rfl h)) hH hp

theorem BranchInv.create {s t : Sys} {b : Build} {new : List Stage} (hw : s.WF) (hi : s.BranchInv)
    (h : s.step (.create b new) = some t) : t.BranchInv := by
  obtain ⟨hf, hpend, hnew, rfl⟩ := step_create h
  have hbid := fun x (hx : x ∈ s.store.stages) => hw.buildId_lt hf hx
  -- the new build is the build of no old stage
  have old : ∀ {x}, x ∈ s.store.stages → ∀ c ∈ (s.store.create b new hf).builds, c.id = x.buildId →
      c ∈ s.store.builds := by
    intro x hx c hc e
    rcases List.mem_append.1 hc with hc | hc
    · exact hc
    · rw [List.mem_singleton.1 hc] at e
      exact absurd (hbid x hx) (e ▸ lt_irrefl _)
  have onMaster : ∀ {x}, x ∈ s.store.stages → (s.store.create b new hf).OnMaster x → s.store.OnMaster x :=
    fun hx ⟨c, hc, e, hs⟩ => ⟨c, old hx c hc e, e, hs⟩
  -- and a new stage is older than no old one
  have older : ∀ {x y}, x ∈ s.store.stages → y ∈ s.store.stages ++ new →
      (s.store.create b new hf).OlderMaster y x → y ∈ s.store.stages ∧ s.store.OlderMaster y x := by
    rintro x y hx hy ⟨hm, hr, hlt⟩
    rcases List.mem_append.1 hy with hy | hy
    · exact ⟨hy, onMaster hy hm, hr, hlt⟩
    · rw [(hnew y hy).1] at hlt
      exact absurd (hbid x hx) (lt_asymm hlt)
  refine ⟨fun x hx hinc hh hm y hy hyi ho => ?_, fun x hx hinc hr y hy hyi ho => ?_,
    fun items rest hp x hx x' hx' e hinc hm => ?_⟩
  · rcases List.mem_append.1 hx with hx | hx
    · obtain ⟨hy, ho⟩ := older hx hy ho
      exact hi.bound x hx hinc hh (onMaster hx hm) y hy hyi ho
    · rcases hh with hm' | hh
      · exact hm' (hnew x hx).2.2.1
      · obtain ⟨z, hz, e⟩ := hw.held _ hh
        exact (hf.2.1 z hz x hx).ne e
  · obtain ⟨c, hc, e, hs, hrun⟩ := hr
    rcases List.mem_append.1 hx with hx | hx
    · obtain ⟨hy, ho⟩ := older hx hy ho
      exact hi.running x hx hinc ⟨c, old hx c hc e, e, hs, hrun⟩ y hy hyi ho
    · rcases List.mem_append.1 hc with hc | hc
      · exact absurd (e.trans (hnew x hx).1 ▸ hf.1 c hc) (lt_irrefl _)
      · rw [List.mem_singleton.1 hc, hpend] at hrun
        cases hrun
  · obtain ⟨x₁, hx₁, hs, -⟩ := (hw.pass _ _ hp).rows x hx
    have hx'₀ : x' ∈ s.store.stages := (List.mem_append.1 hx').resolve_right fun hn =>
      (hf.2.1 x₁ hx₁ x' hn).ne (hs.1.trans e.symm)
    have h₀ := hi.pass items rest hp x hx x' hx'₀ e hinc (onMaster hx'₀ hm)
    refine ⟨fun hrun y hy hyi ho => ?_, fun y hy hyi ho => ?_⟩ <;> obtain ⟨hy, ho⟩ := older hx'₀ hy ho
    · exact h₀.1 hrun y hy hyi ho
    · exact h₀.2 y hy hyi ho

theorem BranchInv.promote {s t : Sys} {i : Int} (hw : s.WF) (hi : s.BranchInv)
    (hg : s.BranchGuard (.promote i)) (h : s.step (.promote i) = some t) : t.BranchInv := by
  obtain ⟨row, hf, hwt, rfl⟩ := step_promote h
  obtain ⟨hrow, rfl⟩ := Store.findStage_some hf
  have back := forall₂_left (Store.forall₂_promoted hrow).flip
  have hb : List.Forall₂ Build.SameRow s.store.builds s.store.builds :=
    List.forall₂_same.2 fun b _ => .refl b
  -- an incomplete older master row after the promotion was one before it: by the guard
  -- the promoted row is no incomplete master row's older master row, nor its own
  have older : ∀ {x x'}, x ∈ s.store.stages → x.SameRow x' → (x.incomplete = true ∨ x = row) →
      s.store.OnMaster x → ∀ y ∈ (s.store.updateStage { row with status := .pending }).stages,
      y.incomplete = true → s.store.OlderMaster y x' →
        ∃ y₀ ∈ s.store.stages, y₀.SameRow y ∧ y₀.incomplete = true ∧ s.store.OlderMaster y₀ x := by
    intro x x' hx hs hxc hm y hy hyi ho
    obtain ⟨y₀, hy₀, r⟩ := back y hy
    have ho₀ := (olderMaster_iff (fun _ _ r => r) hb hs r.1).1 ho
    refine ⟨y₀, hy₀, r.1, ?_, ho₀⟩
    by_cases e : y₀ = row
    · subst e
      rcases hxc with hxi | rfl
      · exact (hg y₀ hrow rfl ho₀.1 x hx hxi hm ho₀.2.1.symm ho₀.2.2.ne').elim
      · exact absurd ho₀.2.2 (lt_irrefl _)
    · exact r.2.2 e hyi
  refine ⟨fun x' hx' hinc hh hm y hy hyi ho => ?_, fun x' hx' hinc hr y hy hyi ho => ?_,
    fun items rest hp x hx x' hx' e hinc hm => ?_⟩
  · obtain ⟨x, hx, r⟩ := back x' hx'
    have hxi := r.2.2 (Promoted.ne_of_holds hw hrow hwt r hh) hinc
    have hm' := (onMaster_iff (fun _ _ r => r) hb r.1.2.1).1 hm
    obtain ⟨y₀, hy₀, -, hyi₀, ho₀⟩ := older hx r.1 (.inl hxi) hm' y hy hyi ho
    exact hi.bound x hx hxi (hh.imp (fun h' => r.2.1 ▸ h') fun h' => r.1.1 ▸ h') hm' y₀ hy₀ hyi₀ ho₀
  · obtain ⟨x, hx, hs, -, hxi⟩ := back x' hx'
    obtain ⟨c, hc, ce, cs, cr⟩ := hr
    have hm' : s.store.OnMaster x := ⟨c, hc, ce.trans hs.2.1, cs⟩
    by_cases hxr : x = row
    · -- the promoted row itself: by the guard no other master build has an incomplete row
      obtain ⟨y₀, hy₀, -, hyi₀, ho₀⟩ := older hx hs (.inr hxr) hm' y hy hyi ho
      subst hxr
      exact hg x hx rfl hm' y₀ hy₀ hyi₀ ho₀.1 ho₀.2.1 ho₀.2.2.ne
    · obtain ⟨y₀, hy₀, -, hyi₀, ho₀⟩ := older hx hs (.inl (hxi hxr hinc)) hm' y hy hyi ho
      exact hi.running x hx (hxi hxr hinc) ⟨c, hc, ce.trans hs.2.1, cs, cr⟩ y₀ hy₀ hyi₀ ho₀
  · obtain ⟨x₀, hx₀, hs₀, -, hxi⟩ := back x' hx'
    have hx₀i := hxi (fun e' => hw.ne_waiting_of_snap hp hx hx₀ (hs₀.1.symm.trans e) (e' ▸ hwt)) hinc
    have hm' := (onMaster_iff (fun _ _ r => r) hb hs₀.2.1).1 hm
    have h₀ := hi.pass items rest hp x hx x₀ hx₀ (hs₀.1.symm.trans e) hx₀i hm'
    refine ⟨fun hrun y hy hyi ho => ?_, fun y hy hyi ho => ?_⟩ <;>
      obtain ⟨y₀, hy₀, hsy, hyi₀, ho₀⟩ := older hx₀ hs₀ (.inl hx₀i) hm' y hy hyi ho
    · exact h₀.1 hrun y₀ hy₀ hyi₀ ho₀
    · rw [hsy.1]
      exact h₀.2 y₀ hy₀ hyi₀ ho₀

theorem BranchInv.handOff {s t : Sys} (hw : s.WF) (hi : s.BranchInv) (h : s.step .handOff = some t) :
    t.BranchInv := by
  obtain ⟨items, item, rest, hp, hel, rfl⟩ := step_handOff h
  have hsnap := hw.pass _ _ hp
  have hitem : item ∈ items := hsnap.suffix.subset (List.mem_cons_self _ _)
  refine ⟨fun x hx hinc hh hm y hy hyi ho => ?_, hi.running, fun _ _ htp => ?_⟩
  · rcases hh with hm' | hh
    · exact hi.bound x hx hinc (.inl hm') hm y hy hyi ho
    rcases List.mem_cons.1 hh with e | hh
    · obtain ⟨x', hx', hs, -⟩ := hsnap.rows item hitem
      obtain rfl := Store.stage_eq_of_id hx hx' (e.trans hs.1.symm)
      have h₀ := hi.pass items (item :: rest) hp item hitem x hx hs.1 hinc hm
      have hwb : withinBranchLimits item items = true := by
        simp only [eligible, Bool.and_eq_true] at hel
        exact hel.1.1.1
      unfold withinBranchLimits at hwb
      rw [Bool.or_eq_true, beq_iff_eq] at hwb
      rcases hwb with hrun | hloop
      · exact h₀.1 hrun y hy hyi ho
      -- the pass saw `y` in its snapshot, as a stage of an older master build
      obtain ⟨y₁, hy₁, e₁⟩ := List.mem_map.1 (h₀.2 y hy hyi ho)
      obtain ⟨y', hy', hs₁, -⟩ := hsnap.rows y₁ hy₁
      obtain rfl := Store.stage_eq_of_id hy' hy (hs₁.1.trans e₁)
      refine loop_no_older (hsnap.source_of_onMaster hitem hs hm) hsnap.sorted hsnap.follow hloop y₁ hy₁
        (hs₁.2.2.1.symm.trans (ho.2.1.trans hs.2.2.1)) (hsnap.source_of_onMaster hy₁ hs₁ ho.1) ?_
      rw [← hs₁.2.1, ← hs.2.1]
      exact ho.2.2
    · exact hi.bound x hx hinc (.inr hh) hm y hy hyi ho
  · cases htp
    exact hi.pass _ _ hp

theorem BranchInv.start {s t : Sys} {i n : Int} (hw : s.WF) (hi : s.BranchInv) (h : s.step (.start i n) = some t) :
    t.BranchInv := by
  obtain ⟨row, hf, hp, hm, rfl⟩ := step_start h
  have hrow := (Store.findStage_some hf).1
  have hinc : row.incomplete = true := by simp [Stage.incomplete, hp]
  refine hi.of_rows ?_ (rowsKept_startRow hrow n).builds (fun x hx _ hr => ?_) (fun _ h => h) rfl
  · rw [startRow_stages]
    exact limitKept_updateStage _ hrow ⟨rfl, rfl, rfl, rfl, rfl⟩ hinc rfl
  -- the build it starts is that of a stage an agent holds, which has no older master stage
  refine (runningMaster_startRow hr).imp_right fun ⟨⟨c, hc, ci, cs⟩, e⟩ y hy hyi ho => ?_
  exact hi.bound row hrow hinc (.inl hm) ⟨c, hc, ci.trans e, cs⟩ y hy hyi
    ⟨ho.1, ho.2.1.trans (hw.repoId_eq hx hrow e), lt_of_lt_of_eq ho.2.2 e⟩

theorem BranchInv.step {s t : Sys} {e : Event} (hw : s.WF) (hi : s.BranchInv) (hg : s.BranchGuard e)
    (h : s.step e = some t) : t.BranchInv := by
  have kept : List.Forall₂ BuildKept s.store.builds s.store.builds :=
    List.forall₂_same.2 fun b _ => .refl b
  cases e with
  | create b new => exact hi.create hw h
  | promote i => exact hi.promote hw hg h
  | snapshot =>
    obtain ⟨-, rfl⟩ := step_snapshot h
    refine ⟨hi.bound, hi.running, ?_⟩
    rintro _ _ ⟨⟩ x hx x' hx' e hinc hm
    obtain ⟨x₀, hx₀, -, rfl⟩ := Store.mem_listIncomplete.1 hx
    obtain rfl := Store.stage_eq_of_id hx' hx₀ e
    refine ⟨fun hrun => hi.running x' hx' hinc ?_, fun y hy hyi _ =>
      List.mem_map.2 ⟨_, Store.mem_listIncomplete.2 ⟨y, hy, hyi, rfl⟩, rfl⟩⟩
    -- the snapshot joined the build's row, so the build was running
    obtain ⟨c, hc, ci, cs⟩ := hm
    refine ⟨c, hc, ci, cs, ?_⟩
    simpa only [← ci, Store.findBuild_of_mem hc, Option.getD_some] using hrun
  | handOff => exact hi.handOff hw h
  | skipItem =>
    obtain ⟨items, item, rest, hp, rfl⟩ := step_skipItem h
    refine ⟨hi.bound, hi.running, ?_⟩
    rintro _ _ ⟨⟩
    exact hi.pass _ _ hp
  | endPass =>
    obtain ⟨_, -, rfl⟩ := step_endPass h
    exact ⟨hi.bound, hi.running, fun _ _ h => by cases h⟩
  | accept i m n =>
    obtain ⟨hin, rfl⟩ := step_accept h
    exact hi.of_kept (limitKept_acceptRow m n hin hg) (acceptRow_builds s.store i m n ▸ kept)
      (fun _ h => List.erase_subset _ _ h) rfl
  | acceptFail i =>
    obtain ⟨-, rfl⟩ := step_acceptFail h
    exact hi.of_kept (LimitKept.forall₂_refl _ _) kept (fun _ h => List.erase_subset _ _ h) rfl
  | start i n => exact hi.start hw h
  | finish i st n =>
    obtain ⟨row, hf, hinc, -, rfl⟩ := step_finish h
    exact hi.of_kept (limitKept_updateStage _ (Store.findStage_some hf).1 ⟨rfl, rfl, rfl, rfl, rfl⟩ hinc rfl)
      kept (fun _ h => h) rfl
  | cancel env i user =>
    obtain ⟨b, hb, rfl⟩ := step_cancel h
    exact hi.of_kept (limitKept_cancel _ env b user s.store)
      (buildKept_cancel (Store.findBuild_some hb).1 env user) (fun _ h => h) rfl
  | buildDone i st n =>
    obtain ⟨b, hb, -, hd, -, rfl⟩ := step_buildDone h
    refine hi.of_kept (LimitKept.forall₂_refl _ _) (Store.forall₂_updateBuild BuildKept.refl (Store.findBuild_some hb).1 rfl
      ⟨⟨rfl, rfl, rfl⟩, fun h' => ?_⟩) (fun _ h => h) rfl
    rw [show st = .running from h'] at hd
    cases hd

theorem BranchInv.init : Sys.init.BranchInv :=
  ⟨by simp [Sys.init], by simp [Sys.init], by simp [Sys.init]⟩

theorem BranchInv.guarded {s t : Sys} {es : List Event} (h : Guarded BranchGuard s es t) :
    s.WF → s.BranchInv → t.BranchInv := by
  induction h with
  | nil => exact fun _ hi => hi
  | cons hs hg _ ih => exact fun hw hi => ih (hw.step hs) (hi.step hw hg hs)

/-- In every run where each `Accept` finds its stage pending or running and a waiting
stage of a master build is promoted only while no other master build of its repository
has a pending or running stage, two incomplete stages with a machine, both of master
builds of one repository, are stages of one build. -/
theorem branch_respected {es : List Event} {t : Sys} (h : Guarded BranchGuard Sys.init es t) :
    ∀ x ∈ t.store.stages, ∀ y ∈ t.store.stages, x.incomplete = true → y.incomplete = true →
      x.machine ≠ "" → y.machine ≠ "" → t.store.OnMaster x → t.store.OnMaster y →
      x.repoId = y.repoId → x.buildId = y.buildId := by
  have hi := BranchInv.guarded h WF.init BranchInv.init
  intro x hx y hy hxi hyi hxm hym hmx hmy hr
  rcases lt_trichotomy x.buildId y.buildId with hlt | e | hlt
  · exact (hi.bound y hy hyi (.inl hym) hmy x hx hxi ⟨hmx, hr, hlt⟩).elim
  · exact e
  · exact (hi.bound x hx hxi (.inl hxm) hmx y hy hyi ⟨hmy, hr.symm, hlt⟩).elim

def masterRun : List Event :=
  [.create (mkBuild 1 "master") [mkStage 1 1 "build" .pending 0],
   .create (mkBuild 2 "master") [mkStage 2 2 "build" .pending 0],
   .snapshot, .handOff, .skipItem, .endPass, .accept 1 "m1" 100]

theorem branch_respected_two_builds :
    Guarded BranchGuard Sys.init masterRun ((Sys.init.run masterRun).getD Sys.init) ∧
      ∀ x ∈ ((Sys.init.run masterRun).getD Sys.init).store.stages,
        ∀ y ∈ ((Sys.init.run masterRun).getD Sys.init).store.stages,
        x.incomplete = true → y.incomplete = true → x.machine ≠ "" → y.machine ≠ "" →
        ((Sys.init.run masterRun).getD Sys.init).store.OnMaster x →
        ((Sys.init.run masterRun).getD Sys.init).store.OnMaster y → x.repoId = y.repoId → x.buildId = y.buildId := by
  have G : Guarded BranchGuard Sys.init masterRun ((Sys.init.run masterRun).getD Sys.init) :=
    .cons rfl trivial (.cons rfl trivial (.cons rfl trivial (.cons rfl trivial (.cons rfl trivial
      (.cons rfl trivial (.cons rfl (by simp only [BranchGuard]; decide) (.nil _)))))))
  exact ⟨G, branch_respected G⟩

/-- Run without the promotion condition, on master, both builds end up with an
incomplete stage with a machine. -/
theorem late_promotion_two_master_builds :
    ∃ s, Sys.init.run (lateRun "master" 0) = some s ∧
      ∃ b₁ ∈ s.store.builds, ∃ b₂ ∈ s.store.builds, b₁.id ≠ b₂.id ∧ b₁.repoId = b₂.repoId ∧
        b₁.source = "master" ∧ b₂.source = "master" ∧
        (∃ x ∈ s.store.stages, x.buildId = b₁.id ∧ x.incomplete = true ∧ x.machine ≠ "") ∧
        ∃ y ∈ s.store.stages, y.buildId = b₂.id ∧ y.incomplete = true ∧ y.machine ≠ "" :=
  ⟨_, rfl, by decide⟩

end Sys

end Drone

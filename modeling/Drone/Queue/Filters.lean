import Drone.Queue.Match

/-!
# The eligibility filters over a snapshot

`withinBranchLimits` stops at the first stage of another build of the stage's
repository, and decides by build age when both builds are on master. Over a snapshot in
build order that first stage belongs to the oldest such build, so the filter is the rule
"the oldest master build goes first" (`withinBranchLimits_iff`). `withinLimits` counts
the older stages of the stage's repository and name, so over a group of stages with one
limit `L > 0` it admits the group's `L` oldest stages (`withinLimits_group`). A negative
limit admits no stage at all, not even the oldest of a snapshot
(`oldest_stage_admitted`).
-/

namespace Drone

def Stage.OlderSibling (y x : Stage) : Prop := y.repoId = x.repoId ∧ y.name = x.name ∧ y.id < x.id

instance (y x : Stage) : Decidable (y.OlderSibling x) := by
  unfold Stage.OlderSibling; infer_instance

/-! ## What each filter computes -/

/-- The code's test `sibling.ID != stage.ID` is implied by `sibling.ID < stage.ID`. -/
theorem withinLimits_iff (stage : Stage) (siblings : List Stage) :
    withinLimits stage siblings = true ↔
      stage.limit = 0 ∨
        ((siblings.countP fun y => decide (y.OlderSibling stage) : Nat) : Int) < stage.limit := by
  unfold withinLimits
  by_cases hl : stage.limit = 0
  · simp [hl]
  · rw [if_neg hl, decide_eq_true_iff, or_iff_right hl, List.countP_congr fun y _ => ?_]
    simp only [Stage.OlderSibling, Bool.and_eq_true, beq_iff_eq, bne_iff_ne, ne_eq, decide_eq_true_eq]
    exact ⟨fun h => ⟨h.1.1.1, h.1.2, h.2⟩, fun h => ⟨⟨⟨h.1, h.2.2.ne⟩, h.2.1⟩, h.2.2⟩⟩

theorem loop_iff (stage : Stage) : ∀ {siblings : List Stage},
    (siblings.map Stage.buildId).Pairwise (· ≤ ·) →
      (withinBranchLimits.loop stage siblings = true ↔ (stage.build.source = "master" →
        ∀ y ∈ siblings, y.repoId = stage.repoId → y.buildId ≠ stage.buildId →
          y.build.source = "master" → stage.buildId < y.buildId))
  | [], _ => by simp [withinBranchLimits.loop]
  | sib :: rest, hs => by
    rw [List.map_cons, List.pairwise_cons] at hs
    have ih := loop_iff stage hs.2
    unfold withinBranchLimits.loop
    split_ifs with h₁ h₂
    · -- a stage of the same build or of another repository: the loop goes on
      rw [ih, List.forall_mem_cons]
      exact ⟨fun h hm => ⟨fun hr hb => (h₁.elim hb fun h => h hr).elim, h hm⟩, fun h hm => (h hm).2⟩
    · -- the first stage of another build of the repository, both on master
      rw [decide_eq_true_iff, List.forall_mem_cons]
      refine ⟨fun hlt _ => ⟨fun _ _ _ => hlt, fun y hy _ _ _ => ?_⟩,
        fun h => (h h₂.2).1 (not_ne_iff.1 (not_or.1 h₁).2) (not_or.1 h₁).1 h₂.1⟩
      exact lt_of_lt_of_le hlt (hs.1 y.buildId (List.mem_map_of_mem _ hy))
    · -- the first stage of another build of the repository, not both on master
      rw [ih, List.forall_mem_cons]
      exact ⟨fun h hm => ⟨fun _ _ hsm => (h₂ ⟨hsm, hm⟩).elim, h hm⟩, fun h hm => (h hm).2⟩

/-! ## The branch policy -/

/-- Over a snapshot in build order, a stage passes the branch filter exactly when its
build is running, is not on master, or is older than every other master build of its
repository in the snapshot. -/
theorem withinBranchLimits_iff (siblings : List Stage)
    (hs : (siblings.map Stage.buildId).Pairwise (· ≤ ·)) (stage : Stage) :
    withinBranchLimits stage siblings = true ↔
      stage.build.status = .running ∨ stage.build.source ≠ "master" ∨
        ∀ y ∈ siblings, y.repoId = stage.repoId → y.buildId ≠ stage.buildId →
          y.build.source = "master" → stage.buildId < y.buildId := by
  rw [withinBranchLimits, Bool.or_eq_true, beq_iff_eq, loop_iff stage hs, imp_iff_not_or]

def snapStage (id buildId : Int) (source : String) (limit : Int) : Stage :=
  { id := id, buildId := buildId, repoId := 1, name := "build", os := "linux", arch := "amd64",
    variant := "", kernel := "", labels := ∅, machine := "", status := .pending, started := 0,
    stopped := 0, limit := limit, updated := 0, version := 1,
    build := ⟨buildId, 1, .pending, "push", source, 0, 0⟩ }

def twoMasterBuilds : List Stage := [snapStage 1 1 "master" 0, snapStage 2 2 "master" 0]

theorem withinBranchLimits_two_master_builds :
    (twoMasterBuilds.map Stage.buildId).Pairwise (· ≤ ·) ∧
      (withinBranchLimits (snapStage 2 2 "master" 0) twoMasterBuilds = true ↔
        (snapStage 2 2 "master" 0).build.status = .running ∨
          (snapStage 2 2 "master" 0).build.source ≠ "master" ∨
          ∀ y ∈ twoMasterBuilds, y.repoId = (snapStage 2 2 "master" 0).repoId →
            y.buildId ≠ (snapStage 2 2 "master" 0).buildId → y.build.source = "master" →
              (snapStage 2 2 "master" 0).buildId < y.buildId) :=
  ⟨by decide, withinBranchLimits_iff twoMasterBuilds (by decide) _⟩

theorem withinBranchLimits_head (first : Stage) (rest : List Stage)
    (hb : ((first :: rest).map Stage.buildId).Pairwise (· ≤ ·)) :
    withinBranchLimits first (first :: rest) = true := by
  have hb' := (List.pairwise_cons.1 (List.map_cons _ _ _ ▸ hb)).1
  rw [withinBranchLimits, Bool.or_eq_true, loop_iff first hb]
  refine .inr fun _ y hy _ hne _ => ?_
  rcases List.mem_cons.1 hy with rfl | hy
  · exact absurd rfl hne
  · exact lt_of_le_of_ne (hb' _ (List.mem_map_of_mem _ hy)) (Ne.symm hne)

theorem withinLimits_head_iff (first : Stage) (rest : List Stage)
    (hid : ((first :: rest).map Stage.id).Pairwise (· < ·)) :
    withinLimits first (first :: rest) = true ↔ 0 ≤ first.limit := by
  rw [List.map_cons, List.pairwise_cons] at hid
  have h0 : (first :: rest).countP (fun y => decide (y.OlderSibling first)) = 0 := by
    refine List.countP_eq_zero.2 fun y hy ho => ?_
    rcases List.mem_cons.1 hy with rfl | hy
    · exact lt_irrefl _ (of_decide_eq_true ho).2.2
    · exact lt_asymm (of_decide_eq_true ho).2.2 (hid.1 _ (List.mem_map_of_mem _ hy))
  rw [withinLimits_iff, h0]
  omega

/-- The oldest stage of a snapshot in id and build order passes the branch filter, and
passes the limit filter exactly when its limit is not negative. -/
theorem oldest_stage_admitted (first : Stage) (rest : List Stage)
    (hid : ((first :: rest).map Stage.id).Pairwise (· < ·))
    (hb : ((first :: rest).map Stage.buildId).Pairwise (· ≤ ·)) :
    withinBranchLimits first (first :: rest) = true ∧
      (withinLimits first (first :: rest) = true ↔ 0 ≤ first.limit) :=
  ⟨withinBranchLimits_head first rest hb, withinLimits_head_iff first rest hid⟩

theorem oldest_stage_negative_limit :
    ([snapStage 1 1 "main" (-1)].map Stage.id).Pairwise (· < ·) ∧
      ([snapStage 1 1 "main" (-1)].map Stage.buildId).Pairwise (· ≤ ·) ∧
      (withinBranchLimits (snapStage 1 1 "main" (-1)) [snapStage 1 1 "main" (-1)] = true ∧
        (withinLimits (snapStage 1 1 "main" (-1)) [snapStage 1 1 "main" (-1)] = true ↔
          0 ≤ (snapStage 1 1 "main" (-1)).limit)) ∧
      withinLimits (snapStage 1 1 "main" (-1)) [snapStage 1 1 "main" (-1)] = false :=
  ⟨by decide, by decide, oldest_stage_admitted _ [] (by decide) (by decide), by decide⟩

/-! ## The concurrency limit over one group -/

def limitGroup (stages : List Stage) (repoId : Int) (name : String) : List Stage :=
  stages.filter fun s => s.repoId == repoId && s.name == name

theorem filter_rank_eq_take : ∀ {l : List Stage}, l.Pairwise (fun a b => a.id < b.id) → ∀ k : Nat,
    l.filter (fun s => decide (l.countP (fun t => decide (t.id < s.id)) < k)) = l.take k
  | [], _, _ => by simp
  | a :: t, h, k => by
    rw [List.pairwise_cons] at h
    have ha : (a :: t).countP (fun u => decide (u.id < a.id)) = 0 :=
      List.countP_eq_zero.2 fun u hu hlt => by
        rcases List.mem_cons.1 hu with rfl | hu
        · exact lt_irrefl _ (of_decide_eq_true hlt)
        · exact lt_asymm (of_decide_eq_true hlt) (h.1 u hu)
    have hs : ∀ s ∈ t, (a :: t).countP (fun u => decide (u.id < s.id)) =
        t.countP (fun u => decide (u.id < s.id)) + 1 := fun s hs => by
      rw [List.countP_cons, if_pos (decide_eq_true (h.1 s hs))]
    cases k with
    | zero => simp [List.filter_eq_nil_iff]
    | succ k =>
      have hrest : (t.filter fun s => decide ((a :: t).countP (fun u => decide (u.id < s.id)) < k + 1)) =
          t.filter fun s => decide (t.countP (fun u => decide (u.id < s.id)) < k) :=
        List.filter_congr fun s hs' => by rw [hs s hs']; simp
      rw [List.filter_cons, ha, if_pos (by simp), List.take_succ_cons, hrest, filter_rank_eq_take h.2 k]

theorem countP_olderSibling_group {stages : List Stage} {repoId : Int} {name : String} {s : Stage}
    (hs : s ∈ limitGroup stages repoId name) :
    stages.countP (fun y => decide (y.OlderSibling s)) =
      (limitGroup stages repoId name).countP fun t => decide (t.id < s.id) := by
  obtain ⟨hr, hn⟩ : s.repoId = repoId ∧ s.name = name := by simpa using (List.mem_filter.1 hs).2
  rw [limitGroup, List.countP_filter]
  refine List.countP_congr fun y _ => ?_
  simp only [Stage.OlderSibling, hr, hn, decide_eq_true_eq, Bool.and_eq_true, beq_iff_eq]
  tauto

theorem mergeSort_id_pairwise {l : List Stage} (hid : (l.map Stage.id).Nodup) :
    (l.mergeSort fun a b => decide (a.id ≤ b.id)).Pairwise fun a b => a.id < b.id := by
  have hle := @List.sorted_mergeSort _ (fun a b : Stage => decide (a.id ≤ b.id))
    (fun a b c hab hbc => by simp only [decide_eq_true_eq] at *; omega)
    (fun a b => by simp only [Bool.or_eq_true, decide_eq_true_eq]; omega) l
  have hne := List.pairwise_map.1
    (((List.mergeSort_perm l fun a b => decide (a.id ≤ b.id)).map Stage.id).nodup_iff.2 hid)
  exact (hle.and hne).imp fun h => lt_of_le_of_ne (of_decide_eq_true h.1) h.2

/-- Over a list with distinct ids, in a group of one repository and name whose stages
all have limit `L`, `withinLimits` admits every stage when `L = 0`, and when `L > 0`
exactly the group's `L` oldest stages, or all of them if there are fewer. -/
theorem withinLimits_group (stages : List Stage) (hid : (stages.map Stage.id).Nodup)
    (repoId : Int) (name : String) (L : Int) (hL : ∀ s ∈ limitGroup stages repoId name, s.limit = L) :
    (L = 0 → ∀ s ∈ limitGroup stages repoId name, withinLimits s stages = true) ∧
      (0 < L →
        ((limitGroup stages repoId name).filter (withinLimits · stages)).Perm
            (((limitGroup stages repoId name).mergeSort fun a b => decide (a.id ≤ b.id)).take L.toNat) ∧
          (((limitGroup stages repoId name).filter (withinLimits · stages)).length : Int) =
            min L (limitGroup stages repoId name).length) := by
  set G := limitGroup stages repoId name
  set S := G.mergeSort fun a b => decide (a.id ≤ b.id) with hS
  have hGS : S.Perm G := List.mergeSort_perm G _
  have hGid : (G.map Stage.id).Nodup := ((List.filter_sublist _).map _).nodup hid
  refine ⟨fun h0 s hs => (withinLimits_iff s stages).2 (.inl ((hL s hs).trans h0)), fun hpos => ?_⟩
  -- in the sorted group a stage is admitted exactly when fewer than `L` stages come before it
  have hfilter : S.filter (withinLimits · stages) = S.take L.toNat := by
    rw [← filter_rank_eq_take (mergeSort_id_pairwise hGid), ← hS]
    refine List.filter_congr fun s hs => ?_
    have hs' := List.mem_mergeSort.1 hs
    rw [Bool.eq_iff_iff, withinLimits_iff, countP_olderSibling_group hs', ← hGS.countP_eq, hL s hs',
      decide_eq_true_iff]
    omega
  have hperm := (hGS.filter (withinLimits · stages)).symm
  refine ⟨hfilter ▸ hperm, ?_⟩
  rw [hperm.length_eq, hfilter, List.length_take, List.length_mergeSort]
  omega

def threeLimited : List Stage := [snapStage 1 1 "main" 2, snapStage 2 2 "main" 2, snapStage 3 3 "main" 2]

theorem withinLimits_group_three :
    (threeLimited.map Stage.id).Nodup ∧ (∀ s ∈ limitGroup threeLimited 1 "build", s.limit = 2) ∧
      ((2 : Int) = 0 → ∀ s ∈ limitGroup threeLimited 1 "build", withinLimits s threeLimited = true) ∧
      ((0 : Int) < 2 →
        ((limitGroup threeLimited 1 "build").filter (withinLimits · threeLimited)).Perm
            (((limitGroup threeLimited 1 "build").mergeSort fun a b => decide (a.id ≤ b.id)).take
              (2 : Int).toNat) ∧
          (((limitGroup threeLimited 1 "build").filter (withinLimits · threeLimited)).length : Int) =
            min 2 (limitGroup threeLimited 1 "build").length) :=
  ⟨by decide, by decide, withinLimits_group threeLimited (by decide) 1 "build" 2 (by decide)⟩

end Drone

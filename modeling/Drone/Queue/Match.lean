import Drone.Core

/-!
# One dispatch pass of the queue

`signalLoop` is the part of `queue.signal` that runs under the re-taken lock: it
walks the `ListIncomplete` snapshot in order, drops the stages the eligibility
filters reject, and hands each remaining one to the first waiting worker, in the
map's iteration order, whose platform fits. `signalLoop_greedy` shows that for every
iteration order the pass is a run of the reference greedy matcher `Greedy`.
-/

namespace Drone

/-- `queue.worker`, without its channel; `id` stands for the pointer that keys the
`q.workers` map. -/
structure Worker where
  id : Nat
  os : String
  arch : String
  kernel : String
  variant : String
  labels : Labels

/-- `checkLabels`: the maps have the same size and every entry of `a` is in `b`. -/
def checkLabels (a b : Labels) : Bool :=
  a.entries.length == b.entries.length && a.entries.all fun e => b.lookup e.1 == some e.2

/-- `withinLimits`: a stage with a limit runs only if fewer than `Limit` older
stages of the same repository and name are in the list. -/
def withinLimits (stage : Stage) (siblings : List Stage) : Bool :=
  if stage.limit = 0 then true
  else
    let count := siblings.countP fun sibling =>
      sibling.repoId == stage.repoId && sibling.id != stage.id &&
        sibling.name == stage.name && decide (sibling.id < stage.id)
    decide ((count : Int) < stage.limit)

/-- `withinBranchLimits`: a stage of a running build may run; otherwise the first
stage of another build of the same repository decides, when both builds are on
master, by which build is older. -/
def withinBranchLimits (stage : Stage) (siblings : List Stage) : Bool :=
  stage.build.status == .running || loop siblings
where
  loop : List Stage → Bool
    | [] => true
    | sibling :: rest =>
      if sibling.buildId = stage.buildId ∨ sibling.repoId ≠ stage.repoId then loop rest
      else if sibling.build.source = "master" ∧ stage.build.source = "master" then
        decide (stage.buildId < sibling.buildId)
      else loop rest

/-- The filters `signal` applies to an item of the snapshot, in the code's order. -/
def eligible (items : List Stage) (item : Stage) : Bool :=
  withinBranchLimits item items && item.status != .running && item.machine == "" &&
    withinLimits item items

/-- The platform checks of the inner worker loop of `signal`. -/
def platformMatch (w : Worker) (item : Stage) : Bool :=
  w.os == item.os && w.arch == item.arch &&
    (item.variant == "" || item.variant == w.variant) &&
    (item.kernel == "" || item.kernel == w.kernel) &&
    (!(decide (0 < item.labels.entries.length) || decide (0 < w.labels.entries.length)) ||
      checkLabels item.labels w.labels)

/-- `delete(q.workers, w)`: the map is keyed by the worker's pointer. -/
def removeWorker (ws : List Worker) (w : Worker) : List Worker :=
  ws.filter fun v => v.id != w.id

/-- The loop of `signal` over its snapshot `items` (lines 121–186) when every
hand-off send is received. `order item ws` is the order in which `range q.workers`
visits the waiting workers `ws` for `item`. Returns the hand-offs and the workers
still waiting. -/
def signalLoop (items : List Stage) (order : Stage → List Worker → List Worker) :
    List Stage → List Worker → List (Stage × Worker) × List Worker
  | [], ws => ([], ws)
  | item :: rest, ws =>
    if eligible items item then
      match (order item ws).find? (platformMatch · item) with
      | some w =>
        let r := signalLoop items order rest (removeWorker ws w)
        ((item, w) :: r.1, r.2)
      | none => signalLoop items order rest ws
    else signalLoop items order rest ws

/-! ## The reference matcher -/

def Fits (w : Worker) (item : Stage) : Prop :=
  w.os = item.os ∧ w.arch = item.arch ∧ (item.variant = "" ∨ item.variant = w.variant) ∧
    (item.kernel = "" ∨ item.kernel = w.kernel) ∧ ∀ k, item.labels.lookup k = w.labels.lookup k

def Eligible (items : List Stage) (item : Stage) : Prop :=
  item.status ≠ .running ∧ item.machine = "" ∧ withinBranchLimits item items = true ∧
    withinLimits item items = true

/-- The greedy matcher: walking the list in order, each eligible stage goes to one
still-waiting worker that fits it, if one remains, and to no worker otherwise. -/
inductive Greedy (items : List Stage) :
    List Stage → List Worker → List (Stage × Worker) → List Worker → Prop
  | nil (ws : List Worker) : Greedy items [] ws [] ws
  | skip {item rest ws hs ws'} : ¬ Eligible items item → Greedy items rest ws hs ws' →
      Greedy items (item :: rest) ws hs ws'
  | unmatched {item rest ws hs ws'} : Eligible items item → (∀ w ∈ ws, ¬ Fits w item) →
      Greedy items rest ws hs ws' → Greedy items (item :: rest) ws hs ws'
  | serve {item rest ws hs ws' w} : Eligible items item → w ∈ ws → Fits w item →
      Greedy items rest (removeWorker ws w) hs ws' →
      Greedy items (item :: rest) ws ((item, w) :: hs) ws'

/-! ## Label maps and the filters -/

theorem lookup_eq_entry_iff (c : Labels) (e : Sigma fun _ : String => String) :
    c.lookup e.1 = some e.2 ↔ e ∈ c.entries := by
  rw [← Option.mem_def, AList.mem_lookup_iff]

theorem checkLabels_iff (a b : Labels) :
    checkLabels a b = true ↔ ∀ k, a.lookup k = b.lookup k := by
  simp only [checkLabels, Bool.and_eq_true, beq_iff_eq, List.all_eq_true, lookup_eq_entry_iff]
  constructor
  · rintro ⟨hlen, hsub⟩ k
    exact AList.perm_lookup ((List.subperm_of_subset a.nodupKeys.nodup hsub).perm_of_length_le hlen.ge)
  · intro h
    have hp : a.entries.Perm b.entries :=
      List.lookup_ext a.nodupKeys b.nodupKeys fun x y => by
        simp only [Option.mem_def]; exact Eq.congr_left (h x)
    exact ⟨hp.length_eq, fun e he => hp.subset he⟩

/-- `checkLabels` is equality of finite maps, the same keys with the same value at each,
so it does not depend on the order of its arguments: the size check and the one-way
inclusion of entries suffice because keys are distinct. -/
theorem checkLabels_iff_same_map (a b : Labels) :
    (checkLabels a b = true ↔ (∀ k, k ∈ a ↔ k ∈ b) ∧ ∀ k, a.lookup k = b.lookup k) ∧
      checkLabels a b = checkLabels b a := by
  have hkeys : (∀ k, a.lookup k = b.lookup k) → ∀ k, k ∈ a ↔ k ∈ b := fun h k => by
    rw [← AList.lookup_isSome, ← AList.lookup_isSome, h k]
  refine ⟨by rw [checkLabels_iff]; exact ⟨fun h => ⟨hkeys h, h⟩, And.right⟩, ?_⟩
  rw [Bool.eq_iff_iff, checkLabels_iff, checkLabels_iff]
  exact forall_congr' fun k => eq_comm

/-- The size guard around `checkLabels` in `signal` decides nothing: two empty maps
pass `checkLabels` too. -/
theorem labelGuard_eq (a b : Labels) :
    (!(decide (0 < a.entries.length) || decide (0 < b.entries.length)) || checkLabels a b) =
      checkLabels a b := by
  cases ha : a.entries with
  | nil =>
    cases hb : b.entries with
    | nil => simp [checkLabels, ha, hb]
    | cons => simp [hb]
  | cons => simp [ha]

theorem platformMatch_iff (w : Worker) (item : Stage) :
    platformMatch w item = true ↔ Fits w item := by
  simp only [platformMatch, labelGuard_eq, Bool.and_eq_true, Bool.or_eq_true, beq_iff_eq,
    checkLabels_iff, Fits, and_assoc]

theorem eligible_iff (items : List Stage) (item : Stage) :
    eligible items item = true ↔ Eligible items item := by
  simp only [eligible, Eligible, Bool.and_eq_true, bne_iff_ne, ne_eq, beq_iff_eq]
  tauto

/-! ## A pass is a greedy run -/

section
variable (items : List Stage) (order : Stage → List Worker → List Worker)
  (horder : ∀ s vs, (order s vs).Perm vs)
include horder

theorem signalLoop_greedy_run : ∀ (rest : List Stage) (ws : List Worker),
    Greedy items rest ws (signalLoop items order rest ws).1 (signalLoop items order rest ws).2
  | [], ws => .nil ws
  | item :: rest, ws => by
    by_cases he : eligible items item = true
    · have he' := (eligible_iff items item).1 he
      cases hf : (order item ws).find? (platformMatch · item) with
      | none =>
        simp only [signalLoop, he, if_true, hf]
        refine .unmatched he' (fun w hw hfit => ?_) (signalLoop_greedy_run rest ws)
        exact List.find?_eq_none.1 hf w ((horder item ws).mem_iff.2 hw) ((platformMatch_iff w item).2 hfit)
      | some w =>
        simp only [signalLoop, he, if_true, hf]
        have hm : platformMatch w item = true := List.find?_some (p := fun x => platformMatch x item) hf
        exact .serve he' ((horder item ws).mem_iff.1 (List.mem_of_find?_eq_some hf))
          ((platformMatch_iff w item).1 hm) (signalLoop_greedy_run rest _)
    · simp only [signalLoop, he, if_false]
      exact .skip (fun h => he ((eligible_iff items item).2 h)) (signalLoop_greedy_run rest ws)
end

namespace Greedy
variable {items l : List Stage} {ws ws' : List Worker} {hs : List (Stage × Worker)}

theorem mem_removeWorker {ws : List Worker} {w v : Worker} :
    v ∈ removeWorker ws w ↔ v ∈ ws ∧ v.id ≠ w.id := by
  simp [removeWorker]

theorem served_mem (h : Greedy items l ws hs ws') : ∀ p ∈ hs, p.2 ∈ ws := by
  induction h with
  | nil => simp
  | skip _ _ ih => exact ih
  | unmatched _ _ _ ih => exact ih
  | serve _ hw _ _ ih =>
    intro p hp
    rcases List.mem_cons.1 hp with rfl | hp
    · exact hw
    · exact (mem_removeWorker.1 (ih p hp)).1

theorem remaining_iff (h : Greedy items l ws hs ws') (v : Worker) :
    v ∈ ws' ↔ v ∈ ws ∧ v.id ∉ hs.map (·.2.id) := by
  induction h with
  | nil => simp
  | skip _ _ ih => exact ih
  | unmatched _ _ _ ih => exact ih
  | serve _ _ _ _ ih => simp only [ih, mem_removeWorker, List.map_cons, List.mem_cons]; tauto

theorem served_nodup (h : Greedy items l ws hs ws') (hws : (ws.map Worker.id).Nodup) :
    (hs.map (·.2.id)).Nodup := by
  induction h with
  | nil => simp
  | skip _ _ ih => exact ih hws
  | unmatched _ _ _ ih => exact ih hws
  | @serve item rest ws hs ws' w _ _ _ hg ih =>
    have hsub : ((removeWorker ws w).map Worker.id).Nodup :=
      hws.sublist ((List.filter_sublist _).map _)
    refine List.nodup_cons.2 ⟨fun hw => ?_, ih hsub⟩
    obtain ⟨p, hp, hid⟩ := List.mem_map.1 hw
    exact (mem_removeWorker.1 (hg.served_mem p hp)).2 hid

theorem head_served {item : Stage} {rest : List Stage} (h : Greedy items (item :: rest) ws hs ws')
    (he : Eligible items item) (hw : ∃ w ∈ ws, Fits w item) : ∃ w ∈ ws, Fits w item ∧ hs.head? = some (item, w) := by
  cases h with
  | skip hn _ => exact absurd he hn
  | unmatched _ hn _ =>
    obtain ⟨w, hw, hf⟩ := hw
    exact absurd hf (hn w hw)
  | serve _ hw hf _ => exact ⟨_, hw, hf, rfl⟩

theorem stages_sublist (h : Greedy items l ws hs ws') : (hs.map Prod.fst).Sublist l := by
  induction h with
  | nil => simp
  | skip _ _ ih => exact ih.cons _
  | unmatched _ _ _ ih => exact ih.cons _
  | serve _ _ _ _ ih => exact ih.cons₂ _

end Greedy

theorem signalLoop_greedy (items : List Stage) (hitems : (items.map Stage.id).Nodup)
    (ws : List Worker) (hws : (ws.map Worker.id).Nodup)
    (order : Stage → List Worker → List Worker) (horder : ∀ s vs, (order s vs).Perm vs) :
    Greedy items items ws (signalLoop items order items ws).1 (signalLoop items order items ws).2 ∧
      ((signalLoop items order items ws).1.map (·.1.id)).Nodup ∧
      ((signalLoop items order items ws).1.map (·.2.id)).Nodup ∧
      ∀ v, v ∈ (signalLoop items order items ws).2 ↔
        v ∈ ws ∧ v.id ∉ (signalLoop items order items ws).1.map (·.2.id) := by
  have hg := signalLoop_greedy_run items order horder items ws
  refine ⟨hg, ?_, hg.served_nodup hws, hg.remaining_iff⟩
  have := hitems.sublist (hg.stages_sublist.map Stage.id)
  simpa using this

def linuxStage : Stage :=
  { id := 1, buildId := 1, repoId := 1, name := "default", os := "linux", arch := "amd64",
    variant := "", kernel := "", labels := ∅, machine := "", status := .pending,
    started := 0, stopped := 0, limit := 0, updated := 0, version := 1,
    build := ⟨1, 1, .pending, "push", "main", 0, 0⟩ }

def linuxWorker : Worker := ⟨0, "linux", "amd64", "", "", ∅⟩

theorem signalLoop_greedy_linux :
    ([linuxStage].map Stage.id).Nodup ∧ ([linuxWorker].map Worker.id).Nodup ∧
      Greedy [linuxStage] [linuxStage] [linuxWorker]
        (signalLoop [linuxStage] (fun _ vs => vs) [linuxStage] [linuxWorker]).1
        (signalLoop [linuxStage] (fun _ vs => vs) [linuxStage] [linuxWorker]).2 :=
  ⟨by decide, by decide, (signalLoop_greedy [linuxStage] (by decide) [linuxWorker] (by decide)
    (fun _ vs => vs) fun _ _ => .refl _).1⟩

end Drone

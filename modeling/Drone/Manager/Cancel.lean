import Drone.Core

/-!
# Cancel

`Manager.Cancel` refuses a finished build, writes it back killed, signals the
scheduler and the SCM, and then walks the build's stages and their steps, killing
what has started and skipping what has not. It returns at the first collaborator
call that fails and keeps what it already wrote. `cancel_ok_rows` describes the
store after a successful call and `cancel_error_rows` after a failed one.
-/

namespace Drone

inductive CancelCall
  | buildsUpdate
  | schedulerCancel
  | statusSend
  | listSteps
  | stagesUpdate (id : Int)
  | stepsUpdate (id : Int)

/-- What `Cancel` cannot see: the successive readings of `time.Now().Unix()`, and which
collaborator calls fail. -/
structure CancelEnv where
  clock : Nat → Int
  fails : CancelCall → Bool

/-- The writes into the build (lines 478–482) and the clock readings they take. -/
def killBuild (clock : Nat → Int) (build : Build) : Build × Nat :=
  if build.started = 0 then ({ build with status := .killed, finished := clock 0, started := clock 1 }, 2)
  else ({ build with status := .killed, finished := clock 0 }, 1)

/-- The writes into a stage that is not done (lines 510–516), reading the clock from
position `n`. -/
def killStage (clock : Nat → Int) (n : Nat) (stage : Stage) : Stage × Nat :=
  if stage.started ≠ 0 then ({ stage with status := .killed, stopped := clock n }, n + 1)
  else ({ stage with status := .skipped, started := clock n, stopped := clock (n + 1) }, n + 2)

/-- The writes into a step that is not done (lines 525–532). -/
def killStep (clock : Nat → Int) (n : Nat) (step : Step) : Step × Nat :=
  if step.started ≠ 0 then ({ step with status := .killed, stopped := clock n, exitCode := 130 }, n + 1)
  else
    ({ step with status := .skipped, started := clock n, stopped := clock (n + 1), exitCode := 130 },
      n + 2)

/-- The loop over a stage's steps (lines 521–536): the store, the clock position, and
the error it stopped at. Errors are the format strings of `fmt.Errorf` up to the
wrapped error. -/
def cancelSteps (env : CancelEnv) : List Step → Store → Nat → Store × Nat × Option String
  | [], st, n => (st, n, none)
  | step :: rest, st, n =>
    if step.status.isDone then cancelSteps env rest st n
    else
      let r := killStep env.clock n step
      if env.fails (.stepsUpdate step.id) then (st, r.2, some "cannot update step status")
      else cancelSteps env rest (st.updateStep r.1) r.2

/-- The loop over the build's stages (lines 506–537). -/
def cancelStages (env : CancelEnv) :
    List (Stage × List Step) → Store → Nat → Store × Nat × Option String
  | [], st, n => (st, n, none)
  | (stage, steps) :: rest, st, n =>
    if stage.status.isDone then cancelStages env rest st n
    else
      let r := killStage env.clock n stage
      if env.fails (.stagesUpdate stage.id) then (st, r.2, some "cannot update stage status")
      else
        match cancelSteps env steps (st.updateStage r.1) r.2 with
        | (st, n, none) => cancelStages env rest st n
        | e => e

/-- The store after `Cancel`, whether `Scheduler.Cancel` was told, and the error
returned (`none` is nil). -/
structure CancelResult where
  store : Store
  signalled : Bool
  err : Option String

/-- `Manager.Cancel(build, repo, user)`; `user` says whether a user is passed. The
webhook at the end only logs its failure, so it changes nothing here. -/
def cancel (env : CancelEnv) (build : Build) (user : Bool) (st : Store) : CancelResult :=
  if build.status ≠ .pending ∧ build.status ≠ .running then
    ⟨st, false, some "cannot cancel completed build"⟩
  else
    let b := killBuild env.clock build
    if env.fails .buildsUpdate then ⟨st, false, some "cannot update build status to cancelled"⟩
    else
      let st := st.updateBuild b.1
      if env.fails .schedulerCancel then ⟨st, false, some "cannot signal cancelled build is complete"⟩
      else if user ∧ env.fails .statusSend then ⟨st, true, some "cannot set status"⟩
      else if env.fails .listSteps then ⟨st, true, some "cannot list build stages"⟩
      else
        let r := cancelStages env (st.listSteps b.1.id) st b.2
        ⟨r.1, true, r.2.2⟩

/-! ## Loops of keyed writes -/
section Sweep
variable {α : Type} (key : α → Int) (done : α → Bool) (kill : Nat → α → α)

def Killed (L : List α) (i : Int) (y : α) : Prop :=
  ∃ u ∈ L, key u = i ∧ done u = false ∧ ∃ k, y = kill k u

def Swept (L T T' : List α) (full : Prop) : Prop :=
  ∃ F : α → α, T' = T.map F ∧ ∀ x, (F x = x ∨ Killed key done kill L (key x) (F x)) ∧
    (full → (∃ u ∈ L, key u = key x ∧ done u = false) → Killed key done kill L (key x) (F x))

variable {key done kill}

theorem Killed.mono {L L' : List α} {i : Int} {y : α} (h : Killed key done kill L i y)
    (hL : L ⊆ L') : Killed key done kill L' i y := by
  obtain ⟨u, hu, h⟩ := h
  exact ⟨u, hL hu, h⟩

theorem swept_refl (L T : List α) : Swept key done kill L T T False :=
  ⟨id, (List.map_id T).symm, fun _ => ⟨.inl rfl, False.elim⟩⟩

theorem swept_nil (T : List α) (full : Prop) : Swept key done kill [] T T full :=
  ⟨id, (List.map_id T).symm, fun _ => ⟨.inl rfl, fun _ ⟨_, h, _⟩ => absurd h (List.not_mem_nil _)⟩⟩

theorem Swept.weaken {L T T' : List α} {full full' : Prop} (h : Swept key done kill L T T' full)
    (hf : full' → full) : Swept key done kill L T T' full' := by
  obtain ⟨F, rfl, hF⟩ := h
  exact ⟨F, rfl, fun x => ⟨(hF x).1, fun h' => (hF x).2 (hf h')⟩⟩

theorem Swept.skip {u : α} {L T T' : List α} {full : Prop} (hu : done u = true)
    (h : Swept key done kill L T T' full) : Swept key done kill (u :: L) T T' full := by
  obtain ⟨F, rfl, hF⟩ := h
  refine ⟨F, rfl, fun x => ⟨(hF x).1.imp_right fun hk => hk.mono (List.subset_cons_self _ _), ?_⟩⟩
  rintro hfull ⟨v, hv, hk, hd⟩
  rcases List.mem_cons.1 hv with rfl | hv
  · simp [hu] at hd
  · exact ((hF x).2 hfull ⟨v, hv, hk, hd⟩).mono (List.subset_cons_self _ _)

variable (hkey : ∀ k u, key (kill k u) = key u)
include hkey

theorem swept_write {u : α} (hu : done u = false) (k : Nat) (T : List α) :
    Swept key done kill [u] T (replaceBy key (kill k u) T) True := by
  refine ⟨fun x => if key x = key (kill k u) then kill k u else x, rfl, fun x => ?_⟩
  by_cases hx : key x = key (kill k u)
  · have hw : Killed key done kill [u] (key x) (kill k u) :=
      ⟨u, List.mem_singleton_self _, by rw [hx, hkey], hu, k, rfl⟩
    simp only [hx, if_true]
    exact ⟨.inr (hx ▸ hw), fun _ _ => hx ▸ hw⟩
  · refine ⟨.inl (if_neg hx), fun _ ⟨v, hv, hk, _⟩ => ?_⟩
    rw [List.mem_singleton.1 hv, ← hkey k u] at hk
    exact absurd hk.symm hx

theorem Swept.trans {L₁ L₂ T T₁ T₂ : List α} {f₁ f₂ : Prop} (h₁ : Swept key done kill L₁ T T₁ f₁)
    (h₂ : Swept key done kill L₂ T₁ T₂ f₂) : Swept key done kill (L₁ ++ L₂) T T₂ (f₁ ∧ f₂) := by
  obtain ⟨F₁, rfl, hF₁⟩ := h₁
  obtain ⟨F₂, rfl, hF₂⟩ := h₂
  have hk₁ : ∀ x, key (F₁ x) = key x := fun x => by
    rcases (hF₁ x).1 with e | ⟨u, _, hu, _, k, e⟩
    · rw [e]
    · rw [e, hkey, hu]
  refine ⟨F₂ ∘ F₁, by rw [List.map_map], fun x => ⟨?_, ?_⟩⟩
  · rcases (hF₂ (F₁ x)).1 with e | hw
    · rcases (hF₁ x).1 with e' | hw'
      · exact .inl (by show F₂ (F₁ x) = x; rw [e, e'])
      · exact .inr (by simpa [e] using hw'.mono (List.subset_append_left _ _))
    · exact .inr (by simpa [hk₁] using hw.mono (List.subset_append_right _ _))
  · rintro ⟨hf₁, hf₂⟩ ⟨v, hv, hk, hd⟩
    by_cases h₂ : ∃ u ∈ L₂, key u = key x ∧ done u = false
    · simpa [hk₁] using ((hF₂ (F₁ x)).2 hf₂ (by simpa [hk₁] using h₂)).mono
        (List.subset_append_right L₁ L₂)
    · have hv₁ : v ∈ L₁ := by
        rcases List.mem_append.1 hv with hv | hv
        · exact hv
        · exact absurd ⟨v, hv, hk, hd⟩ h₂
      have hw := (hF₁ x).2 hf₁ ⟨v, hv₁, hk, hd⟩
      rcases (hF₂ (F₁ x)).1 with e | ⟨u, hu, hku, hdu, _⟩
      · simpa [e] using hw.mono (List.subset_append_left _ _)
      · exact absurd ⟨u, hu, by rw [hku, hk₁], hdu⟩ h₂

end Sweep

theorem Swept.widen {α : Type} {key : α → Int} {done : α → Bool} {kill : Nat → α → α}
    {L L' T T' : List α} {full : Prop} (h : Swept key done kill L T T' full) (hL : L ⊆ L') :
    Swept key done kill L' T T' False := by
  obtain ⟨F, rfl, hF⟩ := h
  exact ⟨F, rfl, fun x => ⟨(hF x).1.imp_right fun hk => hk.mono hL, False.elim⟩⟩

def stageWrite (clock : Nat → Int) (k : Nat) (s : Stage) : Stage :=
  { (killStage clock k s).1 with version := s.version + 1 }

def stepWrite (clock : Nat → Int) (k : Nat) (t : Step) : Step := (killStep clock k t).1

@[simp] theorem stageWrite_id (clock : Nat → Int) (k : Nat) (s : Stage) :
    (stageWrite clock k s).id = s.id := by
  unfold stageWrite killStage; split <;> rfl

@[simp] theorem stepWrite_id (clock : Nat → Int) (k : Nat) (t : Step) :
    (stepWrite clock k t).id = t.id := by
  unfold stepWrite killStep; split <;> rfl

theorem updateStage_killStage (st : Store) (clock : Nat → Int) (k : Nat) (s : Stage) :
    (st.updateStage (killStage clock k s).1).stages = replaceBy Stage.id (stageWrite clock k s) st.stages := by
  unfold Store.updateStage stageWrite killStage; split <;> rfl

section
variable (env : CancelEnv)

def SweptSteps (L : List Step) (T T' : List Step) (full : Prop) : Prop :=
  Swept Step.id (·.status.isDone) (stepWrite env.clock) L T T' full

def SweptStages (L : List Stage) (T T' : List Stage) (full : Prop) : Prop :=
  Swept Stage.id (·.status.isDone) (stageWrite env.clock) L T T' full

theorem cancelSteps_spec : ∀ (L : List Step) (st : Store) (n : Nat),
    (cancelSteps env L st n).1.builds = st.builds ∧ (cancelSteps env L st n).1.stages = st.stages ∧
      SweptSteps env L st.steps (cancelSteps env L st n).1.steps ((cancelSteps env L st n).2.2 = none)
  | [], st, n => ⟨rfl, rfl, swept_nil _ _⟩
  | u :: rest, st, n => by
    by_cases hd : u.status.isDone
    · simp only [cancelSteps, hd, if_true]
      obtain ⟨h₁, h₂, h₃⟩ := cancelSteps_spec rest st n
      exact ⟨h₁, h₂, h₃.skip hd⟩
    · have hd' : u.status.isDone = false := by simpa using hd
      by_cases hf : env.fails (.stepsUpdate u.id)
      · simp only [cancelSteps, hd, hf, if_true, if_false]
        exact ⟨rfl, rfl, (swept_refl _ _).weaken (by simp)⟩
      · simp only [cancelSteps, hd, hf, if_false, Bool.false_eq_true]
        obtain ⟨h₁, h₂, h₃⟩ := cancelSteps_spec rest (st.updateStep (killStep env.clock n u).1)
          (killStep env.clock n u).2
        refine ⟨h₁, h₂, ?_⟩
        have hw := @swept_write _ Step.id (·.status.isDone) (stepWrite env.clock)
          (fun _ _ => stepWrite_id _ _ _) _ hd' n st.steps
        exact ((hw.trans (fun _ _ => stepWrite_id _ _ _) h₃).weaken fun h => ⟨trivial, h⟩)

end
section
variable (env : CancelEnv)

def openSteps (LS : List (Stage × List Step)) : List Step :=
  LS.flatMap fun p => if p.1.status.isDone then [] else p.2

theorem cancelStages_spec : ∀ (LS : List (Stage × List Step)) (st : Store) (n : Nat),
    (cancelStages env LS st n).1.builds = st.builds ∧
      SweptStages env (LS.map Prod.fst) st.stages (cancelStages env LS st n).1.stages
        ((cancelStages env LS st n).2.2 = none) ∧
      SweptSteps env (openSteps LS) st.steps (cancelStages env LS st n).1.steps
        ((cancelStages env LS st n).2.2 = none)
  | [], st, n => ⟨rfl, swept_nil _ _, swept_nil _ _⟩
  | (s, ts) :: rest, st, n => by
    by_cases hd : s.status.isDone
    · simp only [cancelStages, hd, if_true]
      obtain ⟨h₁, h₂, h₃⟩ := cancelStages_spec rest st n
      exact ⟨h₁, h₂.skip hd, by simpa [openSteps, hd] using h₃⟩
    · have hd' : s.status.isDone = false := by simpa using hd
      have hso : openSteps ((s, ts) :: rest) = ts ++ openSteps rest := by simp [openSteps, hd']
      by_cases hf : env.fails (.stagesUpdate s.id)
      · simp only [cancelStages, hd, hf, if_true, if_false]
        exact ⟨rfl, (swept_refl _ _).weaken (by simp), (swept_refl _ _).weaken (by simp)⟩
      · have hw := @swept_write _ Stage.id (·.status.isDone) (stageWrite env.clock)
          (fun _ _ => stageWrite_id _ _ _) _ hd' n st.stages
        rw [← updateStage_killStage st env.clock n s] at hw
        set st₁ := st.updateStage (killStage env.clock n s).1
        obtain ⟨g₁, g₂, g₃⟩ := cancelSteps_spec env ts st₁ (killStage env.clock n s).2
        rcases h : cancelSteps env ts st₁ (killStage env.clock n s).2 with ⟨st₂, m, _ | e⟩
        · simp only [cancelStages, hd, hf, if_false, Bool.false_eq_true, h]
          rw [h] at g₁ g₂ g₃
          obtain ⟨h₁, h₂, h₃⟩ := cancelStages_spec rest st₂ m
          refine ⟨h₁.trans g₁, ?_, ?_⟩
          · have := (hw.trans (fun _ _ => stageWrite_id _ _ _) (g₂ ▸ h₂))
            exact this.weaken fun h => ⟨trivial, h⟩
          · rw [hso]
            exact (g₃.trans (fun _ _ => stepWrite_id _ _ _) h₃).weaken fun h => ⟨rfl, h⟩
        · simp only [cancelStages, hd, hf, if_false, Bool.false_eq_true, h]
          rw [h] at g₁ g₂ g₃
          refine ⟨g₁, ((g₂ ▸ hw).widen (by simp)).weaken (by simp), ?_⟩
          rw [hso]
          exact (g₃.widen (List.subset_append_left _ _)).weaken (by simp)

end

def KeptOrWritten {α : Type} (P : α → Prop) (done : α → Bool) (write : Nat → α → α) (x y : α) : Prop :=
  y = x ∨ (P x ∧ done x = false ∧ ∃ k, y = write k x)

def Rewritten {α : Type} (P : α → Prop) (done : α → Bool) (write : Nat → α → α) (x y : α) : Prop :=
  (P x ∧ done x = false → ∃ k, y = write k x) ∧ (¬ (P x ∧ done x = false) → y = x)

theorem Swept.rows {α : Type} {key : α → Int} {done : α → Bool} {kill : Nat → α → α}
    {L T T' : List α} {full : Prop} (h : Swept key done kill L T T' full) (P : α → Prop)
    (hL : ∀ x ∈ T, x ∈ L ↔ P x) (hLT : ∀ u ∈ L, u ∈ T) (hT : (T.map key).Nodup) :
    List.Forall₂ (fun x y => KeptOrWritten P done kill x y ∧ (full → Rewritten P done kill x y)) T T' := by
  obtain ⟨F, rfl, hF⟩ := h
  refine List.forall₂_map_right_iff.2 (List.forall₂_same.2 fun x hx => ?_)
  have own : ∀ {y}, Killed key done kill L (key x) y → P x ∧ done x = false ∧ ∃ k, y = kill k x := by
    rintro y ⟨u, hu, hk, hd, k, rfl⟩
    obtain rfl := List.inj_on_of_nodup_map hT (hLT u hu) hx hk
    exact ⟨(hL u hx).1 hu, hd, k, rfl⟩
  have kept := (hF x).1.imp_right own
  refine ⟨kept, fun hf => ⟨fun ⟨hP, hd⟩ => (own ((hF x).2 hf ⟨x, (hL x hx).2 hP, rfl, hd⟩)).2.2, fun hn => ?_⟩⟩
  rcases kept with e | ⟨hP, hd, _⟩
  · exact e
  · exact absurd ⟨hP, hd⟩ hn

@[simp] theorem killBuild_id (clock : Nat → Int) (b : Build) : (killBuild clock b).1.id = b.id := by
  unfold killBuild; split <;> rfl

theorem killBuild_status (clock : Nat → Int) (b : Build) : (killBuild clock b).1.status = .killed := by
  unfold killBuild; split <;> rfl

theorem stageWrite_isDone (clock : Nat → Int) (k : Nat) (s : Stage) :
    (stageWrite clock k s).status.isDone = true ∧ (stageWrite clock k s).buildId = s.buildId := by
  unfold stageWrite killStage; split <;> exact ⟨rfl, rfl⟩

theorem listSteps_stages (st : Store) (i : Int) :
    (st.listSteps i).map Prod.fst = st.stages.filter (·.buildId == i) := by
  simp [Store.listSteps, Function.comp_def]

def Store.OpenStep (st : Store) (i : Int) (t : Step) : Prop :=
  ∃ s ∈ st.stages, s.id = t.stageId ∧ s.buildId = i ∧ s.status.isDone = false

theorem mem_openSteps (st : Store) (i : Int) (t : Step) :
    t ∈ openSteps (st.listSteps i) ↔ t ∈ st.steps ∧ st.OpenStep i t := by
  simp only [openSteps, Store.listSteps, List.flatMap, List.map_map, List.mem_flatten, List.mem_map,
    List.mem_filter, Function.comp_def, beq_iff_eq, Store.OpenStep]
  constructor
  · rintro ⟨_, ⟨s, ⟨hs, hb⟩, rfl⟩, ht⟩
    split at ht
    · cases ht
    · rename_i hd
      rw [List.mem_filter, beq_iff_eq] at ht
      exact ⟨ht.1, s, hs, ht.2.symm, hb, by simpa using hd⟩
  · rintro ⟨ht, s, hs, hid, hb, hd⟩
    exact ⟨_, ⟨s, ⟨hs, hb⟩, rfl⟩, by simp [hd, ht, hid]⟩

section
variable (env : CancelEnv) (build : Build) (user : Bool) (st : Store)

def cancelLoop : Store × Nat × Option String :=
  cancelStages env (st.listSteps build.id) (st.updateBuild (killBuild env.clock build).1)
    (killBuild env.clock build).2

theorem cancel_cases (hs : build.status = .pending ∨ build.status = .running) :
    ((cancel env build user st).store = st ∧ env.fails .buildsUpdate = true ∧
        (cancel env build user st).err ≠ none) ∨
      ((cancel env build user st).store = st.updateBuild (killBuild env.clock build).1 ∧
        (cancel env build user st).err ≠ none) ∨
      ((cancel env build user st).store = (cancelLoop env build st).1 ∧
        (cancel env build user st).err = (cancelLoop env build st).2.2) := by
  have hs' : ¬ (build.status ≠ .pending ∧ build.status ≠ .running) := by tauto
  unfold cancel
  simp only [hs', if_false, killBuild_id]
  split_ifs with hf <;> simp [cancelLoop, hf]

theorem cancelLoop_spec :
    (cancelLoop env build st).1.builds = replaceBy Build.id (killBuild env.clock build).1 st.builds ∧
      SweptStages env (st.stages.filter (·.buildId == build.id)) st.stages (cancelLoop env build st).1.stages
        ((cancelLoop env build st).2.2 = none) ∧
      SweptSteps env (openSteps (st.listSteps build.id)) st.steps (cancelLoop env build st).1.steps
        ((cancelLoop env build st).2.2 = none) := by
  obtain ⟨h₁, h₂, h₃⟩ := cancelStages_spec env (st.listSteps build.id)
    (st.updateBuild (killBuild env.clock build).1) (killBuild env.clock build).2
  rw [listSteps_stages] at h₂
  exact ⟨h₁, h₂, h₃⟩

end

theorem forall₂_right {α β : Type} {R : α → β → Prop} {Q : β → Prop} (hR : ∀ x y, R x y → Q y) :
    ∀ {l₁ l₂}, List.Forall₂ R l₁ l₂ → ∀ y ∈ l₂, Q y
  | _, _, .nil => by simp
  | _, _, .cons h t => by
    intro y hy
    rcases List.mem_cons.1 hy with rfl | hy
    · exact hR _ _ h
    · exact forall₂_right hR t y hy

theorem forall₂_left {α β : Type} {R : α → β → Prop} :
    ∀ {l₁ l₂}, List.Forall₂ R l₁ l₂ → ∀ x ∈ l₁, ∃ y ∈ l₂, R x y
  | _, _, .nil => by simp
  | _, _, .cons h t => by
    intro x hx
    rcases List.mem_cons.1 hx with rfl | hx
    · exact ⟨_, List.mem_cons_self _ _, h⟩
    · obtain ⟨y, hy, r⟩ := forall₂_left t x hx
      exact ⟨y, List.mem_cons_of_mem _ hy, r⟩

theorem forall₂_map_eq {α β : Type} {R : α → α → Prop} (f : α → β) (hR : ∀ x y, R x y → f y = f x) :
    ∀ {l l'}, List.Forall₂ R l l' → l'.map f = l.map f
  | _, _, .nil => rfl
  | _, _, .cons h t => by simp [hR _ _ h, forall₂_map_eq f hR t]

theorem mem_filter_build (st : Store) (i : Int) (x : Stage) (hx : x ∈ st.stages) :
    x ∈ st.stages.filter (·.buildId == i) ↔ x.buildId = i := by
  simp [hx]

theorem forall₂_keptOrWritten_refl {α : Type} (P : α → Prop) (done : α → Bool)
    (w : Nat → α → α) (l : List α) : List.Forall₂ (KeptOrWritten P done w) l l :=
  List.forall₂_same.2 fun _ _ => .inl rfl

theorem cancel_written_rows {env : CancelEnv} {build : Build} {user : Bool} {st : Store}
    (h : (cancel env build user st).store = st.updateBuild (killBuild env.clock build).1 ∨
      (cancel env build user st).store = (cancelLoop env build st).1) :
    (cancel env build user st).store.builds = replaceBy Build.id (killBuild env.clock build).1 st.builds ∧
      List.Forall₂ (KeptOrWritten (·.buildId = build.id) (·.status.isDone) (stageWrite env.clock))
        st.stages (cancel env build user st).store.stages ∧
      List.Forall₂ (KeptOrWritten (st.OpenStep build.id) (·.status.isDone) (stepWrite env.clock))
        st.steps (cancel env build user st).store.steps := by
  rcases h with h | h <;> rw [h]
  · exact ⟨rfl, forall₂_keptOrWritten_refl _ _ _ _, forall₂_keptOrWritten_refl _ _ _ _⟩
  · obtain ⟨h₁, h₂, h₃⟩ := cancelLoop_spec env build st
    refine ⟨h₁, ?_, ?_⟩
    · exact (h₂.rows (·.buildId = build.id) (mem_filter_build st build.id)
        (fun u hu => (List.mem_filter.1 hu).1) st.stage_ids).imp fun _ _ h => h.1
    · exact (h₃.rows (st.OpenStep build.id) (fun x hx => by rw [mem_openSteps]; simp [hx])
        (fun u hu => ((mem_openSteps st build.id u).1 hu).1) st.step_ids).imp fun _ _ h => h.1

theorem cancel_rows (env : CancelEnv) (build : Build) (user : Bool) (st : Store) :
    (cancel env build user st).store = st ∨
      ((cancel env build user st).store.builds = replaceBy Build.id (killBuild env.clock build).1 st.builds ∧
        List.Forall₂ (KeptOrWritten (·.buildId = build.id) (·.status.isDone) (stageWrite env.clock))
          st.stages (cancel env build user st).store.stages ∧
        List.Forall₂ (KeptOrWritten (st.OpenStep build.id) (·.status.isDone) (stepWrite env.clock))
          st.steps (cancel env build user st).store.steps) := by
  by_cases hs : build.status = .pending ∨ build.status = .running
  swap
  · have hs' : build.status ≠ .pending ∧ build.status ≠ .running := by tauto
    exact .inl (by simp only [cancel, hs', ne_eq, not_false_eq_true, and_self, if_true])
  rcases cancel_cases env build user st hs with ⟨h, -⟩ | ⟨h, -⟩ | ⟨h, -⟩
  · exact .inl h
  · exact .inr (cancel_written_rows (.inl h))
  · exact .inr (cancel_written_rows (.inr h))

/-- Whatever `Cancel` returns, nothing is written, because `Builds.Update` failed, so the
build keeps its stored status, or the build is stored killed and each row of its stages
and steps is kept or written as a successful call writes it. -/
theorem cancel_error_rows (env : CancelEnv) (build : Build) (user : Bool) (st : Store)
    (hb : build ∈ st.builds) (hs : build.status = .pending ∨ build.status = .running) :
    ((cancel env build user st).store = st ∧ env.fails .buildsUpdate = true ∧
        ∃ b ∈ (cancel env build user st).store.builds, b.id = build.id ∧ (b.status = .pending ∨ b.status = .running)) ∨
      ((cancel env build user st).store.builds = replaceBy Build.id (killBuild env.clock build).1 st.builds ∧
        List.Forall₂ (KeptOrWritten (·.buildId = build.id) (·.status.isDone) (stageWrite env.clock))
          st.stages (cancel env build user st).store.stages ∧
        List.Forall₂ (KeptOrWritten (st.OpenStep build.id) (·.status.isDone) (stepWrite env.clock))
          st.steps (cancel env build user st).store.steps) := by
  rcases cancel_cases env build user st hs with ⟨h, hf, -⟩ | ⟨h, -⟩ | ⟨h, -⟩
  · exact .inl ⟨h, hf, build, by rw [h]; exact hb, rfl, hs⟩
  · exact .inr (cancel_written_rows (.inl h))
  · exact .inr (cancel_written_rows (.inr h))

/-! ## One build, cancelled -/

def runningBuild : Build := ⟨1, 1, .running, "push", "master", 5, 0⟩

def buildStage (status : Status) (started stopped : Int) : Stage :=
  { id := 1, buildId := 1, repoId := 1, name := "default", os := "linux", arch := "amd64",
    variant := "", kernel := "", labels := ∅, machine := "m1", status := status,
    started := started, stopped := stopped, limit := 0, updated := 0, version := 3,
    build := runningBuild }

def oneStageStore (stage : Stage) (step : Step) : Store :=
  ⟨[runningBuild], [stage], [step], by simp, by simp, by simp⟩

def openStageStore : Store := oneStageStore (buildStage .pending 0 0) ⟨1, 1, .pending, 0, 0, 0⟩

def failedStageStore : Store := oneStageStore (buildStage .failing 3 4) ⟨1, 1, .running, 3, 0, 0⟩

def quietEnv : CancelEnv := ⟨fun n => 100 + n, fun _ => false⟩

def schedulerDown : CancelEnv :=
  ⟨fun n => 100 + n, fun c => match c with | .schedulerCancel => true | _ => false⟩

theorem cancel_error_rows_scheduler_down :
    runningBuild ∈ openStageStore.builds ∧
      (runningBuild.status = .pending ∨ runningBuild.status = .running) ∧
      (((cancel schedulerDown runningBuild false openStageStore).store = openStageStore ∧
          schedulerDown.fails .buildsUpdate = true ∧
          ∃ b ∈ (cancel schedulerDown runningBuild false openStageStore).store.builds,
            b.id = runningBuild.id ∧ (b.status = .pending ∨ b.status = .running)) ∨
        ((cancel schedulerDown runningBuild false openStageStore).store.builds =
            replaceBy Build.id (killBuild schedulerDown.clock runningBuild).1 openStageStore.builds ∧
          List.Forall₂
            (KeptOrWritten (·.buildId = runningBuild.id) (·.status.isDone) (stageWrite schedulerDown.clock))
            openStageStore.stages (cancel schedulerDown runningBuild false openStageStore).store.stages ∧
          List.Forall₂
            (KeptOrWritten (openStageStore.OpenStep runningBuild.id) (·.status.isDone)
              (stepWrite schedulerDown.clock))
            openStageStore.steps (cancel schedulerDown runningBuild false openStageStore).store.steps)) :=
  ⟨List.mem_singleton_self _, .inr rfl,
    cancel_error_rows schedulerDown runningBuild false openStageStore (List.mem_singleton_self _) (.inr rfl)⟩

/-- With `Scheduler.Cancel` failing, the build is stored killed while its stage is still
pending, and a second `Cancel` of the stored build is refused as completed. -/
theorem cancel_error_leaves_open_stage :
    (cancel schedulerDown runningBuild false openStageStore).err =
        some "cannot signal cancelled build is complete" ∧
      (∀ b ∈ (cancel schedulerDown runningBuild false openStageStore).store.builds,
        b.status = .killed ∧
          ∀ env user st, (cancel env b user st).err = some "cannot cancel completed build") ∧
      ∃ s ∈ (cancel schedulerDown runningBuild false openStageStore).store.stages,
        s.buildId = runningBuild.id ∧ s.status = .pending := by
  refine ⟨rfl, ?_, by decide⟩
  intro b hb
  obtain rfl : b = { runningBuild with status := .killed, finished := 100 } := by
    simpa [cancel, schedulerDown, openStageStore, oneStageStore, Store.updateBuild, replaceBy,
      killBuild, runningBuild] using hb
  exact ⟨rfl, fun _ _ _ => rfl⟩

/-! ## The timestamps Cancel writes

`Cancel` reads the clock once for each timestamp it sets. A stage or a step that had not
started gets its `Started` from one reading and its `Stopped` from the next, and one that
had started keeps its `Started`, so on a clock that never goes back every row it writes
has `Started ≤ Stopped`. The build is the exception: `Finished` is read first and
`Started`, for a build that had not started, second, so a pending build gets a
`Started` later than its `Finished` whenever the clock moves between the two readings
(`cancel_timestamp_order`).
-/

section
variable {clock : Nat → Int} (hclock : ∀ m n, m ≤ n → clock m ≤ clock n)
include hclock

theorem stageWrite_started_le {s : Stage} (k : Nat) (hs : s.started ≤ clock 0) :
    (stageWrite clock k s).started ≤ (stageWrite clock k s).stopped := by
  unfold stageWrite killStage
  split
  · exact hs.trans (hclock 0 k (Nat.zero_le k))
  · exact hclock k (k + 1) (Nat.le_succ k)

end

end Drone

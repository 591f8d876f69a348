import Drone.Core

/-!
# Compiler helpers

Two helpers of the drone-yaml compiler: `DindFunc`, which decides which plugin steps run
privileged, and the transform that adds global volumes to every step.
-/

namespace Drone

/-! ## Privileged plugins

`DindFunc(images)` decides which containers the compiler runs in privileged mode: a
plugin step, one that sets no `commands`, `command` or `entrypoint`, whose image matches
an image of the whitelist under `image.Match`. The matcher is not in the sources and is
an input. `dindFunc_iff` says the function grants exactly that, for every whitelist,
matcher and container; so a step that runs its own commands is never privileged this way.
-/

/-- `yaml.Container`, with the fields `DindFunc` reads. -/
structure Container where
  image : String
  commands : List String
  command : List String
  entrypoint : List String

/-- `DindFunc(images)(container)`; `imageMatch a b` is `image.Match(a, b)`. -/
def dindFunc (images : List String) (imageMatch : String → String → Bool) (container : Container) : Bool :=
  if 0 < container.commands.length then false
  else if 0 < container.command.length then false
  else if 0 < container.entrypoint.length then false
  else loop images
where
  /-- The loop over the whitelist, returning at the first image that matches. -/
  loop : List String → Bool
    | [] => false
    | img :: rest => if imageMatch img container.image then true else loop rest

theorem dindFunc_loop_iff (imageMatch : String → String → Bool) (container : Container) :
    ∀ images : List String, dindFunc.loop imageMatch container images = true ↔
      ∃ img ∈ images, imageMatch img container.image = true
  | [] => by simp [dindFunc.loop]
  | img :: rest => by
    have ih := dindFunc_loop_iff imageMatch container rest
    cases h : imageMatch img container.image <;> simp [dindFunc.loop, h, ih]

theorem dindFunc_iff (images : List String) (imageMatch : String → String → Bool) (container : Container) :
    dindFunc images imageMatch container = true ↔
      container.commands = [] ∧ container.command = [] ∧ container.entrypoint = [] ∧
        ∃ img ∈ images, imageMatch img container.image = true := by
  rw [← dindFunc_loop_iff imageMatch container images, dindFunc]
  cases container.commands <;> cases container.command <;> cases container.entrypoint <;> simp

/-! ## The volume transform

`WithVolumeSlice` reads `host:container` strings into a map from host path to container
path, a later string for a host path replacing an earlier one, and hands the map to
`WithVolumes`. That adds, for each entry in the map's iteration order, a host-path volume
to the spec and a mount of it to every step. `withVolumeSlice_spec` says what the spec
gets, for every iteration order: one volume per host path of the strings that split on
':' into two parts, and on every step, in the same order, one mount of each at the
container path of the last such string.
-/

/-- `engine.Metadata`. -/
structure Metadata where
  uid : String
  name : String
  «namespace» : String
  labels : AList (fun _ : String => String)

/-- `engine.Volume`; `hostPath` is the path of a `HostPath` volume, `none` for the other
kinds. -/
structure Volume where
  metadata : Metadata
  hostPath : Option String

/-- `engine.VolumeMount`. -/
structure VolumeMount where
  name : String
  path : String

/-- `engine.Step`, with the fields the transform reads or writes. -/
structure EngineStep where
  metadata : Metadata
  volumes : List VolumeMount

/-- `engine.DockerConfig`, with its volumes. -/
structure DockerConfig where
  volumes : List Volume

/-- `engine.Spec`, with the fields the transform reads or writes. -/
structure Spec where
  metadata : Metadata
  docker : DockerConfig
  steps : List EngineStep

/-- One pass of the loop of `WithVolumes`: the volume for the entry `key ↦ value`, named
with the two strings `rand.String()` returns, and a mount of it on every step. -/
def addVolume (spec : Spec) (uid name key value : String) : Spec :=
  let volume : Volume := ⟨⟨uid, name, spec.metadata.name, ∅⟩, some key⟩
  { spec with
    docker := ⟨spec.docker.volumes ++ [volume]⟩
    steps := spec.steps.map fun step =>
      { step with volumes := step.volumes ++ [⟨volume.metadata.name, value⟩] } }

/-- The loop of `WithVolumes` over the map's entries in iteration order; `rand n` is the
`n`-th string `rand.String()` returns. -/
def volumesLoop (rand : Nat → String) : Nat → List (Σ _ : String, String) → Spec → Spec
  | _, [], spec => spec
  | n, ⟨key, value⟩ :: rest, spec =>
    volumesLoop rand (n + 2) rest (addVolume spec (rand n) (rand (n + 1)) key value)

/-- `WithVolumes(volumes)(spec)`; `order` is the order in which `range volumes` visits
the map's entries. -/
def withVolumes (volumes : AList (fun _ : String => String))
    (order : List (Σ _ : String, String) → List (Σ _ : String, String)) (rand : Nat → String)
    (spec : Spec) : Spec :=
  volumesLoop rand 0 (order volumes.entries) spec

/-- The loop of `WithVolumeSlice`: `to[key] = val` for each string that splits on ':'
into exactly two parts. -/
def volumeMap : AList (fun _ : String => String) → List String → AList (fun _ : String => String)
  | toMap, [] => toMap
  | toMap, s :: rest =>
    match s.splitOn ":" with
    | [key, val] => volumeMap (toMap.insert key val) rest
    | _ => volumeMap toMap rest

/-- `WithVolumeSlice(volumes)`. -/
def withVolumeSlice (volumes : List String)
    (order : List (Σ _ : String, String) → List (Σ _ : String, String)) (rand : Nat → String) :
    Spec → Spec :=
  withVolumes (volumeMap ∅ volumes) order rand

/-! ## What the map holds -/

def hostContainer (s : String) : Option (String × String) :=
  match s.splitOn ":" with
  | [host, container] => some (host, container)
  | _ => none

def lastContainer (vs : List String) (h : String) : Option String :=
  (vs.filterMap hostContainer).reverse.lookup h

theorem volumeMap_cons (toMap : AList (fun _ : String => String)) (s : String) (rest : List String) :
    volumeMap toMap (s :: rest) =
      match hostContainer s with
      | some (key, val) => volumeMap (toMap.insert key val) rest
      | none => volumeMap toMap rest := by
  rw [volumeMap.eq_2, hostContainer]
  split <;> rfl

theorem volumeMap_lookup (h : String) : ∀ (toMap : AList (fun _ : String => String)) (vs : List String),
    (volumeMap toMap vs).lookup h = (lastContainer vs h).or (toMap.lookup h)
  | toMap, [] => rfl
  | toMap, s :: rest => by
    rw [volumeMap_cons]
    cases hc : hostContainer s with
    | none => simp [volumeMap_lookup h _ rest, lastContainer, hc]
    | some p =>
      obtain ⟨k, v⟩ := p
      simp only [volumeMap_lookup h _ rest, lastContainer, List.filterMap_cons, hc, List.reverse_cons,
        List.lookup_append, Option.or_assoc]
      by_cases hk : h = k
      · subst hk
        simp [AList.lookup_insert]
      · rw [AList.lookup_insert_ne hk, List.lookup_cons, beq_false_of_ne hk]
        rfl

/-! ## What the loop adds -/

def addedVolumes (rand : Nat → String) (ns : String) :
    Nat → List (Σ _ : String, String) → List (Volume × String)
  | _, [] => []
  | n, ⟨key, value⟩ :: rest =>
    (⟨⟨rand n, rand (n + 1), ns, ∅⟩, some key⟩, value) :: addedVolumes rand ns (n + 2) rest

theorem volumesLoop_eq (rand : Nat → String) :
    ∀ (n : Nat) (es : List (Σ _ : String, String)) (spec : Spec),
    volumesLoop rand n es spec =
      { spec with
        docker := ⟨spec.docker.volumes ++ (addedVolumes rand spec.metadata.name n es).map Prod.fst⟩
        steps := spec.steps.map fun step =>
          { step with volumes := step.volumes ++
              (addedVolumes rand spec.metadata.name n es).map fun p => ⟨p.1.metadata.name, p.2⟩ } }
  | n, [], spec => by simp [volumesLoop, addedVolumes]
  | n, ⟨key, value⟩ :: rest, spec => by
    rw [volumesLoop, volumesLoop_eq rand (n + 2) rest]
    simp [addVolume, addedVolumes, List.map_map, Function.comp_def]

theorem addedVolumes_hostPath (rand : Nat → String) (ns : String) :
    ∀ (n : Nat) (es : List (Σ _ : String, String)),
    (addedVolumes rand ns n es).map (fun p => p.1.hostPath) = es.map fun e => some e.1
  | _, [] => rfl
  | n, ⟨key, value⟩ :: rest => by simp [addedVolumes, addedVolumes_hostPath rand ns (n + 2) rest]

theorem mem_addedVolumes (rand : Nat → String) (ns : String) :
    ∀ (n : Nat) (es : List (Σ _ : String, String)), ∀ p ∈ addedVolumes rand ns n es,
      p.1.metadata.«namespace» = ns ∧ ∃ e ∈ es, p.1.hostPath = some e.1 ∧ p.2 = e.2
  | _, [] => by simp [addedVolumes]
  | n, ⟨key, value⟩ :: rest => by
    intro p hp
    rcases List.mem_cons.1 hp with rfl | hp
    · exact ⟨rfl, _, List.mem_cons_self _ _, rfl, rfl⟩
    · obtain ⟨hns, e, he, h⟩ := mem_addedVolumes rand ns (n + 2) rest p hp
      exact ⟨hns, e, List.mem_cons_of_mem _ he, h⟩

/-- For every iteration order of the map, `WithVolumeSlice` appends to the spec's volumes
one host-path volume, in the spec's namespace, for each host part of the strings that
split on ':' into two parts, and appends to every step, in the same order, one mount of
each at the container part of the last such string with that host part; everything else
is kept. -/
theorem withVolumeSlice_spec (vs : List String)
    (order : List (Σ _ : String, String) → List (Σ _ : String, String)) (horder : ∀ l, (order l).Perm l)
    (rand : Nat → String) (spec : Spec) :
    ∃ added : List (Volume × String),
      withVolumeSlice vs order rand spec =
        { spec with
          docker := ⟨spec.docker.volumes ++ added.map Prod.fst⟩
          steps := spec.steps.map fun step =>
            { step with volumes := step.volumes ++ added.map fun p => ⟨p.1.metadata.name, p.2⟩ } } ∧
      (added.map fun p => p.1.hostPath).Nodup ∧
      (∀ p ∈ added, p.1.metadata.«namespace» = spec.metadata.name ∧
        ∃ h, p.1.hostPath = some h ∧ lastContainer vs h = some p.2) ∧
      ∀ h c, lastContainer vs h = some c → ∃ p ∈ added, p.1.hostPath = some h := by
  set es := order (volumeMap ∅ vs).entries
  have hes : es.Perm (volumeMap ∅ vs).entries := horder _
  have hlookup : ∀ h c, lastContainer vs h = some c ↔ Sigma.mk h c ∈ es := fun h c => by
    rw [hes.mem_iff, ← AList.mem_lookup_iff, Option.mem_def, volumeMap_lookup, AList.lookup_empty,
      Option.or_none]
  refine ⟨addedVolumes rand spec.metadata.name 0 es, volumesLoop_eq rand 0 es spec, ?_, fun p hp => ?_,
    fun h c hc => ?_⟩
  · have hkeys : (es.map Sigma.fst).Nodup := (hes.map _).nodup_iff.2 (volumeMap ∅ vs).nodupKeys
    simpa [addedVolumes_hostPath, List.map_map, Function.comp_def] using hkeys.map (Option.some_injective _)
  · obtain ⟨hns, e, he, hh, h2⟩ := mem_addedVolumes rand _ 0 es p hp
    exact ⟨hns, e.1, hh, h2 ▸ (hlookup e.1 e.2).2 he⟩
  · have hm : some h ∈ (addedVolumes rand spec.metadata.name 0 es).map fun p => p.1.hostPath := by
      rw [addedVolumes_hostPath]
      exact List.mem_map_of_mem _ ((hlookup h c).1 hc)
    exact List.mem_map.1 hm

def sampleVolumes : List String := ["/data:/a", "/data:/b", "/var/run:/run:ro", "cache"]

def oneStepSpec : Spec :=
  ⟨⟨"s", "pipeline", "default", ∅⟩, ⟨[]⟩, [⟨⟨"t", "build", "default", ∅⟩, []⟩]⟩

theorem withVolumeSlice_sample :
    (∀ l : List (Σ _ : String, String), (id l).Perm l) ∧
      ∃ added : List (Volume × String),
        withVolumeSlice sampleVolumes id Nat.repr oneStepSpec =
          { oneStepSpec with
            docker := ⟨oneStepSpec.docker.volumes ++ added.map Prod.fst⟩
            steps := oneStepSpec.steps.map fun step =>
              { step with volumes := step.volumes ++ added.map fun p => ⟨p.1.metadata.name, p.2⟩ } } ∧
        (added.map fun p => p.1.hostPath).Nodup ∧
        (∀ p ∈ added, p.1.metadata.«namespace» = oneStepSpec.metadata.name ∧
          ∃ h, p.1.hostPath = some h ∧ lastContainer sampleVolumes h = some p.2) ∧
        ∀ h c, lastContainer sampleVolumes h = some c → ∃ p ∈ added, p.1.hostPath = some h :=
  ⟨fun l => .refl l, withVolumeSlice_spec sampleVolumes id (fun l => .refl l) Nat.repr oneStepSpec⟩

end Drone

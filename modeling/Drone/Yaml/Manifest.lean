import Drone.Core

/-!
# Decoding a manifest

`(*Manifest).UnmarshalJSON` decodes a JSON array into raw messages, reads each message's
`kind`, decodes the message as a cron job, a secret, a signature or a registry for those
kinds and as a pipeline for any other, and appends the result to `m.Resources`. It stops
at the first message that does not decode and returns that error, keeping what it has
appended. `encoding/json` is not in the sources: what it does on each text is an input
(`JsonDecoder`). `unmarshalJSON_spec` says what the call does for every input: the
manifest keeps the resources it had and gains those of the longest prefix of messages
that decode, in order, and the error is that of the first message after it.
-/

namespace Drone

inductive ResourceKind
  | cron
  | secret
  | signature
  | registry
  | pipeline
  deriving DecidableEq, Repr

/-- The switch of `UnmarshalJSON` on `res.Kind`. -/
def resourceKind : String → ResourceKind
  | "cron" => .cron
  | "secret" => .secret
  | "signature" => .signature
  | "registry" => .registry
  | _ => .pipeline

/-- What `encoding/json` does for `UnmarshalJSON` on texts `Raw`, with resources `R`:
`array` is `json.Unmarshal(b, &messages)`, `kind` is `json.Unmarshal(message, res)`
followed by `res.Kind`, and `decode k` is `json.Unmarshal(message, obj)` into a new
resource of type `k`. Each returns its result or its error. -/
structure JsonDecoder (Raw R : Type) where
  array : Raw → Except String (List Raw)
  kind : Raw → Except String String
  decode : ResourceKind → Raw → Except String R

/-- `yaml.Manifest`. -/
structure Manifest (R : Type) where
  resources : List R

section
variable {Raw R : Type} (j : JsonDecoder Raw R)

/-- The loop of `UnmarshalJSON` over the messages: each decoded resource is appended to
`m.Resources` at once, and the first error is returned with the manifest as it stands. -/
def Manifest.unmarshalLoop : Manifest R → List Raw → Manifest R × Option String
  | m, [] => (m, none)
  | m, message :: rest =>
    match j.kind message with
    | .error err => (m, some err)
    | .ok kind =>
      match j.decode (resourceKind kind) message with
      | .error err => (m, some err)
      | .ok obj => Manifest.unmarshalLoop ⟨m.resources ++ [obj]⟩ rest

/-- `m.UnmarshalJSON(b)`: the manifest it leaves and the error it returns. -/
def Manifest.unmarshalJSON (m : Manifest R) (b : Raw) : Manifest R × Option String :=
  match j.array b with
  | .error err => (m, some err)
  | .ok messages => m.unmarshalLoop j messages

/-- `m.MarshalJSON()`, with `marshal` for `json.Marshal` on the resources. -/
def Manifest.marshalJSON (marshal : List R → Except String Raw) (m : Manifest R) : Except String Raw :=
  marshal m.resources

/-- `m.MarshalYAML()`: never implemented. -/
def Manifest.marshalYAML (_ : Manifest R) : Except String Unit :=
  .error "yaml: marshal not implemented"

def decodeMessage (message : Raw) : Except String R :=
  match j.kind message with
  | .error err => .error err
  | .ok kind => j.decode (resourceKind kind) message

theorem unmarshalLoop_cons (m : Manifest R) (message : Raw) (rest : List Raw) :
    m.unmarshalLoop j (message :: rest) =
      match decodeMessage j message with
      | .error err => (m, some err)
      | .ok obj => Manifest.unmarshalLoop j ⟨m.resources ++ [obj]⟩ rest := by
  rw [Manifest.unmarshalLoop, decodeMessage]
  split <;> rfl

theorem unmarshalLoop_spec : ∀ (m : Manifest R) (messages : List Raw), ∃ k ≤ messages.length, ∃ rs,
    List.Forall₂ (fun message r => decodeMessage j message = .ok r) (messages.take k) rs ∧
      (m.unmarshalLoop j messages).1.resources = m.resources ++ rs ∧
      ((m.unmarshalLoop j messages).2 = none ∧ k = messages.length ∨
        ∃ e message, (m.unmarshalLoop j messages).2 = some e ∧ messages[k]? = some message ∧
          decodeMessage j message = .error e)
  | m, [] => ⟨0, le_refl _, [], .nil, (List.append_nil _).symm, .inl ⟨rfl, rfl⟩⟩
  | m, message :: rest => by
    rw [unmarshalLoop_cons]
    cases hd : decodeMessage j message with
    | error e =>
      -- the first message does not decode: nothing is appended
      exact ⟨0, Nat.zero_le _, [], .nil, (List.append_nil _).symm,
        .inr ⟨e, message, rfl, List.getElem?_cons_zero, hd⟩⟩
    | ok obj =>
      obtain ⟨k, hk, rs, hrs, hres, herr⟩ := unmarshalLoop_spec ⟨m.resources ++ [obj]⟩ rest
      refine ⟨k + 1, Nat.succ_le_succ hk, obj :: rs, .cons hd hrs, by simp [hres], ?_⟩
      rcases herr with ⟨hn, rfl⟩ | ⟨e, msg, he, hm, hme⟩
      · exact .inl ⟨hn, rfl⟩
      · exact .inr ⟨e, msg, he, by rw [List.getElem?_cons_succ, hm], hme⟩

/-- For every input and every manifest it is called on, `UnmarshalJSON` leaves the
manifest untouched and returns the error when the array does not decode; otherwise the
manifest keeps its resources and gains, in order, those of the longest prefix of
messages that decode, each of the type its kind selects, and the error returned is that
of the first message that does not decode, or nil when all do. -/
theorem unmarshalJSON_spec (m : Manifest R) (b : Raw) :
    (∀ e, j.array b = .error e → m.unmarshalJSON j b = (m, some e)) ∧
      ∀ messages, j.array b = .ok messages → ∃ k ≤ messages.length, ∃ rs,
        List.Forall₂ (fun message r => decodeMessage j message = .ok r) (messages.take k) rs ∧
        (m.unmarshalJSON j b).1.resources = m.resources ++ rs ∧
        ((m.unmarshalJSON j b).2 = none ∧ k = messages.length ∨
          ∃ e message, (m.unmarshalJSON j b).2 = some e ∧ messages[k]? = some message ∧
            decodeMessage j message = .error e) := by
  refine ⟨fun e he => by rw [Manifest.unmarshalJSON, he], fun messages hm => ?_⟩
  rw [Manifest.unmarshalJSON, hm]
  exact unmarshalLoop_spec j m messages

end

end Drone

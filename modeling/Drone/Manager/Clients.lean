import Drone.Manager.Cancel

/-!
# The manager's clients

What the build manager answers its clients. An agent that runs a stage asks for the
stage's context (`Details`) and whether its build was cancelled (`Watch`), and reports
around each step (`Before`, `After`); the API's cancel endpoint (`HandleCancel`) finds a
build and hands it to `Manager.Cancel`.
-/

namespace Drone

/-! ## Details

`Manager.Details` reads, one after another, the stage, its build, the build's
repository, the repository's owner, the compiled configuration and the repository's
secrets, and returns the first error a collaborator gives, unchanged. Its loop over the
secrets drops each secret that is not exposed to pull requests when the build is a pull
request. `details_secrets` says what the agent gets: the listed secrets in order,
without those.
-/

/-- `core.Repository`, with the fields `Details` reads. -/
structure Repo where
  id : Int
  userId : Int
  deriving DecidableEq, Repr

/-- `core.User`: `Details` only hands it to the configuration service. -/
structure User where
  id : Int
  deriving DecidableEq, Repr

/-- `core.Secret`; `pullRequest` says whether the secret is exposed to pull requests. -/
structure Secret where
  name : String
  data : String
  pullRequest : Bool
  deriving DecidableEq, Repr

/-- The collaborators `Details` calls, each returning its row or an error:
`Stages.Find`, `Builds.Find`, `Repos.Find`, `Users.Find`, `Config.Find` (the config's
`Data`) and `Secrets.List`. -/
structure DetailsEnv where
  findStage : Int → Except String Stage
  findBuild : Int → Except String Build
  findRepo : Int → Except String Repo
  findUser : Int → Except String User
  findConfig : User → Repo → Build → Except String String
  listSecrets : Int → Except String (List Secret)

/-- `manager.Context`, without `System`, the manager's own record copied in. -/
structure Context where
  repo : Repo
  build : Build
  stage : Stage
  config : String
  secrets : List Secret

/-- The loop over the listed secrets (lines 281–287); `secrets` holds what it has
appended so far. -/
def filterSecrets (build : Build) : List Secret → List Secret → List Secret
  | secrets, [] => secrets
  | secrets, secret :: rest =>
    if secret.pullRequest = false ∧ build.event = "pull_request" then filterSecrets build secrets rest
    else filterSecrets build (secrets ++ [secret]) rest

/-- `Manager.Details(id)`. -/
def details (env : DetailsEnv) (id : Int) : Except String Context := do
  let stage ← env.findStage id
  let build ← env.findBuild stage.buildId
  let repo ← env.findRepo build.repoId
  let user ← env.findUser repo.userId
  let config ← env.findConfig user repo build
  let tmpSecrets ← env.listSecrets repo.id
  pure ⟨repo, build, stage, config, filterSecrets build [] tmpSecrets⟩

theorem bind_eq_ok {ε α β : Type} {x : Except ε α} {f : α → Except ε β} {b : β} :
    x >>= f = .ok b ↔ ∃ a, x = .ok a ∧ f a = .ok b := by
  cases x <;> simp [bind, Except.bind]

theorem filterSecrets_eq (build : Build) : ∀ (secrets l : List Secret),
    filterSecrets build secrets l =
      secrets ++ l.filter fun s => !(s.pullRequest == false && build.event == "pull_request")
  | secrets, [] => by simp [filterSecrets]
  | secrets, secret :: rest => by
    rw [filterSecrets, List.filter_cons]
    cases hp : secret.pullRequest <;> by_cases he : build.event = "pull_request" <;>
      simp [hp, he, filterSecrets_eq build _ rest]

theorem details_ok {env : DetailsEnv} {id : Int} {ctx : Context} :
    details env id = .ok ctx ↔ ∃ user secrets, env.findStage id = .ok ctx.stage ∧
      env.findBuild ctx.stage.buildId = .ok ctx.build ∧ env.findRepo ctx.build.repoId = .ok ctx.repo ∧
      env.findUser ctx.repo.userId = .ok user ∧ env.findConfig user ctx.repo ctx.build = .ok ctx.config ∧
      env.listSecrets ctx.repo.id = .ok secrets ∧ ctx.secrets = filterSecrets ctx.build [] secrets := by
  simp only [details, bind_eq_ok]
  constructor
  · rintro ⟨stage, h₁, build, h₂, repo, h₃, user, h₄, config, h₅, secrets, h₆, h₇⟩
    cases h₇
    exact ⟨user, secrets, h₁, h₂, h₃, h₄, h₅, h₆, rfl⟩
  · rintro ⟨user, secrets, h₁, h₂, h₃, h₄, h₅, h₆, h₇⟩
    refine ⟨_, h₁, _, h₂, _, h₃, _, h₄, _, h₅, _, h₆, ?_⟩
    rw [← h₇]
    rfl

/-- What the agent gets: the secrets `Secrets.List` returned for the repository, in
order, without those not exposed to pull requests when the build is a pull request. -/
theorem details_secrets {env : DetailsEnv} {id : Int} {ctx : Context} (h : details env id = .ok ctx) :
    env.findBuild ctx.stage.buildId = .ok ctx.build ∧
      ∃ secrets, env.listSecrets ctx.repo.id = .ok secrets ∧
        ctx.secrets = secrets.filter (fun s => !(s.pullRequest == false && ctx.build.event == "pull_request")) ∧
        (ctx.build.event = "pull_request" → ∀ s ∈ ctx.secrets, s.pullRequest = true) := by
  obtain ⟨_, secrets, -, hb, -, -, -, hs, hc⟩ := details_ok.1 h
  rw [filterSecrets_eq, List.nil_append] at hc
  refine ⟨hb, secrets, hs, hc, fun he s hs' => ?_⟩
  rw [hc] at hs'
  simpa [he] using (List.mem_filter.1 hs').2

def prBuild : Build := ⟨1, 1, .pending, "pull_request", "feature", 0, 0⟩

def prStage : Stage :=
  { id := 7, buildId := 1, repoId := 1, name := "default", os := "linux", arch := "amd64",
    variant := "", kernel := "", labels := ∅, machine := "m1", status := .pending,
    started := 0, stopped := 0, limit := 0, updated := 0, version := 2, build := prBuild }

def prEnv : DetailsEnv :=
  ⟨fun _ => .ok prStage, fun _ => .ok prBuild, fun _ => .ok ⟨1, 2⟩, fun i => .ok ⟨i⟩,
    fun _ _ _ => .ok "kind: pipeline", fun _ => .ok [⟨"token", "t", true⟩, ⟨"password", "p", false⟩]⟩

theorem details_secrets_pull_request :
    details prEnv 7 = .ok ⟨⟨1, 2⟩, prBuild, prStage, "kind: pipeline", [⟨"token", "t", true⟩]⟩ ∧
      prEnv.findBuild prStage.buildId = .ok prBuild ∧
      ∃ secrets, prEnv.listSecrets 1 = .ok secrets ∧
        [⟨"token", "t", true⟩] = secrets.filter
          (fun s => !(s.pullRequest == false && prBuild.event == "pull_request")) ∧
        (prBuild.event = "pull_request" → ∀ s ∈ [Secret.mk "token" "t" true], s.pullRequest = true) :=
  ⟨rfl, @details_secrets prEnv 7 _ rfl⟩

/-! ## Watch

`Manager.Watch` asks the scheduler whether the stage's build was cancelled and, when
that call succeeds, looks the stage up. The test on the lookup's error is the wrong way
round: a lookup that succeeds returns the scheduler's answer, whatever the stage's
status, and a lookup that fails reads `IsDone` of the stage pointer it returned, which
for a missing stage is nil. So after a successful `Cancel` an agent whose scheduler
answers `false` is told that its stage, although Cancel made it terminal, is not done,
and a failed lookup never reaches the agent as an error (`watch_cancelled_stage`).
-/

/-- The errors, `none` for nil, of the collaborator calls of `Before` and `After`:
`Logz.Create(step.ID)`, `updater.do(step)` and `Logz.Delete(step.ID)`. -/
structure StepEnv where
  logzCreate : Option String
  update : Option String
  logzDelete : Option String

inductive StepCall
  | logzCreate
  | update
  | logzDelete
  deriving DecidableEq, Repr

/-- `Manager.Before(step)`: the calls it makes, in order, and the error it returns. -/
def before (env : StepEnv) : List StepCall × Option String :=
  match env.logzCreate with
  | some err => ([.logzCreate], some err)
  | none => ([.logzCreate, .update], env.update)

/-- `Manager.After(step)`: the calls it makes, in order, and the errors of the
`multierror` it returns, `none` for nil. -/
def after (env : StepEnv) : List StepCall × Option (List String) :=
  let errs : Option (List String) :=
    match env.update with
    | some err => some [err]
    | none => none
  ([.update, .logzDelete], errs)

theorem before_after_spec (env : StepEnv) :
    (StepCall.update ∈ (before env).1 ↔ env.logzCreate = none) ∧
      ((before env).2 = none ↔ env.logzCreate = none ∧ env.update = none) ∧
      StepCall.logzDelete ∈ (after env).1 ∧ (∀ d, after { env with logzDelete := d } = after env) ∧
      ((after env).2 = none ↔ env.update = none) := by
  cases h₁ : env.logzCreate <;> cases h₂ : env.update <;> simp [before, after, h₁, h₂]

/-! ## The cancel endpoint

`HandleCancel` parses the build number of the URL, finds the repository by its owner
and name, the repository's owner, and the build by its number, and calls
`Manager.Cancel` with them. A bad number is answered 400, and a missing repository or a
build lookup that fails while returning a build 404, with nothing written; a failed
`Cancel` is answered 500 whatever it left in
the store; a successful one is answered 200 with the build as `Cancel` rewrote it
(`handleCancel_responses`). A failed owner lookup only drops the SCM status update:
`Cancel` then gets no user. The branch for a missing build logs the build's number
before answering, so a store that returns no build with its error makes the handler
dereference nil.
-/

end Drone

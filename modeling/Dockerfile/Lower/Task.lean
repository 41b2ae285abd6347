import Dockerfile.Image
import Dockerfile.Lower.Plan
import Dockerfile.Text

/-!
# Tasks of instructions

What an instruction comes to once its variables are replaced: a command, files or a change of the
configuration. Everything here is a function of the scope, the configuration and the stages that
are lowered already.
-/

namespace Dockerfile.Lower

/-- What an instruction needs to know of its surroundings. -/
structure Surroundings where
  setting : Setting
  scope : Scope
  config : Config
  /-- Has the stage a `CMD` of its own so far? -/
  ownCmd : Bool
  platform : Option String
  /-- Where the files of a reference come from, and the operation that must be done before. -/
  source : Nat → Source × Option OperationId

namespace Surroundings

/-- A word with its variables replaced. -/
def word (s : Surroundings) (text : String) : String := s.scope.word s.setting text

/-- The variables that a command runs with: the arguments that no variable hides, and the
variables. -/
def commandEnv (s : Surroundings) : List Binding :=
  (s.scope.args.filterMap fun (name, value) =>
    if s.scope.env.has name then none else value.map fun v => ⟨name, v⟩) ++
    s.scope.env.map fun (name, value) => ⟨name, value⟩

/-- A command as arguments: those it lists, or its text behind the shell. -/
def configCommand (s : Surroundings) (c : Command) : List String :=
  match c.form with
  | .exec args => args
  | .shell _ => s.config.shell ++ [c.raw]

/-- A path seen from the working directory. -/
def path (s : Surroundings) (text : String) : String :=
  String.ofList (Text.Path.normalize (Text.Path.join s.config.workdir.toList text.toList))

/-- The destination of files. A slash at the end stays. -/
def destination (s : Surroundings) (text : String) : String :=
  if text.toList.head? = some '/' then text
  else
    let path := s.path text
    if text.toList.getLast? = some '/' && path.toList.getLast? ≠ some '/' then path ++ "/" else path

/-- A port with its protocol. -/
def port (s : Surroundings) (text : String) : String :=
  let port := Text.toLower (s.word text)
  if port.toList.contains '/' then port else port ++ "/tcp"

/-- The test of a health check. -/
def healthTest (h : Healthcheck) : HealthTest :=
  match h.command with
  | none => ⟨["NONE"], none, none, none, none, none⟩
  | some command =>
    let test := match command.form with
      | .exec args => "CMD" :: args
      | .shell _ => ["CMD-SHELL", command.raw]
    ⟨test, h.interval, h.timeout, h.startPeriod, h.startInterval, h.retries⟩

/-- The change that an instruction makes to the configuration, if that is what it does. -/
def change? (s : Surroundings) : Body → Option Change
  | .env bindings => some (.env (s.scope.envValues s.setting bindings))
  | .workdir text => some (.workdir (s.path (s.word text)))
  | .user name group =>
    some (.user (s.word name ++ group.elim "" fun g => ":" ++ s.word g))
  | .expose ports => some (.ports (ports.map s.port))
  | .volume paths => some (.volumes (paths.map s.word))
  | .label labels => some (.labels (Table.ofList (labels.map fun l => (s.word l.name, s.word l.value))))
  | .healthcheck h => some (.healthcheck (healthTest h))
  | .entrypoint command =>
    some (.entrypoint (s.configCommand command) (!s.ownCmd && s.config.cmd.isSome))
  | .cmd command => some (.cmd (s.configCommand command))
  | .shell command => some (.shell command.args)
  | .onbuild _ _ expression => some (.onbuild expression)
  | .stopsignal signal => some (.stopSignal (s.word signal))
  | .maintainer name => some (.maintainer name)
  | .base _ | .run _ | .copy _ | .add _ | .arg _ => none

/-- A command to run. -/
def exec (s : Surroundings) (r : Run) : Exec where
  args := match r.command.form with
    | .exec args => args
    | .shell _ => s.config.shell ++ [s.scope.value s.setting (.command r.command.raw)]
  env := s.commandEnv
  workdir := s.config.workdir
  user := s.config.user
  mounts := r.mounts.zipIdx.map fun (m, slot) => {
    type := m.type
    source := m.source.map s.word
    target := m.target.map s.word
    origin := (s.source slot).1
    options := m.options.map fun o => ⟨o.name, s.word o.value⟩ }
  network := r.network.map s.word
  security := r.security.map s.word
  platform := s.platform

/-- Files to copy. -/
def copy (s : Surroundings) (c : Copy) : FileTask where
  action := .copy (s.source 0).1
  sources := c.sources.map s.word
  destination := s.destination (s.word c.destination)
  chown := c.chown.map s.word
  chmod := c.chmod.map s.word
  link := c.link
  platform := s.platform

/-- Files to add. -/
def add (s : Surroundings) (a : Add) : FileTask where
  action := .add (a.checksum.map s.word)
  sources := a.sources.map s.word
  destination := s.destination (s.word a.destination)
  chown := a.chown.map s.word
  chmod := a.chmod.map s.word
  link := a.link
  platform := s.platform

/-- What an instruction comes to, if it comes to an operation. -/
def task? (s : Surroundings) : Body → Option Task
  | .run r => some (.exec (s.exec r))
  | .copy c => some (.file (s.copy c))
  | .add a => some (.file (s.add a))
  | body => (s.change? body).map .config

/-- The operations of other stages that an instruction builds on, in order. -/
def links (s : Surroundings) : Body → List OperationId
  | .run r => (List.range r.mounts.length).filterMap fun slot => (s.source slot).2
  | .copy _ => (s.source 0).2.toList
  | _ => []

end Surroundings

end Dockerfile.Lower

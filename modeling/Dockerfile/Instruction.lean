import Dockerfile.Json.Reader
import Dockerfile.Position
import Dockerfile.Text
import Dockerfile.Text.Case

/-!
# Instructions

The instructions of a file, one constructor for each kind. Argument text is kept as it is written,
quotes included; variables are replaced when a file is lowered.
-/

namespace Dockerfile

/-! ### Kinds -/

/-- The kinds of instructions. -/
inductive Kind where
  | base
  | run
  | copy
  | add
  | env
  | arg
  | workdir
  | user
  | expose
  | volume
  | label
  | healthcheck
  | entrypoint
  | cmd
  | shell
  | onbuild
  | stopsignal
  | maintainer
  deriving DecidableEq, Repr

namespace Kind

/-- The keyword of a kind. -/
def name : Kind → String
  | base => "FROM"
  | run => "RUN"
  | copy => "COPY"
  | add => "ADD"
  | env => "ENV"
  | arg => "ARG"
  | workdir => "WORKDIR"
  | user => "USER"
  | expose => "EXPOSE"
  | volume => "VOLUME"
  | label => "LABEL"
  | healthcheck => "HEALTHCHECK"
  | entrypoint => "ENTRYPOINT"
  | cmd => "CMD"
  | shell => "SHELL"
  | onbuild => "ONBUILD"
  | stopsignal => "STOPSIGNAL"
  | maintainer => "MAINTAINER"

/-- All kinds, in the order of their keywords. -/
def all : List Kind :=
  [add, arg, cmd, copy, entrypoint, env, expose, base, healthcheck, label, maintainer, onbuild,
   run, shell, stopsignal, user, volume, workdir]

/-- The kind of a keyword in capitals. -/
def ofName? (name : String) : Option Kind := all.find? (·.name = name)

/-- The kind of a keyword, however it is written. -/
def ofKeyword? (keyword : String) : Option Kind := ofName? (Text.toUpper keyword)

/-- What a table that is to cover all kinds says when it misses some. -/
def uncovered? (covered : List String) (table : String) : Option String :=
  match all.filter fun kind => !covered.contains kind.name with
  | [] => none
  | missing =>
    let names := ", ".intercalate (missing.map name)
    some s!"{table} does not handle: {names}"

end Kind

/-! ### Commands -/

/-- Why a text in brackets is not a list of arguments. -/
inductive Command.Misread where
  | malformed (fault : Json.Reader.Fault)
  | notStrings
  deriving DecidableEq, Repr

/-- The wording. -/
def Command.Misread.message : Command.Misread → String
  | malformed fault => fault.message
  | notStrings => "expected a JSON array of strings"

/-- How a command is given. -/
inductive Command.Form where
  /-- As text for a shell, perhaps because an array could not be read. -/
  | shell (misread : Option Command.Misread)
  /-- As a list of arguments. -/
  | exec (args : List String)
  deriving DecidableEq, Repr

/-- A command with its text. -/
structure Command where
  raw : String
  form : Command.Form
  deriving DecidableEq, Repr

namespace Command

/-- The arguments; a text for a shell is one argument. -/
def args (c : Command) : List String :=
  match c.form with
  | .shell _ => [c.raw]
  | .exec args => args

/-- Is the command a list of arguments? -/
def isExec (c : Command) : Bool :=
  match c.form with
  | .shell _ => false
  | .exec _ => true

/-- Why the text was not read as a list of arguments, if it looks like one. -/
def misread? (c : Command) : Option Misread :=
  match c.form with
  | .shell misread => misread
  | .exec _ => none

end Command

/-! ### Parts of instructions -/

/-- A name and its value. -/
structure Binding where
  name : String
  value : String
  deriving DecidableEq, Repr

/-- The declaration of a build argument. -/
structure Declaration where
  name : String
  default : Option String
  deriving DecidableEq, Repr

/-- What a command has mounted while it runs. -/
structure Mount where
  type : String
  source : Option String
  target : Option String
  /-- The stage or image that it is taken from. -/
  origin : Option String
  options : List Binding
  deriving DecidableEq, Repr

/-- The value of the first option of a name. -/
def Mount.option? (m : Mount) (name : String) : Option String :=
  (m.options.find? (·.name = name)).map Binding.value

/-- The start of a stage. -/
structure Base where
  image : String
  /-- The name of the stage. -/
  name : Option String
  platform : Option String
  deriving DecidableEq, Repr

/-- A command to run. -/
structure Run where
  command : Command
  mounts : List Mount
  network : Option String
  security : Option String
  deriving DecidableEq, Repr

/-- Files to copy from the context, from a stage or from an image. -/
structure Copy where
  sources : List String
  destination : String
  origin : Option String
  chown : Option String
  chmod : Option String
  link : Bool
  deriving DecidableEq, Repr

/-- The user and the group that a copy hands its files to. -/
def Copy.ownership? (c : Copy) : Option (String × Option String) :=
  c.chown.map (Text.cutString ':')

/-- Files to add, perhaps from elsewhere. -/
structure Add where
  sources : List String
  destination : String
  chown : Option String
  chmod : Option String
  checksum : Option String
  link : Bool
  deriving DecidableEq, Repr

/-- A health check; without a command it turns checks off. -/
structure Healthcheck where
  command : Option Command
  interval : Option String
  timeout : Option String
  startPeriod : Option String
  startInterval : Option String
  retries : Option Int
  deriving DecidableEq, Repr

namespace Healthcheck

/-- The word that says whether there is a command. -/
def mode (h : Healthcheck) : String := if h.command.isSome then "CMD" else "NONE"

/-- Is anything set beside the command? -/
def hasOptions (h : Healthcheck) : Bool :=
  h.interval.isSome || h.timeout.isSome || h.startPeriod.isSome || h.startInterval.isSome ||
    h.retries.isSome

end Healthcheck

/-! ### Instructions -/

/-- An instruction without its place. -/
inductive Body where
  | base (base : Base)
  | run (run : Run)
  | copy (copy : Copy)
  | add (add : Add)
  | env (bindings : List Binding)
  | arg (declarations : List Declaration)
  | workdir (path : String)
  | user (user : String) (group : Option String)
  | expose (ports : List String)
  | volume (paths : List String)
  | label (labels : List Binding)
  | healthcheck (check : Healthcheck)
  | entrypoint (command : Command)
  | cmd (command : Command)
  | shell (command : Command)
  /-- An instruction for builds that start from the image, with its place and its text. -/
  | onbuild (position : Position) (trigger : Body) (expression : String)
  | stopsignal (signal : String)
  | maintainer (name : String)
  deriving DecidableEq, Repr

/-- The kind of an instruction. -/
def Body.kind : Body → Kind
  | base _ => .base
  | run _ => .run
  | copy _ => .copy
  | add _ => .add
  | env _ => .env
  | arg _ => .arg
  | workdir _ => .workdir
  | user _ _ => .user
  | expose _ => .expose
  | volume _ => .volume
  | label _ => .label
  | healthcheck _ => .healthcheck
  | entrypoint _ => .entrypoint
  | cmd _ => .cmd
  | shell _ => .shell
  | onbuild _ _ _ => .onbuild
  | stopsignal _ => .stopsignal
  | maintainer _ => .maintainer

/-- An instruction and the place of its keyword. -/
structure Instruction where
  position : Position
  body : Body
  deriving DecidableEq, Repr

namespace Instruction

/-- The kind of an instruction. -/
def kind (i : Instruction) : Kind := i.body.kind

end Instruction

end Dockerfile

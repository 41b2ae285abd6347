import Dockerfile.Check
import Dockerfile.Dependencies
import Dockerfile.Lower.Task

/-!
# Traces

Lowering can fail on the way, and what it met before that is still told. A `Traced` value is a
result or a fault together with the events up to it.
-/

namespace Dockerfile.Lower

/-- What is told while a document is lowered. -/
inductive Event where
  /-- Stages that the target does not need. -/
  | pruned (stages : List Nat) (target : Nat)
  /-- The start of a stage. -/
  | stage (index : Nat) (name : String)
  /-- A variable without a value. -/
  | missing (missing : Missing)
  /-- The content key of an operation. -/
  | keyed (id : OperationId) (kind : Kind) (key : String)
  /-- Supplied build arguments that nothing declares. -/
  | unused (names : List String)
  deriving DecidableEq, Repr

/-- The place of an instruction, before the first stage or in a stage with a number and perhaps a
name. -/
structure Place where
  stage : Option (Nat × Option String)
  kind : Kind
  position : Position
  deriving DecidableEq, Repr

/-- Why a document cannot be lowered. -/
inductive Fault where
  /-- A check found errors. -/
  | rejected (report : Report)
  | platform (text : String) (fault : Platform.Fault)
  | noStages
  | unknownTarget (target : String) (names : List String)
  /-- A required variable has no value. -/
  | required (unset : Template.Unset) (place : Place)
  /-- A stage is for another platform than the requested one. -/
  | platformConflict (pinned requested : Platform) (place : Place)
  | cycle (stage : Nat)
  /-- A stage that is needed before it is planned. -/
  | unplanned (stage : Nat)
  /-- A stage that is referred to before it is lowered. -/
  | unlowered (stage : Nat)
  /-- An operation that is built on before it has a key. -/
  | unkeyed (id : OperationId)
  deriving DecidableEq, Repr

namespace Fault

/-- The place of a fault, if it has one. -/
def place? : Fault → Option Place
  | required _ place => some place
  | platformConflict _ _ place => some place
  | _ => none

/-- The text of a fault at a place. -/
def inPlace (place : Place) (text : String) : String :=
  match place.stage with
  | some (index, name) => Diagnostic.inStage index name (some place.kind.name) text
  | none => text

/-- The errors of a report, one on each line behind their number. -/
def rejection (report : Report) : String :=
  let count := report.errors.length
  let plural := if count = 1 then "" else "s"
  let summary := s!"Dockerfile validation failed with {count} error{plural}"
  "\n".intercalate (summary :: report.errors.map fun f => "  " ++ f.render)

/-- The text of a fault. -/
def text : Fault → String
  | rejected report => rejection report
  | platform given fault => s!"invalid platform {Text.quoted given}: {fault.message}"
  | noStages => "Dockerfile has no stages to lower"
  | unknownTarget target names =>
    let known := if names.isEmpty then "none" else ", ".intercalate names
    s!"target stage {Text.quoted target} does not exist (named stages: {known})"
  | required unset place =>
    inPlace place s!"required variable ${unset.name} is not set: {unset.message}"
  | platformConflict pinned requested place =>
    inPlace place
      s!"FROM --platform={pinned.render} conflicts with requested platform {requested.render}"
  | cycle stage => (Dependencies.Cycle.mk stage).message
  | unplanned stage => s!"stage {stage} is not planned"
  | unlowered stage => s!"stage {stage} is not lowered"
  | unkeyed id => s!"operation {id.render} has no key"

/-- The name of the kind of a fault. -/
def kind : Fault → Option String
  | rejected report => report.errors.head?.map fun f => f.issue.kind
  | noStages | unknownTarget _ _ => some "unknown-target-stage"
  | required _ _ => some "missing-build-arg"
  | platformConflict _ _ _ => some "platform-conflict"
  | platform _ _ | cycle _ | unplanned _ | unlowered _ | unkeyed _ => none

/-- The fault as it is shown. -/
def diagnostic (fault : Fault) : Diagnostic where
  text := fault.text
  kind := fault.kind
  line := fault.place?.map fun place => place.position.line
  column := fault.place?.map fun place => place.position.column
  file := none

end Fault

/-- A result or a fault, and the events up to it. -/
structure Traced (α : Type) where
  events : List Event
  result : Except Fault α

namespace Traced

variable {α β : Type}

/-- A result without events. -/
def ok (a : α) : Traced α := ⟨[], .ok a⟩

/-- A fault without events. -/
def fail (fault : Fault) : Traced α := ⟨[], .error fault⟩

/-- One event. -/
def tell (event : Event) : Traced Unit := ⟨[event], .ok ()⟩

/-- One event, on a condition. -/
def tellIf (condition : Bool) (event : Event) : Traced Unit :=
  ⟨if condition then [event] else [], .ok ()⟩

/-- Goes on with a result, unless there is a fault. -/
def andThen (x : Traced α) (f : α → Traced β) : Traced β :=
  match x.result with
  | .error fault => ⟨x.events, .error fault⟩
  | .ok a =>
    let y := f a
    ⟨x.events ++ y.events, y.result⟩

instance : Monad Traced where
  pure := ok
  bind := andThen

/-- A result that may be a fault. -/
def ofExcept : Except Fault α → Traced α
  | .ok a => ok a
  | .error fault => fail fault

end Traced

/-- Tells the missing variables of expansions at a place, up to the first one that stops. -/
def report (place : Place) : List Template.Expansion → Traced Unit
  | [] => Traced.ok ()
  | e :: rest =>
    let missing := e.missing.map fun name =>
      Event.missing ⟨name, place.stage.map Prod.fst, place.kind, place.position⟩
    match e.result with
    | .error unset => ⟨missing, .error (.required unset place)⟩
    | .ok _ =>
      let others := report place rest
      ⟨missing ++ others.events, others.result⟩

end Dockerfile.Lower

import Dockerfile.Lower
import Dockerfile.Value

/-!
# Build requests

A request says what to build: build arguments, perhaps a target stage and perhaps a platform. It is
checked when it is made of a `Value`; every field that is wrong gives a `Detail`.
-/

namespace Dockerfile

/-- What to build. -/
structure Request where
  buildArgs : Table String
  target : Option String
  platform : Option Platform
  deriving DecidableEq, Repr

namespace Request

/-- What is wrong with a part of a request. -/
inductive Problem where
  | notRequest
  | notMap
  | notText
  | notPlatform
  | absent
  | platform (fault : Platform.Fault)
  deriving DecidableEq, Repr

/-- The name of the kind of a problem. -/
def Problem.kind : Problem → String
  | notRequest | notPlatform => "model_type"
  | notMap => "dict_type"
  | notText => "string_type"
  | absent => "missing"
  | platform _ => "value_error"

/-- The wording of a problem. -/
def Problem.message : Problem → String
  | notRequest => "Input should be a valid dictionary or instance of BuildRequest"
  | notMap => "Input should be a valid dictionary"
  | notText => "Input should be a valid string"
  | notPlatform => "Input should be a valid dictionary or instance of Platform"
  | absent => "Field required"
  | platform fault => s!"Value error, {fault.message}"

/-- A problem and the path of the part that has it. -/
structure Detail where
  path : List String
  problem : Problem
  deriving DecidableEq, Repr

/-- A part of a request, or what is wrong with it. -/
abbrev Checked (α : Type) := Except (List Detail) α

/-- The result of `f` on two parts; if any of them is wrong, all that is wrong. -/
def Checked.both {α β γ : Type} (f : α → β → γ) : Checked α → Checked β → Checked γ
  | .ok a, .ok b => .ok (f a b)
  | .ok _, .error more => .error more
  | .error details, .ok _ => .error details
  | .error details, .error more => .error (details ++ more)

/-- The build arguments that a map gives. Null gives the empty text. -/
def bindings (entries : List (Value × Value)) : List (String × String) :=
  entries.map fun (name, value) =>
    (name.text, match value with
      | .null => ""
      | value => value.text)

/-- A text, or nothing if the value is missing or null. -/
def readText (path : List String) : Option Value → Checked (Option String)
  | none | some .null => .ok none
  | some (.str s) => .ok (some s)
  | some _ => .error [⟨path, .notText⟩]

/-- The operating system of a platform, which must be given. -/
def readOs : Option Value → Checked String
  | none => .error [⟨["platform", "os"], .absent⟩]
  | some (.str s) => .ok s
  | some _ => .error [⟨["platform", "os"], .notText⟩]

/-- A platform: a text that names one, or a map of its parts, which are taken as they are. -/
def readPlatform : Option Value → Checked (Option Platform)
  | none | some .null => .ok none
  | some (.str s) =>
    match Platform.parse s with
    | .ok p => .ok (some p)
    | .error fault => .error [⟨["platform"], .platform fault⟩]
  | some (.map entries) =>
    let part (name : String) := readText ["platform", name] ((Value.map entries).get? name)
    Checked.both (fun os (architecture, variant) => some ⟨os, architecture, variant⟩)
      (readOs ((Value.map entries).get? "os"))
      (Checked.both Prod.mk (part "architecture") (part "variant"))
  | some _ => .error [⟨["platform"], .notPlatform⟩]

/-- The field that one of two names has, the first of them first. -/
def field? (v : Value) (first second : String) : Option (String × Value) :=
  match v.get? first, v.get? second with
  | some value, _ => some (first, value)
  | none, some value => some (second, value)
  | none, none => none

/-- The build arguments of a field. -/
def readArgs : Option (String × Value) → Checked (Table String)
  | none => .ok []
  | some (_, .map entries) => .ok (Table.ofList (bindings entries))
  | some (name, _) => .error [⟨[name], .notMap⟩]

/-- The target of a field. A whole number or a truth value stands for its text. -/
def readTarget : Option (String × Value) → Checked (Option String)
  | some (_, .int n) => .ok (some (Value.int n).text)
  | some (_, .bool b) => .ok (some (Value.bool b).text)
  | some (name, value) => readText [name] (some value)
  | none => .ok none

/-- A request of its parts. -/
def ofParts (args : Checked (Table String)) (target : Checked (Option String))
    (platform : Checked (Option Platform)) : Checked Request :=
  Checked.both (fun args (target, platform) => ⟨args, target, platform⟩) args
    (Checked.both Prod.mk target platform)

/-- The request that a value makes. -/
def ofValue : Value → Checked Request
  | .map entries =>
    let v := Value.map entries
    ofParts (readArgs (field? v "buildArgs" "build_args"))
      (readTarget (field? v "targetStage" "target_stage")) (readPlatform (v.get? "platform"))
  | _ => .error [⟨[], .notRequest⟩]

/-- The request that asks for nothing in particular. -/
def empty : Request := ⟨[], none, none⟩

/-- What a request asks of a lowering. -/
def job (r : Request) : Lower.Job := ⟨r.buildArgs, r.target, r.platform⟩

end Request

end Dockerfile

import Dockerfile.Instruction.Reader

/-!
# Documents

A document is a file as it was read: its directives, the instructions before its first stage, and
its stages. A stage starts at a `FROM` and goes up to the next one.
-/

namespace Dockerfile

/-- One stage of a build. -/
structure Stage where
  index : Nat
  /-- The place of the stage's `FROM`. -/
  position : Position
  base : Base
  instructions : List Instruction
  deriving DecidableEq, Repr

namespace Stage

/-- The name of a stage, which is what its `FROM` calls it. -/
def name (s : Stage) : Option String := s.base.name

/-- The name of a stage, or its number. -/
def displayName (s : Stage) : String := s.name.getD (toString s.index)

/-- Is the stage called `name`? Small and capital letters are not told apart. -/
def isNamed (s : Stage) (name : String) : Bool :=
  match s.name with
  | some own => Text.toLower own = Text.toLower name
  | none => false

end Stage

/-- A file as it was read. -/
structure Document where
  directives : List (Directive × Position)
  /-- The instructions before the first stage. -/
  preamble : List Instruction
  stages : List Stage
  escape : Char
  deriving DecidableEq, Repr

/-- Why a text is no document. -/
inductive SourceFault where
  | lexical (fault : Lexer.Fault)
  | grammatical (fault : Instruction.Fault)
  /-- An array has an integer of too many digits. No place is told. -/
  | overlong (digits : Nat)
  deriving DecidableEq, Repr

/-- The fault of a text with a line that is no instruction. -/
def SourceFault.ofLine (fault : Instruction.Fault) : SourceFault :=
  match fault.cause with
  | .overlong digits => overlong digits
  | _ => grammatical fault

/-- The fault as it is shown. -/
def SourceFault.diagnostic : SourceFault → Diagnostic
  | lexical fault => fault.diagnostic
  | grammatical fault => fault.diagnostic
  | overlong digits => .ofText (Json.Reader.Fault.overlong digits).message

namespace Document

/-! ### Reading -/

/-- The instructions of some entries, up to the first fault. -/
def instructions (escape : Char) : List Entry → Except SourceFault (List Instruction)
  | [] => .ok []
  | .comment _ :: rest => instructions escape rest
  | .lineEnd :: rest => instructions escape rest
  | .line line :: rest =>
    match Instruction.ofLine escape line with
    | .error fault => .error (.ofLine fault)
    | .ok i => (i :: ·) <$> instructions escape rest
  | .stray t :: _ => .error (.grammatical ⟨.strayToken t, t.position⟩)
  | .broken fault :: _ => .error (.lexical fault)

/-- The instructions up to the next `FROM`, and the rest. -/
def splitStage : List Instruction → List Instruction × List Instruction
  | [] => ([], [])
  | ⟨position, .base base⟩ :: rest => ([], ⟨position, .base base⟩ :: rest)
  | i :: rest =>
    let (own, others) := splitStage rest
    (i :: own, others)

/-- The stages of instructions, the first of which has the number `index`. Instructions before the
first `FROM` are not looked at. -/
def stagesFrom (index : Nat) : List Instruction → List Stage
  | [] => []
  | ⟨position, .base base⟩ :: rest =>
    ⟨index, position, base, (splitStage rest).1⟩ :: stagesFrom (index + 1) rest
  | _ :: rest => stagesFrom index rest

/-- Groups instructions into a document. -/
def ofInstructions (directives : List (Directive × Position)) (escape : Char)
    (instructions : List Instruction) : Document :=
  ⟨directives, (splitStage instructions).1, stagesFrom 0 instructions, escape⟩

/-- Reads entries. -/
def ofEntries (entries : List Entry) : Except SourceFault Document :=
  let directives := Entry.directives entries
  let escape := Entry.escapeOf directives
  ofInstructions directives escape <$> instructions escape entries

/-- Reads a text. -/
def parse (source : String) : Except SourceFault Document :=
  ofEntries (Entry.ofScan (Token.scan source))

/-- Reads tokens. -/
def ofTokens (tokens : List Token) : Except SourceFault Document :=
  ofEntries (Entry.ofTokensFrom none none tokens)

/-- The escape character that the directives of a text leave, whether or not the text can be read
as a whole. -/
def escapeOf (source : String) : Char :=
  Entry.escapeOf (Entry.directives (Entry.ofScan (Token.scan source)))

/-! ### Looking things up -/

/-- The declarations of build arguments before the first stage. -/
def metaArgs (d : Document) : List (Position × List Declaration) :=
  d.preamble.filterMap fun i =>
    match i.body with
    | .arg declarations => some (i.position, declarations)
    | _ => none

/-- The value of the first directive of a name. -/
def directive? (d : Document) (name : String) : Option String :=
  (d.directives.find? (·.1.name = name)).map (·.1.value)

/-- The first stage of a name. -/
def stageNamed? (d : Document) (name : String) : Option Stage :=
  d.stages.find? (·.isNamed name)

end Document

end Dockerfile

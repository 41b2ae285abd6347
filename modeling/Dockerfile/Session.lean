import Dockerfile.Lower

/-!
# Sessions

A session has one reader and one checker, and reads and checks one text after the other with them.
It remembers the last document that was read and what a check of it found.

While a reader goes through a text it keeps the escape character that the directives so far have
set, and the instructions are read with that one. The character stays behind when the text is over,
also if that is because of a fault.

A checker goes over a document once, and what it has found out on the way, it keeps: the findings,
the references that are settled, the names that are declared before the first stage, and for every
stage the names that are known at its end. The checks that follow ask for these. All of it stays
behind until the checker starts with the next document.
-/

namespace Dockerfile

namespace Session

/-! ### Readers -/

/-- A reader of texts. -/
structure Reader where
  escape : Char := Directive.defaultEscape
  deriving DecidableEq, Repr

/-- What has been read of a text. -/
structure Reading where
  directives : List (Directive × Position) := []
  /-- The instructions before the first stage. -/
  preamble : List Instruction := []
  stages : List Stage := []
  /-- Can a comment still be a directive? -/
  atTop : Bool := true
  /-- Was the last entry a comment? -/
  behindComment : Bool := false

namespace Reading

/-- Adds an instruction: a `FROM` starts a stage, anything else belongs to the last one. -/
def add (w : Reading) (i : Instruction) : Reading :=
  match i.body with
  | .base base => { w with stages := w.stages ++ [⟨w.stages.length, i.position, base, []⟩] }
  | _ =>
    match w.stages.getLast? with
    | none => { w with preamble := w.preamble ++ [i] }
    | some stage =>
      let stage := { stage with instructions := stage.instructions ++ [i] }
      { w with stages := w.stages.dropLast ++ [stage] }

/-- The document at the end of a text. -/
def finish (w : Reading) (escape : Char) : Document := ⟨w.directives, w.preamble, w.stages, escape⟩

end Reading

namespace Reader

/-- Reads an entry of a text. -/
def step (r : Reader) (w : Reading) : Entry → Reader × Except SourceFault Reading
  | .comment t =>
    match if w.atTop then Directive.parse? t.text else none with
    | some d =>
      ({ r with escape := d.escape?.getD r.escape },
        .ok { w with directives := w.directives ++ [(d, t.position)], behindComment := true })
    | none => (r, .ok { w with atTop := false, behindComment := true })
  | .lineEnd => (r, .ok { w with atTop := w.atTop && w.behindComment, behindComment := false })
  | .line line =>
    match Instruction.ofLine r.escape line with
    | .error fault => (r, .error (.ofLine fault))
    | .ok i => (r, .ok { w.add i with atTop := false, behindComment := false })
  | .stray t => (r, .error (.grammatical ⟨.strayToken t, t.position⟩))
  | .broken fault => (r, .error (.lexical fault))

/-- Reads the rest of a text, up to the first fault. -/
def readFrom (r : Reader) (w : Reading) : List Entry → Reader × Except SourceFault Document
  | [] => (r, .ok (w.finish r.escape))
  | entry :: rest =>
    match r.step w entry with
    | (r, .error fault) => (r, .error fault)
    | (r, .ok w) => r.readFrom w rest

/-- Reads a text. -/
def read (r : Reader) (source : String) : Reader × Except SourceFault Document :=
  { r with escape := Directive.defaultEscape }.readFrom {} (Entry.ofScan (Token.scan source))

end Reader

/-! ### Checkers -/

open Check

/-- A checker of documents. -/
structure Checker where
  document : Document := ⟨[], [], [], Directive.defaultEscape⟩
  /-- In the order in which they are made. -/
  findings : List Finding := []
  resolution : Resolution := .empty
  /-- The names declared before the first stage. -/
  metas : List String := []
  /-- The names known at the end of stages, by the numbers of the stages. -/
  known : List (Nat × List String) := []

namespace Checker

/-- Starts with a document. -/
def reset (c : Checker) (d : Document) : Checker :=
  { c with document := d, findings := [], resolution := .empty, metas := [], known := [] }

/-- Adds findings. -/
def tell (c : Checker) (findings : List Finding) : Checker :=
  { c with findings := c.findings ++ findings }

/-- Settles references. -/
def settle (c : Checker) (entries : List (Site × Nat)) : Checker :=
  { c with resolution := ⟨c.resolution.entries ++ entries⟩ }

/-- Checks the instructions before the first stage. -/
def checkPreamble (c : Checker) : Checker :=
  { c.tell (Check.checkPreamble c.document) with metas := metaNames c.document }

/-- Checks the names of the stages. -/
def checkNames (c : Checker) : Checker := c.tell (nameFindings [] c.document.stages)

/-- Checks the `FROM` of a stage. -/
def checkBase (c : Checker) (stage : Stage) : Checker :=
  (c.tell ((baseIssues c.document c.metas stage).map (⟨·, stage.position⟩))).settle
    ((base? c.document stage).toList.map fun target => (⟨stage.index, none, 0⟩, target))

/-- Checks the instructions of a stage from a position on, behind instructions of the kinds `seen`. -/
def checkInstructions (c : Checker) (stage : Stage) (scope : Scope) (seen : List Kind)
    (position : Nat) : List Instruction → Checker
  | [] => c
  | i :: rest =>
    let c := (c.tell (instructionFindings c.document stage scope seen [i])).settle
      (originEntries c.document stage position i.body)
    c.checkInstructions stage (scope.after i.body) (i.kind :: seen) (position + 1) rest

/-- The names that a stage starts with: those of the stage that its `FROM` was settled to. -/
def inherited (c : Checker) (stage : Stage) : List String :=
  ((c.resolution.baseOf? stage.index).bind (List.lookup · c.known)).getD []

/-- Checks a stage. -/
def checkStage (c : Checker) (stage : Stage) : Checker :=
  let c := c.checkBase stage
  let scope : Scope := ⟨c.metas, true, c.inherited stage, argNames stage⟩
  let c := c.checkInstructions stage scope [] 0 stage.instructions
  { c with known := (stage.index, (scope.afterAll stage.instructions).known) :: c.known }

/-- What the checker has found out. -/
def report (c : Checker) : Report := ⟨c.findings, c.resolution⟩

/-- Checks a document. -/
def check (c : Checker) (d : Document) : Checker × Report :=
  let c := (c.reset d).checkPreamble.checkNames
  let c := d.stages.foldl checkStage c
  (c, c.report)

end Checker

end Session

/-! ### Sessions -/

/-- What a session remembers. -/
structure Session where
  reader : Session.Reader := {}
  checker : Session.Checker := {}
  document : Option Document := none
  report : Option Report := none

namespace Session

/-- The escape character of the last text, also of one that could not be read. -/
def escape (s : Session) : Char := s.reader.escape

/-- Reads a text. A document that is read takes the place of the last one, and its check is still to
come. -/
def parse (s : Session) (source : String) : Session × Except SourceFault Document :=
  match s.reader.read source with
  | (reader, .ok document) =>
    ({ s with reader := reader, document := some document, report := none }, .ok document)
  | (reader, .error fault) => ({ s with reader := reader }, .error fault)

/-- Checks a document. -/
def check (s : Session) (document : Document) : Session × Report :=
  let (checker, report) := s.checker.check document
  ({ s with checker := checker, report := some report }, report)

/-- Lowers the document of the session. Without a check nothing is refused, and no references are
settled beforehand. -/
def lower (s : Session) (buildArgs : Table String) (target platform : Option String) :
    Option (Lower.Traced Graph) :=
  s.document.map fun document => document.lowerFor s.report none buildArgs target platform

/-- What can be asked of a session. -/
inductive Call where
  | parse (source : String)
  | check (document : Document)
  deriving DecidableEq, Repr

/-- What a call answers. -/
inductive Answer where
  | document (result : Except SourceFault Document)
  | report (report : Report)

/-- Makes a call. -/
def call (s : Session) : Call → Session × Answer
  | .parse source =>
    let (s, result) := s.parse source
    (s, .document result)
  | .check document =>
    let (s, report) := s.check document
    (s, .report report)

/-- Makes calls one after the other. -/
def calls (s : Session) : List Call → Session × List Answer
  | [] => (s, [])
  | c :: rest =>
    let (s, answer) := s.call c
    let (s, answers) := s.calls rest
    (s, answer :: answers)

end Session

end Dockerfile

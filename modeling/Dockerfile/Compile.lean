import Dockerfile.Request

/-!
# From a text to a graph

A text is read and checked (`analyze`), and then lowered for a request (`compile`). What is met on
the way is told as events, also if a fault ends it.
-/

namespace Dockerfile

/-- A document and what the check of it found. -/
structure Analysis where
  document : Document
  report : Report

/-- An analysed document and the graph of its target. -/
structure Compilation extends Analysis where
  graph : Graph

namespace Compile

/-- What is told on the way from a text to a graph. -/
inductive Event where
  /-- Reading starts. -/
  | reading (file : String)
  /-- A document was read. -/
  | read (stages preamble : Nat)
  /-- A document was checked. -/
  | checked (errors warnings references : Nat)
  | lowering (event : Lower.Event)
  /-- A graph was made. -/
  | lowered (operations target : Nat)
  deriving DecidableEq, Repr

/-- Why a text gives no graph. -/
inductive Fault where
  | source (fault : SourceFault)
  | lowering (fault : Lower.Fault)
  deriving DecidableEq, Repr

/-- The fault as it is shown, with the name of the file. -/
def Fault.diagnostic (file : Option String) : Fault → Diagnostic
  | source fault => fault.diagnostic.attach file
  | lowering fault => fault.diagnostic.attach file

/-- A result or a fault, and the events up to it. -/
structure Run (α : Type) where
  events : List Event
  result : Except Fault α

/-- The name that stands for a text of which no file is known. -/
def fileName (file : Option String) : String :=
  match file with
  | some name => if name.isEmpty then "<string>" else name
  | none => "<string>"

/-- Reads and checks a text. -/
def analyze (file : Option String) (source : String) : Run Analysis :=
  let start := Event.reading (fileName file)
  match Document.parse source with
  | .error fault => ⟨[start], .error (.source fault)⟩
  | .ok document =>
    let report := document.check
    ⟨[start, .read document.stages.length document.preamble.length,
      .checked report.errors.length report.warnings.length report.resolution.entries.length],
      .ok ⟨document, report⟩⟩

/-- Reads and checks a text and lowers it for a request. -/
def compile (file : Option String) (source : String) (request : Request) : Run Compilation :=
  let analysis := analyze file source
  match analysis.result with
  | .error fault => ⟨analysis.events, .error fault⟩
  | .ok a =>
    let lowered := a.document.lowerChecked a.report request.job
    let events := analysis.events ++ lowered.events.map .lowering
    match lowered.result with
    | .error fault => ⟨events, .error (.lowering fault)⟩
    | .ok graph =>
      ⟨events ++ [.lowered graph.operations.length graph.target],
        .ok { toAnalysis := a, graph := graph }⟩

end Compile

end Dockerfile

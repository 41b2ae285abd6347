import Dockerfile.Dependencies
import Dockerfile.Graph.Dump

/-!
# Drawings

A graph as a drawing: a cluster of nodes for each stage, and edges. A drawing is written in the DOT
language.
-/

namespace Dockerfile

/-- A node of a drawing. -/
structure Drawing.Node where
  id : String
  label : String
  /-- Is the node the end of its stage? -/
  terminal : Bool
  deriving DecidableEq, Repr

/-- The nodes of a stage. -/
structure Drawing.Cluster where
  index : Nat
  label : String
  base : String
  nodes : List Drawing.Node
  deriving DecidableEq, Repr

/-- An edge between two nodes. -/
structure Drawing.Edge where
  source : String
  target : String
  /-- Does the edge come from another stage? -/
  dashed : Bool
  deriving DecidableEq, Repr

/-- A drawing. -/
structure Drawing where
  clusters : List Drawing.Cluster
  edges : List Drawing.Edge
  deriving DecidableEq, Repr

namespace Drawing

/-- One character of a quoted text. -/
def escapeChar (c : Char) : List Char :=
  if c = '\\' then ['\\', '\\']
  else if c = '"' then ['\\', '"']
  else if c = '\n' then ['\\', 'n']
  else [c]

/-- A text as it stands between double quotes. -/
def escape (text : String) : String := String.ofList (text.toList.flatMap escapeChar)

/-! ### Graphs as drawings -/

/-- The greatest length of what is told about an operation. -/
def labelLimit : Nat := 48

/-- A text, cut where it is too long. -/
def shorten (text : List Char) : List Char :=
  if text.length > labelLimit then text.take (labelLimit - 3) ++ ['.', '.', '.'] else text

/-- What is told about a task: the last argument of a command, the paths of files, or the names of
changed settings. -/
def detail : Task → String
  | .exec e => e.args.getLast?.getD ""
  | .file f => " ".intercalate f.sources ++ " -> " ++ f.destination
  | .config change => ", ".intercalate (Dependencies.sortDistinct (change.fields.map Prod.fst))

/-- The label of an operation. -/
def summary (o : Operation) : String :=
  s!"{o.id.render} {o.kind.name}\n" ++ String.ofList (shorten (detail o.task).toList)

/-- The name of the node that a stage starts from. -/
def baseNode (index : Nat) : String := s!"base{index}"

/-- The node of an operation of a stage. -/
def node (stage : StageGraph) (o : Operation) : Node :=
  ⟨o.id.render, summary o, stage.terminal = some o.id⟩

/-- Does a name tell that its operation is one of a stage? -/
def namesStage (index : Nat) (name : String) : Bool := s!"s{index}.".toList.isPrefixOf name.toList

/-- The edges to an operation of a stage. -/
def edgesTo (stage : StageGraph) (o : Operation) : List Edge :=
  (if o.baseImage.isSome then [⟨baseNode stage.index, o.id.render, false⟩] else []) ++
    o.inputs.map fun input => ⟨input.render, o.id.render, !namesStage stage.index input.render⟩

/-- The cluster of a stage. -/
def cluster (g : Graph) (stage : StageGraph) : Cluster where
  index := stage.index
  label := s!"stage {stage.index}" ++
    match stage.name with
    | some name => if name.isEmpty then "" else s!" ({name})"
    | none => ""
  base := stage.baseImage
  nodes := (g.stageOperations stage.index).map (node stage)

/-- The drawing of a graph. -/
def ofGraph (g : Graph) : Drawing where
  clusters := g.stages.map (cluster g)
  edges := g.stages.flatMap fun stage => (g.stageOperations stage.index).flatMap (edgesTo stage)

/-! ### Writing -/

/-- A text between double quotes. -/
def quote (text : String) : String := "\"" ++ escape text ++ "\""

def Node.lines (n : Node) : List String :=
  ["", s!"    \"{n.id}\" [label={quote n.label}" ++ (if n.terminal then ", penwidth=2" else "") ++ "];"]

def Cluster.lines (c : Cluster) : List String :=
  ["", s!"  subgraph cluster_{c.index} \x7b",
   s!"    label={quote c.label};",
   s!"    \"{baseNode c.index}\" [label={quote c.base}, shape=ellipse];"] ++
    c.nodes.flatMap Node.lines ++ ["", "  \x7d"]

def Edge.lines (e : Edge) : List String :=
  ["", s!"  \"{e.source}\" -> \"{e.target}\"" ++ (if e.dashed then " [style=dashed]" else "") ++ ";"]

/-- The lines of a drawing. -/
def lines (d : Drawing) : List String :=
  ["digraph dfc \x7b", "  rankdir=LR;", "  node [shape=box, fontname=\"monospace\"];"] ++
    d.clusters.flatMap Cluster.lines ++ [""] ++ d.edges.flatMap Edge.lines ++ ["", "\x7d"]

/-- A drawing as text. -/
def render (d : Drawing) : String := "\n".intercalate d.lines

end Drawing

end Dockerfile

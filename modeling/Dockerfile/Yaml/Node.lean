import Dockerfile.Yaml.Token

/-!
# Nodes of YAML

A document is a graph of scalars, sequences and mappings. A node may have a tag, and a name to which
later parts of the document refer: the reference stands for the node. The parts of a collection are
behind its name, so that a collection can be one of its own parts.
-/

namespace Dockerfile.Yaml

/-- The place of a node in its document. -/
abbrev Place := Nat

/-- A node of a document. `plain` says that a scalar's text decides what kind of value it is. -/
inductive Node where
  | scalar (tag : Option String) (plain : Bool) (text : String)
  | seq (tag : Option String) (items : List Place)
  | map (tag : Option String) (entries : List (Place × Place))
  deriving Inhabited, DecidableEq, Repr

/-- A document: its nodes by their places, and the place of its root. -/
structure Document where
  nodes : Array Node
  root : Place
  deriving DecidableEq, Repr

namespace Node

/-- The node that stands where nothing is written. -/
def empty : Node := scalar none true ""

/-- What the handles of tags stand for, if no directive says otherwise. -/
def standardHandles : List (String × String) := [("!", "!"), ("!!", "tag:yaml.org,2002:")]

/-- The reader of nodes: the tokens ahead and the fault behind them, the nodes so far, the places of
the named ones and what handles stand for. -/
structure Reader where
  tokens : List Token
  fault : Option Fault := none
  nodes : Array Node := #[]
  named : List (String × Place) := []
  handles : List (String × String) := standardHandles

/-- A step of the reader. -/
abbrev Read := StateT Reader (Except Fault)

namespace Read

/-- The next token. Where a fault comes instead of one, the fault breaks reading off. -/
def peek : Read (Option Token) := do
  match (← get).tokens, (← get).fault with
  | [], some fault => throw fault
  | tokens, _ => pure tokens.head?

/-- Moves over the next token. -/
def skip : Read Unit := modify fun r => { r with tokens := r.tokens.drop 1 }

/-- Refuses the text. -/
def fail {α : Type} : Read α := throw Fault.malformed

/-- Is the next token one of these? -/
def next (ts : List Token) : Read Bool := do pure ((← peek).any ts.contains)

/-- Moves over the next token, which has to be `t`. -/
def expect (t : Token) : Read Unit := do if ← next [t] then skip else fail

/-- Reads a name for the node that follows. -/
def anchor? : Read (Option String) := do
  match ← peek with
  | some (.anchor name) =>
    skip
    pure (some name)
  | _ => pure none

/-- Reads a tag: its handle, perhaps, and the text behind it. -/
def tag? : Read (Option (Option String × String)) := do
  match ← peek with
  | some (.tag handle suffix) =>
    skip
    pure (some (handle, suffix))
  | _ => pure none

/-- What a tag stands for. Its handle has to be known. -/
def resolve : Option (Option String × String) → Read (Option String)
  | none => pure none
  | some (none, suffix) => pure (some suffix)
  | some (some handle, suffix) => do
    match (← get).handles.lookup handle with
    | some stem => pure (some (stem ++ suffix))
    | none => fail

/-- Reads a name and a tag in either order. -/
def properties : Read (Option String × Option String) := do
  match ← anchor? with
  | some name => pure (some name, ← resolve (← tag?))
  | none =>
    let tag ← tag?
    let name ← if tag.isSome then anchor? else pure none
    pure (name, ← resolve tag)

/-- Gives a node a place. -/
def add (node : Node) : Read Place := do
  let place := (← get).nodes.size
  modify fun r => { r with nodes := r.nodes.push node }
  pure place

/-- Notes the name of the node at a place. A name is given once. -/
def register (name : Option String) (place : Place) : Read Unit := do
  match name with
  | none => pure ()
  | some name =>
    if ((← get).named.lookup name).isSome then fail
    modify fun r => { r with named := (name, place) :: r.named }

/-- Adds a scalar. -/
def leaf (name : Option String) (node : Node) : Read Place := do
  let place ← add node
  register name place
  pure place

/-- Adds a collection, to whose name its parts may refer. -/
def collection (name : Option String) (parts : Read Node) : Read Place := do
  let place ← leaf name empty
  let node ← parts
  modify fun r => { r with nodes := r.nodes.setIfInBounds place node }
  pure place

mutual

/-- Reads a node. Block collections count where `block` says so, and a sequence may stand at the
column of the mapping around it where `indentless` says so. -/
def node (block indentless : Bool) : Nat → Read Place
  | 0 => fail
  | fuel + 1 => do
    match ← peek with
    | some (.refer name) =>
      skip
      match (← get).named.lookup name with
      | some place => pure place
      | none => fail
    | _ =>
      let (name, tag) ← properties
      match ← peek with
      | some .blockEntry =>
        if indentless then collection name (seq tag <$> entries fuel) else bare name tag
      | some (.scalar text plain) =>
        skip
        leaf name (scalar tag ((plain && tag.isNone) || tag = some "!") text)
      | some .flowSequence =>
        skip
        collection name (seq tag <$> flowItems true fuel)
      | some .flowMapping =>
        skip
        collection name (map tag <$> flowEntries true fuel)
      | some .blockSequence =>
        if block then
          skip
          collection name do
            let items ← entries fuel
            expect .blockEnd
            pure (seq tag items)
        else bare name tag
      | some .blockMapping =>
        if block then
          skip
          collection name (map tag <$> pairs fuel)
        else bare name tag
      | _ => bare name tag

/-- A node of which only a name or a tag is written. -/
def bare (name tag : Option String) : Read Place :=
  if name.isSome || tag.isSome then
    leaf name (scalar tag (tag.isNone || tag = some "!") "")
  else fail

/-- Reads the items of a block sequence, each behind a hyphen. -/
def entries : Nat → Read (List Place)
  | 0 => fail
  | fuel + 1 => do
    if ← next [.blockEntry] then
      skip
      let item ← if ← next [.blockEntry, .key, .value, .blockEnd] then add empty
        else node true false fuel
      pure (item :: (← entries fuel))
    else pure []

/-- Reads the entries of a block mapping and its end. -/
def pairs : Nat → Read (List (Place × Place))
  | 0 => fail
  | fuel + 1 => do
    if ← next [.key] then
      skip
      let key ← if ← next [.key, .value, .blockEnd] then add empty else node true true fuel
      let value ← pairValue fuel
      pure ((key, value) :: (← pairs fuel))
    else
      expect .blockEnd
      pure []

/-- Reads the value of an entry of a block mapping. -/
def pairValue : Nat → Read Place
  | 0 => fail
  | fuel + 1 => do
    if ← next [.value] then
      skip
      if ← next [.key, .value, .blockEnd] then add empty else node true true fuel
    else add empty

/-- Reads the items of a flow sequence and its end. An item may be a mapping of one entry without
braces. -/
def flowItems (first : Bool) : Nat → Read (List Place)
  | 0 => fail
  | fuel + 1 => do
    if ← next [.flowSequenceEnd] then
      skip
      return []
    if !first then expect .flowEntry
    if ← next [.flowSequenceEnd] then
      skip
      return []
    let item ← if ← next [.key] then do
        skip
        let key ← if ← next [.value, .flowEntry, .flowSequenceEnd] then add empty
          else node false false fuel
        let value ← flowValue .flowSequenceEnd fuel
        add (map none [(key, value)])
      else node false false fuel
    pure (item :: (← flowItems false fuel))

/-- Reads the entries of a flow mapping and its end. -/
def flowEntries (first : Bool) : Nat → Read (List (Place × Place))
  | 0 => fail
  | fuel + 1 => do
    if ← next [.flowMappingEnd] then
      skip
      return []
    if !first then expect .flowEntry
    if ← next [.flowMappingEnd] then
      skip
      return []
    let entry ← if ← next [.key] then do
        skip
        let key ← if ← next [.value, .flowEntry, .flowMappingEnd] then add empty
          else node false false fuel
        pure (key, ← flowValue .flowMappingEnd fuel)
      else do pure (← node false false fuel, ← add empty)
    pure (entry :: (← flowEntries false fuel))

/-- Reads the value of an entry in a flow collection. -/
def flowValue (close : Token) : Nat → Read Place
  | 0 => fail
  | fuel + 1 => do
    if ← next [.value] then
      skip
      if ← next [.flowEntry, close] then add empty else node false false fuel
    else add empty

end

/-- Moves over the ends of documents. -/
def skipEnds (r : Reader) : Reader :=
  { r with tokens := r.tokens.dropWhile (· = .documentEnd) }

/-- What the directives in front of a document say about handles, where `version` tells whether a
version has been given. -/
def directives (version : Bool) (found : List (String × String)) :
    List Token → Except Fault (List (String × String) × List Token)
  | .directive (.version major) :: rest => do
    if version || major != 1 then throw .malformed
    directives true found rest
  | .directive (.handle name stem) :: rest => do
    if (found.lookup name).isSome then throw .malformed
    directives version ((name, stem) :: found) rest
  | .directive .other :: rest => directives version found rest
  | rest => pure (found, rest)

/-- Is the next token at the edge of a document? -/
def atEdge : Read Bool := do
  match ← peek with
  | none | some .documentStart | some .documentEnd | some (.directive _) => pure true
  | _ => pure false

/-- Reads the marks in front of a document and the document, which may be empty behind them. -/
def content (fuel : Nat) : Read Place := do
  match ← peek with
  | some .documentStart | some (.directive _) =>
    let (found, rest) ← directives false [] (← get).tokens
    modify fun r => { r with tokens := rest, handles := found ++ standardHandles }
    expect .documentStart
    if ← atEdge then add empty else node true false fuel
  | _ => node true false fuel

/-- Reads a document and the end of the text. -/
def document (fuel : Nat) : Read (Option Document) := do
  if (← peek).isNone then return none
  let root ← content fuel
  modify skipEnds
  if (← peek).isSome then fail
  pure (some ⟨(← get).nodes, root⟩)

end Read

end Node

/-- The document of a stream of tokens, or nothing if there is none in it. -/
def Document.ofStream (stream : Token.Stream) : Except Fault (Option Document) :=
  (Node.Read.document (4 * stream.tokens.length + 4)).run'
    { tokens := stream.tokens, fault := stream.fault }

end Dockerfile.Yaml

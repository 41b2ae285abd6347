import Dockerfile.Value
import Dockerfile.Yaml.Kind
import Dockerfile.Yaml.Node

/-!
# YAML

`Yaml.load` reads the data of a YAML text of one document. The collections are built in the order in
which a walk from the root meets them, all of one depth before those below. In a mapping a later
entry for a key replaces an earlier one.

Under the key `<<` a mapping names others, whose entries count as written in front of its own.
`Document.merge` puts them there. A mapping that lends entries is merged first. An entry is taken
out before what it names is looked at, so that mappings may name each other: fewer entries remain at
each step.
-/

namespace Dockerfile.Yaml

/-! ### Merging mappings -/

/-- The kind of a scalar, if its tag or its text gives one. -/
def Node.kind? : Node → Option Kind
  | scalar none plain text => some (if plain then .ofPlain text else .str)
  | scalar (some "!") _ text => some (.ofPlain text)
  | scalar (some tag) _ _ => Kind.ofTag? tag
  | _ => none

/-- The entries of a mapping. -/
def Node.entries : Node → List (Place × Place)
  | map _ entries => entries
  | _ => []

namespace Document

/-- Is the node at a place a scalar of a kind? -/
def isOf (d : Document) (kind : Kind) (place : Place) : Bool :=
  (d.nodes[place]?.bind Node.kind?) = some kind

/-- The entries of the mapping at a place. -/
def entriesAt (d : Document) (place : Place) : List (Place × Place) :=
  d.nodes[place]?.elim [] Node.entries

/-- Puts a node at a place. -/
def set (d : Document) (place : Place) (node : Node) : Document :=
  { d with nodes := d.nodes.setIfInBounds place node }

/-- How many entries all mappings have. -/
def entryCount (d : Document) : Nat :=
  d.nodes.foldl (fun count node => count + node.entries.length) 0

/-- The mappings that a node lends from: itself, or the items of a sequence. -/
def lenders (d : Document) (place : Place) : Except Fault (List Place) := do
  let places := match d.nodes[place]? with
    | some (.seq _ items) => items
    | _ => [place]
  if places.all fun p => d.nodes[p]? matches some (.map ..) then pure places else throw .malformed

/-- Makes the key `=` of an entry a text. -/
def nameKey (d : Document) (key : Place) : Document :=
  match d.nodes[key]? with
  | some (.scalar _ _ text) =>
    if d.isOf .default key then d.set key (.scalar none false text) else d
  | _ => d

/-- Merges the mapping at a place, to which the entries `brought` have been lent so far. Of several
mappings under one key the last comes first. -/
def mergeAt (place : Place) : Nat → List (Place × Place) → Document → Except Fault Document
  | 0, _, _ => throw .malformed
  | fuel + 1, brought, d =>
    match d.nodes[place]? with
    | some (.map tag entries) =>
      let isMerge (entry : Place × Place) : Bool := d.isOf .merge entry.1
      match entries.find? isMerge with
      | some (_, source) => do
        let d := d.set place (.map tag (entries.eraseP isMerge))
        let (d, lent) ← (← d.lenders source).foldlM (fun (d, lent) lender => do
          let d ← mergeAt lender fuel [] d
          pure (d, d.entriesAt lender :: lent)) (d, [])
        mergeAt place fuel (brought ++ lent.flatten) d
      | none =>
        let d := (entries.map Prod.fst).foldl nameKey d
        pure (d.set place (.map tag (brought ++ entries)))
    | _ => pure d

/-- Merges the mapping at a place. -/
def merge (place : Place) (d : Document) : Except Fault Document :=
  mergeAt place (d.entryCount + 1) [] d

end Document

/-! ### Building data -/

/-- The builder of data: the document, the places of the collections that have been met, and the
collections that have been built. -/
structure Builder where
  document : Document
  met : List Place := []
  built : List (Place × Data.Parts) := []

/-- A step of the builder. -/
abbrev Build := StateT Builder (Except Fault)

namespace Build

/-- May a collection have a tag? -/
def tagged (own : String) (tag : Option String) : Bool :=
  tag.all fun tag => tag = "!" || tag = "tag:yaml.org,2002:" ++ own

/-- Notes that a collection has been met. -/
def meet (place : Place) : Build Data.Cell := do
  modify fun b => if b.met.contains place then b else { b with met := b.met ++ [place] }
  pure (.collection place)

/-- The value of a scalar. -/
def scalar (node : Node) (text : String) : Build Data.Cell :=
  match node.kind? with
  | some kind => do pure (.leaf (← kind.value text))
  | none => throw .malformed

/-- The value at a place. The parts of a collection are left for later. -/
def cell (place : Place) : Build Data.Cell := do
  match (← get).document.nodes[place]? with
  | some (.scalar tag plain text) => scalar (.scalar tag plain text) text
  | some (.seq tag _) => if tagged "seq" tag then meet place else throw .malformed
  | some (.map tag _) => if tagged "map" tag then meet place else throw .malformed
  | none => throw .malformed

/-- The entries of a mapping, behind those that are there. A collection is no key. -/
def entries (done : List (Value × Data.Cell)) :
    List (Place × Place) → Build (List (Value × Data.Cell))
  | [] => pure done
  | (key, place) :: more => do
    match ← cell key with
    | .collection _ => throw .malformed
    | .leaf key => entries (Value.setEntry key (← cell place) done) more

/-- The parts of the collection at a place. -/
def parts (place : Place) : Build Data.Parts := do
  let d ← (← get).document.merge place
  modify fun b => { b with document := d }
  match d.nodes[place]? with
  | some (.seq _ items) => .list <$> items.mapM cell
  | some (.map _ found) => .map <$> entries [] found
  | _ => throw .malformed

/-- Builds at most `fuel` collections, each once and in the order in which they have been met. -/
def collections : Nat → Build (List (Place × Data.Parts))
  | 0 => do pure (← get).built
  | fuel + 1 => do
    let b ← get
    match b.met.find? fun place => (b.built.lookup place).isNone with
    | none => pure b.built
    | some place =>
      let found ← parts place
      modify fun b => { b with built := b.built ++ [(place, found)] }
      collections fuel

/-- The data of a document. -/
def data (root : Place) (fuel : Nat) : Build Data := do
  let root ← cell root
  pure { root, collections := ← collections fuel }

end Build

/-- The data of a document. -/
def Document.data (d : Document) : Except Fault Data :=
  (Build.data d.root d.nodes.size).run' { document := d }

/-- The data of a YAML text. A text without a document is null. -/
def load (text : String) : Except Fault Data := do
  match ← Document.ofStream (Token.scan text) with
  | none => pure { root := .leaf .null }
  | some document => document.data

end Dockerfile.Yaml

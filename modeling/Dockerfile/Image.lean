import Dockerfile.Text
import Dockerfile.Text.Case

/-!
# Image references

An image reference names a registry, a repository in it and a tag or digest, such as
`docker.io/library/nginx:1.21`. The default registry is `docker.io`, a bare name stands in its
`library` folder, and without tag and digest the tag is `latest`.
-/

namespace Dockerfile

/-- A reference to an image. -/
structure Image where
  registry : String
  repository : String
  tag : Option String
  digest : Option String
  deriving DecidableEq, Repr

namespace Image

/-- Why a text is no image reference. -/
inductive Fault where
  | empty
  | digest (text : String)
  | tag (text : String)
  | registry (text : String)
  | name (text : String)
  deriving DecidableEq, Repr

/-- The wording of a fault. -/
def Fault.message : Fault → String
  | empty => "image reference cannot be empty"
  | digest text => s!"invalid digest format: {Text.quoted text}"
  | tag text => s!"invalid tag format: {Text.quoted text}"
  | registry text => s!"invalid registry host: {Text.quoted text}"
  | name text => s!"invalid image name format: {Text.quoted text}"

/-- The registry of an image that names none. -/
def defaultRegistry : String := "docker.io"

/-- The tag of an image that names neither tag nor digest. -/
def defaultTag : String := "latest"

/-! ### The parts of a reference -/

/-- ASCII letters and digits. -/
def isHostChar (c : Char) : Bool := c.isAlpha || c.isDigit

/-- ASCII small letters and digits. -/
def isNameChar (c : Char) : Bool := c.isLower || c.isDigit

/-- A path component of a repository: runs of small letters and digits with single separators
between them. -/
def isComponent (cs : List Char) : Bool :=
  (Text.splitWhen (fun c => c = '.' || c = '_' || c = '-') cs).all fun run =>
    !run.isEmpty && run.all isNameChar

/-- A repository: components with slashes between them. -/
def isRepository (cs : List Char) : Bool := (Text.splitAt '/' cs).all isComponent

/-- A host name: letters, digits, points and dashes, a letter or digit at both ends. -/
def isHost (cs : List Char) : Bool :=
  cs.head?.any isHostChar && cs.getLast?.any isHostChar &&
    cs.all fun c => isHostChar c || c = '.' || c = '-'

/-- A registry: a host, perhaps with a port. -/
def isRegistry (cs : List Char) : Bool :=
  match Text.cut? ':' cs with
  | some (host, port) => isHost host && !port.isEmpty && port.all Char.isDigit
  | none => isHost cs

/-- A tag: at most 128 letters, digits, underscores, points and dashes, the first of them no point
or dash. -/
def isTag (cs : List Char) : Bool :=
  cs.length ≤ 128 && cs.head?.any (fun c => isHostChar c || c = '_') &&
    cs.all fun c => isHostChar c || c = '_' || c = '.' || c = '-'

/-- A digest: the name of an algorithm and 64 hexadecimal digits. -/
def isDigest (cs : List Char) : Bool :=
  match Text.cut? ':' cs with
  | some (algorithm, hash) =>
    !algorithm.isEmpty && algorithm.all isNameChar && hash.length == 64 &&
      hash.all fun c => c.isDigit || ('a' ≤ c && c ≤ 'f')
  | none => false

/-- Does the first component of a path name a registry? -/
def namesRegistry (cs : List Char) : Bool :=
  cs.contains '.' || cs.contains ':' || cs = "localhost".toList

/-! ### Reading -/

/-- Splits off and checks the digest. -/
def splitDigest (cs : List Char) : Except Fault (List Char × Option (List Char)) :=
  match Text.cutLast? '@' cs with
  | some (before, digest) =>
    if Text.wholeLine isDigest digest then .ok (before, some digest)
    else .error (.digest (String.ofList digest))
  | none => .ok (cs, none)

/-- Splits off and checks the tag: what follows the last colon, unless a slash follows it. -/
def splitTag (cs : List Char) : Except Fault (List Char × Option (List Char)) :=
  match Text.cutLast? ':' cs with
  | some (before, tag) =>
    if tag.contains '/' then .ok (cs, none)
    else if Text.wholeLine isTag tag then .ok (before, some tag)
    else .error (.tag (String.ofList tag))
  | none => .ok (cs, none)

/-- Splits a name into registry and repository, and checks the registry. -/
def splitRegistry (cs : List Char) : Except Fault (List Char × List Char) :=
  match Text.cut? '/' cs with
  | some (first, rest) =>
    if namesRegistry first then
      if Text.wholeLine isRegistry first then .ok (first, rest)
      else .error (.registry (String.ofList first))
    else .ok (defaultRegistry.toList, cs)
  | none => .ok (defaultRegistry.toList, "library/".toList ++ cs)

/-- Reads an image reference. -/
def parse (reference : String) : Except Fault Image := do
  if reference.isEmpty then throw .empty
  let (named, digest) ← splitDigest reference.toList
  let (name, tag) ← splitTag named
  let (registry, repository) ← splitRegistry name
  if !Text.wholeLine isRepository (Text.lowerChars repository) then
    throw (.name (String.ofList name))
  let tag := if tag.isNone && digest.isNone then some defaultTag else tag.map String.ofList
  return ⟨String.ofList registry, String.ofList repository, tag, digest.map String.ofList⟩

/-! ### Writing -/

/-- The tag and digest as they follow a name. -/
def suffix (image : Image) : String :=
  image.tag.elim "" (":" ++ ·) ++ image.digest.elim "" ("@" ++ ·)

/-- The reference with its registry. -/
def fullName (image : Image) : String := s!"{image.registry}/{image.repository}{image.suffix}"

/-- The reference without what stands for itself: the default registry and its `library`. -/
def shortName (image : Image) : String :=
  if image.registry = defaultRegistry then
    let cs := image.repository.toList
    let short := if "library/".toList.isPrefixOf cs then cs.drop 8 else cs
    String.ofList short ++ image.suffix
  else image.fullName

/-- The full name of the image that a text names, and the text itself when it names none. The empty
image is `scratch`. -/
def normalize (text : String) : String :=
  if Text.toLower text = "scratch" then "scratch"
  else match parse text with
    | .ok image => image.fullName
    | .error _ => text

end Image

end Dockerfile

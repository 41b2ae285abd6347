import Dockerfile.Text

/-!
# Platforms

A platform is an operating system, perhaps an architecture and perhaps a variant, written
`os[/architecture[/variant]]`.
-/

namespace Dockerfile

/-- The platform that an image is built for. -/
structure Platform where
  os : String
  architecture : Option String
  variant : Option String
  deriving DecidableEq, Repr

namespace Platform

/-- Why a text is no platform. -/
inductive Fault where
  | malformed (text : String)
  | unsupportedOs (os : String)
  | unsupportedArchitecture (architecture : String)
  deriving DecidableEq, Repr

/-- The wording of a fault. -/
def Fault.message : Fault → String
  | malformed text => s!"invalid platform {Text.quoted text}, expected os[/arch[/variant]]"
  | unsupportedOs os => s!"unsupported OS {Text.quoted os}"
  | unsupportedArchitecture arch => s!"unsupported architecture {Text.quoted arch}"

/-- The operating systems that can be named. -/
def systems : List String := ["linux", "windows", "darwin", "freebsd"]

/-- The architectures that can be named. -/
def architectures : List String :=
  ["amd64", "arm64", "arm", "386", "ppc64le", "s390x", "riscv64"]

/-- Reads a platform; white space around it does not count. -/
def parse (text : String) : Except Fault Platform := do
  let parts := (Text.splitAt '/' (Text.stripChars text.toList)).map String.ofList
  if parts.any String.isEmpty then throw (.malformed text)
  let (os, architecture, variant) ← match parts with
    | [os] => pure (os, none, none)
    | [os, architecture] => pure (os, some architecture, none)
    | [os, architecture, variant] => pure (os, some architecture, some variant)
    | _ => throw (.malformed text)
  if !systems.contains os then throw (.unsupportedOs os)
  if let some name := architecture then
    if !architectures.contains name then throw (.unsupportedArchitecture name)
  return ⟨os, architecture, variant⟩

/-- The parts of the platform that say something. -/
def parts (p : Platform) : List String :=
  ([some p.os, p.architecture, p.variant].filterMap id).filter fun part => !part.isEmpty

/-- The platform as text. -/
def render (p : Platform) : String := "/".intercalate p.parts

/-- The build arguments that a platform supplies by itself. -/
def buildArgs (p : Platform) : List (String × String) :=
  [("TARGETPLATFORM", p.render), ("TARGETOS", p.os),
   ("TARGETARCH", p.architecture.getD ""), ("TARGETVARIANT", p.variant.getD "")]

/-- The names that are build arguments in every file: the platform of the build and its target. -/
def globalArgs : List String :=
  ["BUILDPLATFORM", "BUILDOS", "BUILDARCH", "BUILDVARIANT",
   "TARGETPLATFORM", "TARGETOS", "TARGETARCH", "TARGETVARIANT"]

/-- Do two parts agree? A part that is missing or empty agrees with every other. -/
def partsAgree : Option String → Option String → Bool
  | some mine, some theirs => mine.isEmpty || theirs.isEmpty || mine == theirs
  | _, _ => true

/-- Are two platforms compatible: the same system, and no disagreement beyond it? -/
def agrees (p q : Platform) : Bool :=
  p.os == q.os && partsAgree p.architecture q.architecture && partsAgree p.variant q.variant

end Platform

end Dockerfile

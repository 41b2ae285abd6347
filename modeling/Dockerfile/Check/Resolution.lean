import Dockerfile.Document
import Dockerfile.Text

/-!
# Stage references

A `FROM`, a `COPY --from` and a mount can refer to an earlier stage by its number or its name. A
resolution says which references of a document mean which stages.
-/

namespace Dockerfile

/-- The stage before number `before` that a reference means: a number means itself, anything else
the first of those stages with that name. -/
def Document.resolve? (d : Document) (reference : String) (before : Nat) : Option Nat :=
  match Text.decimalIndex? reference with
  | some index => if index < before then some index else none
  | none => ((d.stages.take before).find? (·.isNamed reference)).map Stage.index

/-- A place of a document where a reference can stand. -/
structure Site where
  stage : Nat
  /-- The position of the instruction in its stage; `none` is the stage's `FROM`. -/
  position : Option Nat
  /-- Which of the references of the instruction it is. -/
  slot : Nat
  deriving DecidableEq, Repr

namespace Site

/-- The position as a number, with -1 for the `FROM`. -/
def number (s : Site) : Int := s.position.elim (-1) fun p => (p : Int)

/-- Does a site come before another: by stage, then by position, then by slot? -/
def before (a b : Site) : Bool :=
  a.stage < b.stage || (a.stage == b.stage &&
    (a.number < b.number || (a.number == b.number && a.slot < b.slot)))

end Site

/-- The stages that references mean. Of two entries for a site the later one counts. -/
structure Resolution where
  entries : List (Site × Nat)
  deriving DecidableEq, Repr

namespace Resolution

/-- A resolution that settles nothing. -/
def empty : Resolution := ⟨[]⟩

/-- The stage that the reference at a site means. -/
def get? (r : Resolution) (site : Site) : Option Nat :=
  (r.entries.reverse.find? (·.1 = site)).map Prod.snd

/-- The stage that a stage starts from. -/
def baseOf? (r : Resolution) (stage : Nat) : Option Nat := r.get? ⟨stage, none, 0⟩

/-- Puts an entry before those whose sites come later. -/
def insertBySite (entry : Site × Nat) : List (Site × Nat) → List (Site × Nat)
  | [] => [entry]
  | other :: rest =>
    if entry.1.before other.1 then entry :: other :: rest else other :: insertBySite entry rest

/-- The entries in the order of their sites. -/
def sorted (r : Resolution) : List (Site × Nat) :=
  r.entries.foldl (fun done entry => insertBySite entry done) []

end Resolution

end Dockerfile

import Dockerfile.Text
import Dockerfile.Token.Lexer

/-!
# Logical lines

A logical line is an instruction keyword with its argument words, which may stand on several lines
of the file. Tokens are grouped into a list of entries: comments, line ends and logical lines, up
to a token that cannot stand where it does or a fault of the lexer.
-/

namespace Dockerfile

/-- Adjacent tokens without white space between them. -/
structure Word where
  text : String
  position : Position
  /-- Where the word starts in the argument text of its line. -/
  offset : Nat
  deriving DecidableEq, Repr

/-- An instruction keyword with its arguments. -/
structure LogicalLine where
  keyword : String
  position : Position
  words : List Word
  /-- The argument text as it is written, its lines joined. -/
  raw : String
  deriving DecidableEq, Repr

/-- The text of a line from a word to the end, without white space around it. -/
def LogicalLine.textFrom (line : LogicalLine) (w : Word) : String :=
  String.ofList (Text.stripChars (line.raw.toList.drop w.offset))

/-- The text of a line from the first of some words to the end; empty when there is none. -/
def LogicalLine.rest (line : LogicalLine) (words : List Word) : String :=
  match words with
  | [] => ""
  | w :: _ => line.textFrom w

namespace LogicalLine

/-! ### Building a line -/

/-- A line of which some tokens have been read. -/
structure Draft where
  keyword : String
  position : Position
  /-- The words so far, the last one first. -/
  words : List Word
  /-- Does the next piece belong to the last word? -/
  inWord : Bool
  raw : String

/-- The line behind its keyword. -/
def Draft.start (keyword : Token) : Draft := ⟨keyword.text, keyword.position, [], false, ""⟩

/-- Adds white space. -/
def Draft.space (d : Draft) (text : String) : Draft :=
  { d with inWord := false, raw := d.raw ++ text }

/-- Adds a piece of a word. -/
def Draft.piece (d : Draft) (t : Token) : Draft :=
  let words := match d.inWord, d.words with
    | true, w :: rest => { w with text := w.text ++ t.text } :: rest
    | _, words => ⟨t.text, t.position, d.raw.length⟩ :: words
  { d with words := words, inWord := true, raw := d.raw ++ t.text }

/-- The finished line. -/
def Draft.finish (d : Draft) : LogicalLine := ⟨d.keyword, d.position, d.words.reverse, d.raw⟩

end LogicalLine

/-! ### Entries -/

/-- A unit of a file. -/
inductive Entry where
  | comment (token : Token)
  /-- The end of a line without an instruction. -/
  | lineEnd
  | line (line : LogicalLine)
  /-- A token that cannot stand where it does. Nothing follows. -/
  | stray (token : Token)
  /-- The lexer stopped here. Nothing follows. -/
  | broken (fault : Lexer.Fault)
  deriving DecidableEq, Repr

namespace Entry

/-- The entries of some tokens, of which the lexer stopped at `fault` if there is one. `draft` is
the line that is being read. -/
def ofTokensFrom (fault : Option Lexer.Fault) : Option LogicalLine.Draft → List Token → List Entry
  | none, [] => fault.toList.map .broken
  | some draft, [] =>
    match fault with
    | some fault => [.broken fault]
    | none => [.line draft.finish]
  | none, t :: rest =>
    match t.kind with
    | .whitespace => ofTokensFrom fault none rest
    | .newline => .lineEnd :: ofTokensFrom fault none rest
    | .comment => .comment t :: ofTokensFrom fault none rest
    | .eof => []
    | .instruction => ofTokensFrom fault (some (.start t)) rest
    | .string | .reference | .continuation => [.stray t]
  | some draft, t :: rest =>
    match t.kind with
    | .newline => .line draft.finish :: ofTokensFrom fault none rest
    | .continuation | .comment => ofTokensFrom fault (some draft) rest
    | .whitespace => ofTokensFrom fault (some (draft.space t.text)) rest
    | .string | .reference => ofTokensFrom fault (some (draft.piece t)) rest
    | .eof => [.line draft.finish]
    | .instruction => [.stray t]

/-- The entries of a scan. -/
def ofScan (scan : Lexer.Scan) : List Entry := ofTokensFrom scan.fault none scan.tokens

/-! ### Directives -/

/-- The directives at the top of a file, each with its place. They end at the first comment that is
none, at a line without a comment, and at the first instruction. `behindComment` says that a line
end is the one of a comment. -/
def directivesFrom (behindComment : Bool) : List Entry → List (Directive × Position)
  | .comment t :: rest =>
    match Directive.parse? t.text with
    | some d => (d, t.position) :: directivesFrom true rest
    | none => []
  | .lineEnd :: rest => if behindComment then directivesFrom false rest else []
  | _ => []

/-- The directives at the top of a file, each with its place. -/
def directives (entries : List Entry) : List (Directive × Position) := directivesFrom false entries

/-- The escape character that some directives leave: the last one that is set. -/
def escapeOf (directives : List (Directive × Position)) : Char :=
  ((directives.filterMap fun d => d.1.escape?).getLast?).getD Directive.defaultEscape

end Entry

end Dockerfile

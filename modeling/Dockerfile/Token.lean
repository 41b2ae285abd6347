import Dockerfile.Position
import Dockerfile.Text

/-!
# Tokens

A token is a piece of a file with its kind and its place.
-/

namespace Dockerfile

/-- What a token is. -/
inductive Token.Kind where
  | comment
  /-- The keyword of an instruction. -/
  | instruction
  /-- A piece of a word, quoted or not. -/
  | string
  /-- A reference to a variable. -/
  | reference
  | whitespace
  /-- An escape character that joins two lines. -/
  | continuation
  | newline
  | eof
  deriving DecidableEq, Repr

namespace Token.Kind

/-- The name of a kind. -/
def name : Token.Kind → String
  | comment => "comment"
  | instruction => "instruction"
  | string => "string"
  | reference => "variable"
  | whitespace => "whitespace"
  | continuation => "line-continuation"
  | newline => "newline"
  | eof => "eof"

/-- The label of a kind in a description. -/
def label : Token.Kind → String
  | comment => "COMMENT"
  | instruction => "INSTRUCTION"
  | string => "STRING_LITERAL"
  | reference => "VARIABLE"
  | whitespace => "WHITESPACE"
  | continuation => "LINE_CONTINUATION"
  | newline => "NEWLINE"
  | eof => "EOF"

/-- All kinds. -/
def all : List Token.Kind :=
  [comment, instruction, string, reference, whitespace, continuation, newline, eof]

/-- The kind of a name. -/
def ofName? (name : String) : Option Token.Kind := all.find? (·.name = name)

end Token.Kind

/-- A piece of a file. -/
structure Token where
  kind : Token.Kind
  text : String
  position : Position
  deriving DecidableEq, Repr

namespace Token

/-- A description of a token: kind, text and place. -/
def describe (t : Token) : String :=
  s!"Token({t.kind.label}, {Text.quoted t.text}, {t.position.render})"

end Token

end Dockerfile

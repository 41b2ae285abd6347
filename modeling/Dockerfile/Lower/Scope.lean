import Dockerfile.Document
import Dockerfile.Graph
import Dockerfile.Platform

/-!
# Scopes

Which variables have a value at an instruction of a stage. Variables set by `ENV` come before
arguments declared by `ARG`. The value of an argument is the supplied one, else the one of the
platform, else the declared default, else the value declared before the first stage.

A scope is passed on from instruction to instruction by `Scope.after`, which never fails: a required
variable without a value counts as empty. Whether a build may go on in that case is decided by the
expansions of the same texts (`Scope.expansions`).
-/

namespace Dockerfile.Lower

/-- How a text is read when its variables are replaced. -/
structure Phrase where
  mode : Template.Mode
  text : String
  deriving DecidableEq, Repr

namespace Phrase

/-- A word, whose quotes are removed. -/
def word (text : String) : Phrase := ⟨.word, text⟩

/-- A command text, whose quotes are kept. -/
def command (text : String) : Phrase := ⟨.text, text⟩

/-- The words of texts that are given. -/
def optional (text : Option String) : List Phrase := text.toList.map word

/-- The template of a phrase. -/
def template (escape : Char) (p : Phrase) : Template :=
  Template.read p.mode escape .none p.text.toList

/-- The expansion of a phrase, in which required variables must have a value. -/
def expand (escape : Char) (lookup : Template.Lookup) (p : Phrase) : Template.Expansion :=
  (p.template escape).expand lookup true

/-- The text of a phrase with its variables replaced. -/
def value (escape : Char) (lookup : Template.Lookup) (p : Phrase) : String :=
  String.ofList ((p.template escape).value lookup)

end Phrase

/-- What is the same for all of a lowering. -/
structure Setting where
  escape : Char
  /-- The supplied build arguments. -/
  buildArgs : Table String
  /-- The arguments of the requested platform. -/
  platformArgs : Table String
  deriving DecidableEq, Repr

/-! ### Before the first stage -/

/-- The values declared before the first stage; a name may be declared without a value. -/
abbrev Metas := Table (Option String)

/-- The variables of a `FROM` and of declarations before the first stage. -/
def Setting.globalLookup (s : Setting) (metas : Metas) : Template.Lookup := fun name =>
  match (metas.get? name).join with
  | some value => some value
  | none =>
    if Platform.globalArgs.contains name then
      (s.buildArgs.get? name).or (s.platformArgs.get? name)
    else none

/-- The text of a declaration before the first stage whose variables are replaced. -/
def Setting.metaPhrases (s : Setting) (d : Declaration) : List Phrase :=
  if s.buildArgs.has d.name then [] else Phrase.optional d.default

/-- The value of a declaration before the first stage. -/
def Setting.metaValue (s : Setting) (metas : Metas) (d : Declaration) : Option String :=
  match s.buildArgs.get? d.name with
  | some value => some value
  | none => d.default.map fun text => (Phrase.word text).value s.escape (s.globalLookup metas)

/-- The declared values behind a declaration. -/
def Setting.declareMeta (s : Setting) (metas : Metas) (d : Declaration) : Metas :=
  metas.set d.name (s.metaValue metas d)

/-- The expansions of declarations before the first stage. -/
def Setting.metaExpansions (s : Setting) (metas : Metas) :
    List Declaration → List Template.Expansion
  | [] => []
  | d :: rest =>
    (s.metaPhrases d).map (Phrase.expand s.escape (s.globalLookup metas)) ++
      s.metaExpansions (s.declareMeta metas d) rest

/-! ### In a stage -/

/-- The variables at an instruction of a stage. -/
structure Scope where
  env : Table String
  /-- A name may be declared without a value. -/
  args : Table (Option String)
  deriving DecidableEq, Repr

namespace Scope

/-- The value of a variable: the one set by `ENV`, else the one of an argument. -/
def lookup (s : Scope) : Template.Lookup := fun name =>
  match s.env.get? name with
  | some value => some value
  | none => (s.args.get? name).join

/-- The text of a phrase. -/
def value (s : Scope) (setting : Setting) (p : Phrase) : String := p.value setting.escape s.lookup

/-- The text of a word. -/
def word (s : Scope) (setting : Setting) (text : String) : String :=
  s.value setting (.word text)

/-- The text of the declaration of an argument whose variables are replaced. -/
def argPhrases (setting : Setting) (d : Declaration) : List Phrase :=
  if setting.buildArgs.has d.name || setting.platformArgs.has d.name then []
  else Phrase.optional d.default

/-- The value of a declared argument. -/
def argValue (s : Scope) (setting : Setting) (metas : Metas) (d : Declaration) : Option String :=
  match setting.buildArgs.get? d.name with
  | some value => some value
  | none =>
    match setting.platformArgs.get? d.name with
    | some value => some value
    | none =>
      match d.default with
      | some text => some (s.word setting text)
      | none => (metas.get? d.name).join

/-- The scope behind the declaration of an argument. -/
def declare (s : Scope) (setting : Setting) (metas : Metas) (d : Declaration) : Scope :=
  { s with args := s.args.set d.name (s.argValue setting metas d) }

/-- The values that an `ENV` sets. Each of them sees the scope before the instruction. -/
def envValues (s : Scope) (setting : Setting) (bindings : List Binding) : Table String :=
  Table.ofList (bindings.map fun v => (v.name, s.word setting v.value))

/-- The scope behind an instruction. -/
def after (s : Scope) (setting : Setting) (metas : Metas) : Body → Scope
  | .env bindings => { s with env := s.env.update (s.envValues setting bindings) }
  | .arg declarations => declarations.foldl (fun s d => s.declare setting metas d) s
  | _ => s

/-- The expansions of the declarations of arguments. -/
def argExpansions (setting : Setting) (metas : Metas) (s : Scope) :
    List Declaration → List Template.Expansion
  | [] => []
  | d :: rest =>
    (argPhrases setting d).map (Phrase.expand setting.escape s.lookup) ++
      argExpansions setting metas (s.declare setting metas d) rest

/-- The texts of an instruction whose variables are replaced, in order. Those of an `ARG` are not
among them, because each of its declarations has a scope of its own; nor are references to stages,
which are settled before. -/
def phrases : Body → List Phrase
  | .run r =>
    (if r.command.isExec then [] else [.command r.command.raw]) ++
      r.mounts.flatMap (fun m => Phrase.optional m.source ++ Phrase.optional m.target ++
        m.options.map fun o => .word o.value) ++
      Phrase.optional r.network ++ Phrase.optional r.security
  | .copy c =>
    c.sources.map .word ++ [.word c.destination] ++ Phrase.optional c.chown ++
      Phrase.optional c.chmod
  | .add a =>
    a.sources.map .word ++ [.word a.destination] ++ Phrase.optional a.chown ++
      Phrase.optional a.chmod ++ Phrase.optional a.checksum
  | .env bindings => bindings.map fun v => .word v.value
  | .workdir path => [.word path]
  | .user name group => .word name :: Phrase.optional group
  | .expose ports => ports.map .word
  | .volume paths => paths.map .word
  | .label labels => labels.flatMap fun l => [.word l.name, .word l.value]
  | .stopsignal signal => [.word signal]
  | _ => []

/-- The expansions of all texts of an instruction whose variables are replaced, in order. -/
def expansions (s : Scope) (setting : Setting) (metas : Metas) : Body → List Template.Expansion
  | .arg declarations => argExpansions setting metas s declarations
  | body => (phrases body).map (Phrase.expand setting.escape s.lookup)

end Scope

end Dockerfile.Lower

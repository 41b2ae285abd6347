import Dockerfile.Document
import Dockerfile.Json.Writer

/-!
# Documents as JSON

Every part of a document as a JSON value, its fields always in the same order.
-/

namespace Dockerfile

def Position.toJson (p : Position) : Json := .obj [("line", .nat p.line), ("column", .nat p.column)]

def Command.toJson (c : Command) : Json := .obj [
  ("form", .str (if c.isExec then "exec" else "shell")),
  ("args", .strings c.args),
  ("raw", .str c.raw),
  ("json_error", .ofOption (c.misread?.map Misread.message))]

def Binding.toJson (b : Binding) : Json := .obj [("key", .str b.name), ("value", .str b.value)]

def Declaration.toJson (d : Declaration) : Json := .obj [
  ("name", .str d.name), ("default", .ofOption d.default)]

def Mount.toJson (m : Mount) : Json := .obj [
  ("type", .str m.type),
  ("source", .ofOption m.source),
  ("target", .ofOption m.target),
  ("from_stage", .ofOption m.origin),
  ("options", .arr (m.options.map Binding.toJson))]

def Healthcheck.fields (h : Healthcheck) : List (String × Json) := [
  ("mode", .str h.mode),
  ("command", h.command.elim .null Command.toJson),
  ("interval", .ofOption h.interval),
  ("timeout", .ofOption h.timeout),
  ("start_period", .ofOption h.startPeriod),
  ("start_interval", .ofOption h.startInterval),
  ("retries", h.retries.elim .null .int)]

/-- An instruction at a place as JSON: the place, the kind and the fields of the kind. -/
def Body.toJson (position : Position) (body : Body) : Json :=
  let fields : List (String × Json) := match body with
    | .base b => [
        ("image", .str b.image), ("alias", .ofOption b.name), ("platform", .ofOption b.platform)]
    | .run r => [
        ("command", r.command.toJson),
        ("mounts", .arr (r.mounts.map Mount.toJson)),
        ("network", .ofOption r.network),
        ("security", .ofOption r.security)]
    | .copy c => [
        ("sources", .strings c.sources),
        ("destination", .str c.destination),
        ("from_stage", .ofOption c.origin),
        ("chown", .ofOption c.chown),
        ("chmod", .ofOption c.chmod),
        ("link", .bool c.link)]
    | .add a => [
        ("sources", .strings a.sources),
        ("destination", .str a.destination),
        ("chown", .ofOption a.chown),
        ("chmod", .ofOption a.chmod),
        ("checksum", .ofOption a.checksum),
        ("link", .bool a.link)]
    | .env bindings => [("variables", .arr (bindings.map Binding.toJson))]
    | .arg declarations => [("declarations", .arr (declarations.map Declaration.toJson))]
    | .workdir path => [("path", .str path)]
    | .user owner group => [("user", .str owner), ("group", .ofOption group)]
    | .expose ports => [("ports", .strings ports)]
    | .volume paths => [("paths", .strings paths)]
    | .label labels => [("labels", .arr (labels.map Binding.toJson))]
    | .healthcheck check => check.fields
    | .entrypoint command => [("command", command.toJson)]
    | .cmd command => [("command", command.toJson)]
    | .shell command => [("command", command.toJson)]
    | .onbuild place trigger expression => [
        ("trigger", trigger.toJson place), ("expression", .str expression)]
    | .stopsignal signal => [("signal", .str signal)]
    | .maintainer name => [("name", .str name)]
  .obj (("location", position.toJson) :: ("kind", .str body.kind.name) :: fields)

def Instruction.toJson (i : Instruction) : Json := i.body.toJson i.position

def Stage.toJson (s : Stage) : Json := .obj [
  ("index", .nat s.index),
  ("name", .ofOption s.name),
  ("base_image", .str s.base.image),
  ("platform", .ofOption s.base.platform),
  ("from_instruction", (Body.base s.base).toJson s.position),
  ("instructions", .arr (s.instructions.map Instruction.toJson))]

def Directive.toJson (d : Directive) (position : Position) : Json := .obj [
  ("name", .str d.name), ("value", .str d.value), ("location", position.toJson)]

def Document.toJson (d : Document) : Json := .obj [
  ("directives", .arr (d.directives.map fun (directive, place) => directive.toJson place)),
  ("preamble", .arr (d.preamble.map Instruction.toJson)),
  ("stages", .arr (d.stages.map Stage.toJson)),
  ("escape_char", .str (String.singleton d.escape))]

end Dockerfile

import Dockerfile.Drawing
import Dockerfile.Proofs.Text
import Mathlib.Tactic.SplitIfs

/-!
# Reading drawings

A reader for the part of the DOT language that drawings are written in. It tells names, quoted texts
and marks apart (`Token`), and groups them into statements, which end with a semicolon or stand at a
brace (`Item`). The text of a drawing is read as its clusters with their nodes, and its edges
(`read_render`).
-/

namespace Dockerfile.Dot

/-! ### Tokens -/

inductive Token where
  | name (text : String)
  | text (text : String)
  | mark (c : Char)
  deriving DecidableEq, Repr

/-- Where a reader stands, with the characters so far of a token that is not complete. -/
inductive Place where
  | between
  | name (chars : List Char)
  | text (chars : List Char)
  /-- Behind a backslash in a text. -/
  | escape (chars : List Char)

/-- The tokens that are read, the last one first. -/
structure Scanner where
  tokens : List Token
  place : Place

def isNameChar (c : Char) : Bool := c.isAlphanum || c = '_'

def isSpace (c : Char) : Bool := c = ' ' || c = '\n'

/-- What a character behind a backslash stands for. -/
def unescape (c : Char) : Char := if c = 'n' then '\n' else c

/-- A character where a token can start. -/
def Scanner.start (tokens : List Token) (c : Char) : Scanner :=
  if c = '"' then ⟨tokens, .text []⟩
  else if isNameChar c then ⟨tokens, .name [c]⟩
  else if isSpace c then ⟨tokens, .between⟩
  else ⟨.mark c :: tokens, .between⟩

def Scanner.step : Scanner → Char → Scanner
  | ⟨tokens, .between⟩, c => start tokens c
  | ⟨tokens, .name chars⟩, c =>
    if isNameChar c then ⟨tokens, .name (chars ++ [c])⟩
    else start (.name (String.ofList chars) :: tokens) c
  | ⟨tokens, .text chars⟩, c =>
    if c = '"' then ⟨.text (String.ofList chars) :: tokens, .between⟩
    else if c = '\\' then ⟨tokens, .escape chars⟩
    else ⟨tokens, .text (chars ++ [c])⟩
  | ⟨tokens, .escape chars⟩, c => ⟨tokens, .text (chars ++ [unescape c])⟩

/-- The tokens of a text that ends between them. -/
def tokens? (text : List Char) : Option (List Token) :=
  match text.foldl Scanner.step ⟨[], .between⟩ with
  | ⟨tokens, .between⟩ => some tokens.reverse
  | _ => none

/-! ### Statements -/

/-- A statement, or one end of a block. -/
inductive Item where
  | opens (keyword name : String)
  | closes
  | setting (name value : String)
  | defaults (kind : String) (attributes : List (String × String))
  | node (id : String) (attributes : List (String × String))
  | edge (source target : String) (attributes : List (String × String))
  deriving DecidableEq, Repr

def Token.value? : Token → Option String
  | .name value | .text value => some value
  | .mark _ => none

/-- Attributes up to the bracket that closes them. -/
def attributesFrom : List Token → Option (List (String × String))
  | [.name name, .mark '=', value, .mark ']'] => value.value?.map fun value => [(name, value)]
  | .name name :: .mark '=' :: value :: .mark ',' :: rest => do
    let value ← value.value?
    let attributes ← attributesFrom rest
    return (name, value) :: attributes
  | _ => none

def attributes? : List Token → Option (List (String × String))
  | [] => some []
  | .mark '[' :: rest => attributesFrom rest
  | _ => none

def statement? : List Token → Option Item
  | [.name name, .mark '=', value] => value.value?.map (.setting name)
  | .text source :: .mark '-' :: .mark '>' :: .text target :: rest =>
    (attributes? rest).map (.edge source target)
  | .text id :: rest => (attributes? rest).map (.node id)
  | .name kind :: rest => (attributes? rest).map (.defaults kind)
  | _ => none

/-- The items that are read, the last one first, and the tokens of the next one. -/
structure Parser where
  items : List Item
  pending : List Token

def Parser.step (p : Parser) : Token → Option Parser
  | .mark ';' => (statement? p.pending).map fun item => ⟨item :: p.items, []⟩
  | .mark '\x7b' =>
    match p.pending with
    | [.name keyword, .name name] => some ⟨.opens keyword name :: p.items, []⟩
    | _ => none
  | .mark '\x7d' => if p.pending.isEmpty then some ⟨.closes :: p.items, []⟩ else none
  | token => some ⟨p.items, p.pending ++ [token]⟩

/-- The items of some tokens. -/
def items? (tokens : List Token) : Option (List Item) :=
  match tokens.foldlM Parser.step ⟨[], []⟩ with
  | some ⟨items, []⟩ => some items.reverse
  | _ => none

/-- The items of a text. -/
def read (text : String) : Option (List Item) := (tokens? text.toList).bind items?

/-! ### Texts of items -/

/-- A text that is read as some tokens, wherever it stands between tokens. -/
def Reads (text : List Char) (tokens : List Token) : Prop :=
  ∀ before, text.foldl Scanner.step ⟨before, .between⟩ = ⟨tokens.reverse ++ before, .between⟩

/-- Tokens that are read as some items, wherever they stand between items. -/
def Parses (tokens : List Token) (items : List Item) : Prop :=
  ∀ before, tokens.foldlM Parser.step ⟨before, []⟩ = some ⟨items.reverse ++ before, []⟩

/-- A text that is read as some items, wherever it stands between items. -/
def Writes (text : List Char) (items : List Item) : Prop :=
  ∃ tokens, Reads text tokens ∧ Parses tokens items

theorem Reads.append {a b : List Char} {s t : List Token} (ha : Reads a s) (hb : Reads b t) :
    Reads (a ++ b) (s ++ t) := by
  intro before
  rw [List.foldl_append, ha, hb, List.reverse_append, List.append_assoc]

theorem Parses.append {s t : List Token} {a b : List Item} (hs : Parses s a) (ht : Parses t b) :
    Parses (s ++ t) (a ++ b) := by
  intro before
  rw [List.foldlM_append, hs, List.reverse_append, List.append_assoc]
  exact ht _

theorem Reads.writes {cs text : List Char} {tokens : List Token} {items : List Item}
    (h : Reads cs tokens) (htext : text = cs) (hitems : Parses tokens items) : Writes text items :=
  ⟨tokens, htext ▸ h, hitems⟩

theorem writes_nil : Writes [] [] := ⟨[], fun _ => rfl, fun _ => rfl⟩

theorem Writes.append {a b : List Char} {m n : List Item} (ha : Writes a m) (hb : Writes b n) :
    Writes (a ++ b) (m ++ n) := by
  obtain ⟨s, hs, hm⟩ := ha
  obtain ⟨t, ht, hn⟩ := hb
  exact ⟨s ++ t, hs.append ht, hm.append hn⟩

theorem read_of_writes {text : String} {items : List Item} (h : Writes text.toList items) :
    read text = some items := by
  obtain ⟨tokens, htokens, hitems⟩ := h
  have hread : tokens? text.toList = some tokens := by
    rw [tokens?, htokens, List.append_nil]
    exact congrArg some (List.reverse_reverse tokens)
  rw [read, hread, Option.bind_some, items?, hitems, List.append_nil]
  exact congrArg some (List.reverse_reverse items)

/-! ### Names and quoted texts -/

theorem foldl_name {chars : List Char} (h : ∀ c ∈ chars, isNameChar c) (before : List Token)
    (read : List Char) : chars.foldl Scanner.step ⟨before, .name read⟩ =
      ⟨before, .name (read ++ chars)⟩ := by
  induction chars generalizing read with
  | nil => rw [List.append_nil]; rfl
  | cons c chars ih =>
    obtain ⟨hc, hchars⟩ := List.forall_mem_cons.1 h
    rw [List.foldl_cons, Scanner.step, if_pos hc, ih hchars, List.append_assoc, List.cons_append,
      List.nil_append]

/-- A name is complete where a blank follows. -/
theorem reads_name {name : String} (hne : name.toList ≠ []) (h : ∀ c ∈ name.toList, isNameChar c) :
    Reads (name.toList ++ [' ']) [.name name] := by
  intro before
  obtain ⟨c, chars, hname⟩ := List.exists_cons_of_ne_nil hne
  rw [hname] at h ⊢
  obtain ⟨hc, hchars⟩ := List.forall_mem_cons.1 h
  have hquote : c ≠ '"' := by
    rintro rfl
    exact absurd hc (by decide)
  have hstart : Scanner.step ⟨before, .between⟩ c = ⟨before, .name [c]⟩ := by
    rw [Scanner.step, Scanner.start, if_neg hquote, if_pos hc]
  rw [List.cons_append, List.foldl_cons, hstart, List.foldl_append, foldl_name hchars,
    List.cons_append, List.nil_append, ← hname]
  show Scanner.mk (.name (String.ofList name.toList) :: before) .between = _
  rw [String.ofList_toList]
  rfl

theorem foldl_escape (chars : List Char) (before : List Token) (read : List Char) :
    (chars.flatMap Drawing.escapeChar).foldl Scanner.step ⟨before, .text read⟩ =
      ⟨before, .text (read ++ chars)⟩ := by
  induction chars generalizing read with
  | nil => rw [List.append_nil]; rfl
  | cons c chars ih =>
    have hchar : (Drawing.escapeChar c).foldl Scanner.step ⟨before, .text read⟩ =
        ⟨before, .text (read ++ [c])⟩ := by
      unfold Drawing.escapeChar
      split_ifs with hslash hquote hbreak
      · subst hslash
        rfl
      · subst hquote
        rfl
      · subst hbreak
        rfl
      · simp [Scanner.step, hslash, hquote]
    rw [List.flatMap_cons, List.foldl_append, hchar, ih, List.append_assoc, List.cons_append,
      List.nil_append]

theorem toList_quote (text : String) :
    (Drawing.quote text).toList = '"' :: ((Drawing.escape text).toList ++ ['"']) := by
  simp [Drawing.quote]

/-- A text is read back from between its quotes. -/
theorem reads_quote (text : String) : Reads (Drawing.quote text).toList [.text text] := by
  intro before
  rw [toList_quote, List.foldl_cons, List.foldl_append, Drawing.escape, String.toList_ofList]
  show List.foldl Scanner.step (List.foldl Scanner.step ⟨before, .text []⟩ _) ['"'] = _
  rw [foldl_escape, List.nil_append]
  show Scanner.mk (.text (String.ofList text.toList) :: before) .between = _
  rw [String.ofList_toList]
  rfl

/-- A text that stands between its quotes as it is. -/
def IsPlain (text : String) : Prop := ∀ c ∈ text.toList, Drawing.escapeChar c = [c]

theorem IsPlain.quote_eq {text : String} (h : IsPlain text) :
    (Drawing.quote text).toList = '"' :: (text.toList ++ ['"']) := by
  rw [toList_quote, Drawing.escape, String.toList_ofList, List.flatMap_def, List.map_congr_left h,
    ← List.flatMap_def, List.flatMap_singleton']

/-! ### Lines -/

/-- Lines that are read as some items. -/
inductive WritesLines : List String → List Item → Prop where
  | nil : WritesLines [] []
  | cons {line : String} {lines : List String} {items more : List Item}
    (hline : Writes line.toList items) (hlines : WritesLines lines more) :
    WritesLines (line :: lines) (items ++ more)

theorem WritesLines.append {a b : List String} {m n : List Item} (ha : WritesLines a m)
    (hb : WritesLines b n) : WritesLines (a ++ b) (m ++ n) := by
  induction ha with
  | nil => exact hb
  | cons hline _ ih =>
    rw [List.append_assoc]
    exact .cons hline ih

theorem writesLines_flatMap {α : Type} {l : List α} {lines : α → List String}
    {items : α → List Item} (h : ∀ a ∈ l, WritesLines (lines a) (items a)) :
    WritesLines (l.flatMap lines) (l.flatMap items) := by
  induction l with
  | nil => exact .nil
  | cons a l ih =>
    obtain ⟨ha, hl⟩ := List.forall_mem_cons.1 h
    exact ha.append (ih hl)

theorem WritesLines.writes {lines : List String} {items : List Item} (h : WritesLines lines items) :
    Writes ("\n".intercalate lines).toList items := by
  induction h with
  | nil => exact writes_nil
  | @cons line lines items more hline hlines ih =>
    cases lines with
    | nil =>
      cases hlines
      simpa using hline
    | cons next lines =>
      have hbreak : Writes ['\n'] [] := ⟨[], fun _ => rfl, fun _ => rfl⟩
      have htext : ("\n".intercalate (line :: next :: lines)).toList =
          line.toList ++ (['\n'] ++ ("\n".intercalate (next :: lines)).toList) := by
        simp
      rw [htext]
      exact hline.append (hbreak.append ih)

theorem writesLines_one {line : String} {items : List Item} (h : Writes line.toList items) :
    WritesLines [line] items := by
  rw [← List.append_nil items]
  exact .cons h .nil

/-- An empty line before others. -/
theorem WritesLines.blank {lines : List String} {items : List Item} (h : WritesLines lines items) :
    WritesLines ("" :: lines) items :=
  .cons (show Writes "".toList [] from writes_nil) h

end Dockerfile.Dot

namespace Dockerfile.Drawing

open Dot

/-! ### Drawings -/

def Node.item (n : Node) : Item :=
  .node n.id (("label", n.label) :: if n.terminal then [("penwidth", "2")] else [])

def Cluster.items (c : Cluster) : List Item :=
  [.opens "subgraph" s!"cluster_{c.index}", .setting "label" c.label,
    .node (baseNode c.index) [("label", c.base), ("shape", "ellipse")]] ++
    c.nodes.map Node.item ++ [.closes]

def Edge.item (e : Edge) : Item :=
  .edge e.source e.target (if e.dashed then [("style", "dashed")] else [])

/-- The items of a drawing: what holds for all of it, its clusters and its edges. -/
def items (d : Drawing) : List Item :=
  [.opens "digraph" "dfc", .setting "rankdir" "LR",
    .defaults "node" [("shape", "box"), ("fontname", "monospace")]] ++
    d.clusters.flatMap Cluster.items ++ d.edges.map Edge.item ++ [.closes]

variable {n : Node} {c : Cluster} {e : Edge} {d : Drawing}

/-- The front of a node: its name and its label. -/
theorem reads_labelled (id label : String) :
    Reads ("    ".toList ++ (quote id).toList ++ " [label=".toList ++ (quote label).toList)
      [.text id, .mark '[', .name "label", .mark '=', .text label] := by
  have hindent : Reads "    ".toList [] := fun _ => rfl
  have hopen : Reads " [label=".toList [.mark '[', .name "label", .mark '='] := fun _ => rfl
  exact ((hindent.append (reads_quote id)).append hopen).append (reads_quote label)

theorem writesLines_node (h : IsPlain n.id) : WritesLines n.lines [n.item] := by
  refine .blank (writesLines_one ?_)
  unfold Node.item
  cases n.terminal with
  | true =>
    have hclose : Reads ", penwidth=2];".toList
        [.mark ',', .name "penwidth", .mark '=', .name "2", .mark ']', .mark ';'] := fun _ => rfl
    refine ((reads_labelled n.id n.label).append hclose).writes ?_ fun _ => rfl
    simp [h.quote_eq, ToString.toString]
  | false =>
    have hclose : Reads "];".toList [.mark ']', .mark ';'] := fun _ => rfl
    refine ((reads_labelled n.id n.label).append hclose).writes ?_ fun _ => rfl
    simp [h.quote_eq, ToString.toString]

theorem writesLines_edge (hsource : IsPlain e.source) (htarget : IsPlain e.target) :
    WritesLines e.lines [e.item] := by
  have hindent : Reads "  ".toList [] := fun _ => rfl
  have harrow : Reads " -> ".toList [.mark '-', .mark '>'] := fun _ => rfl
  have hstart := ((hindent.append (reads_quote e.source)).append harrow).append
    (reads_quote e.target)
  refine .blank (writesLines_one ?_)
  unfold Edge.item
  cases e.dashed with
  | true =>
    have hclose : Reads " [style=dashed];".toList
        [.mark '[', .name "style", .mark '=', .name "dashed", .mark ']', .mark ';'] := fun _ => rfl
    refine (hstart.append hclose).writes ?_ fun _ => rfl
    simp [hsource.quote_eq, htarget.quote_eq, ToString.toString]
  | false =>
    have hclose : Reads ";".toList [.mark ';'] := fun _ => rfl
    refine (hstart.append hclose).writes ?_ fun _ => rfl
    simp [hsource.quote_eq, htarget.quote_eq, ToString.toString]

/-! ### Names of nodes and clusters -/

theorem isNameChar_of_mem_toString {k : Nat} {x : Char} (h : x ∈ (toString k).toList) :
    isNameChar x := by
  have hdigits : (toString k).toList = Nat.toDigits 10 k := Nat.toList_repr
  rw [hdigits] at h
  simp [isNameChar, Char.isAlphanum,
    Nat.isDigit_of_mem_toDigits (by decide) (by decide) h]

theorem isPlain_of_chars {text : String} (h : ∀ x ∈ text.toList, isNameChar x ∨ x = '.') :
    IsPlain text := by
  intro x hx
  have hne {special : Char} (hspecial : ¬(isNameChar special ∨ special = '.')) : x ≠ special := by
    rintro rfl
    exact hspecial (h x hx)
  rw [escapeChar, if_neg (hne (by decide)), if_neg (hne (by decide)), if_neg (hne (by decide))]

theorem isPlain_baseNode (index : Nat) : IsPlain (baseNode index) := by
  refine isPlain_of_chars fun x hx => .inl ?_
  have htext : (baseNode index).toList = "base".toList ++ (toString index).toList := by
    simp [baseNode, ToString.toString]
  rw [htext] at hx
  rcases List.mem_append.1 hx with hx | hx
  · exact List.all_eq_true.1 (show "base".toList.all isNameChar by decide) x hx
  · exact isNameChar_of_mem_toString hx

theorem isPlain_render (id : OperationId) : IsPlain id.render := by
  refine isPlain_of_chars fun x hx => ?_
  have htext : id.render.toList =
      's' :: ((toString id.stage).toList ++ '.' :: (toString id.position).toList) := by
    simp [OperationId.render, ToString.toString]
  rw [htext] at hx
  rcases List.mem_cons.1 hx with rfl | hx
  · exact .inl (by decide)
  · rcases List.mem_append.1 hx with hx | hx
    · exact .inl (isNameChar_of_mem_toString hx)
    · rcases List.mem_cons.1 hx with rfl | hx
      · exact .inr rfl
      · exact .inl (isNameChar_of_mem_toString hx)

/-! ### Clusters -/

theorem writes_opens (index : Nat) : Writes (s!"  subgraph cluster_{index} \x7b").toList
    [.opens "subgraph" s!"cluster_{index}"] := by
  have hkeyword : Reads "  subgraph ".toList [.name "subgraph"] := fun _ => rfl
  have hbrace : Reads ['\x7b'] [.mark '\x7b'] := fun _ => rfl
  have hchars : (s!"cluster_{index}").toList = "cluster_".toList ++ (toString index).toList := by
    simp [ToString.toString]
  have hname : Reads ((s!"cluster_{index}").toList ++ [' ']) [.name s!"cluster_{index}"] := by
    refine reads_name (by rw [hchars]; simp) fun x hx => ?_
    rw [hchars] at hx
    rcases List.mem_append.1 hx with hx | hx
    · exact List.all_eq_true.1 (show "cluster_".toList.all isNameChar by decide) x hx
    · exact isNameChar_of_mem_toString hx
  refine ((hkeyword.append hname).append hbrace).writes ?_ fun _ => rfl
  simp [ToString.toString]

theorem writes_label (label : String) :
    Writes (s!"    label={quote label};").toList [.setting "label" label] := by
  have hstart : Reads "    label=".toList [.name "label", .mark '='] := fun _ => rfl
  have hclose : Reads ";".toList [.mark ';'] := fun _ => rfl
  refine ((hstart.append (reads_quote label)).append hclose).writes ?_ fun _ => rfl
  simp [ToString.toString]

theorem writes_base (index : Nat) (base : String) :
    Writes (s!"    \"{baseNode index}\" [label={quote base}, shape=ellipse];").toList
      [.node (baseNode index) [("label", base), ("shape", "ellipse")]] := by
  have hclose : Reads ", shape=ellipse];".toList
      [.mark ',', .name "shape", .mark '=', .name "ellipse", .mark ']', .mark ';'] := fun _ => rfl
  refine ((reads_labelled (baseNode index) base).append hclose).writes ?_ fun _ => rfl
  simp [(isPlain_baseNode index).quote_eq, ToString.toString]

theorem writesLines_cluster (h : ∀ n ∈ c.nodes, IsPlain n.id) : WritesLines c.lines c.items := by
  have hhead := WritesLines.blank (.cons (writes_opens c.index) (.cons (writes_label c.label)
    (writesLines_one (writes_base c.index c.base))))
  have hnodes : WritesLines (c.nodes.flatMap Node.lines) (c.nodes.map Node.item) := by
    rw [List.map_eq_flatMap]
    exact writesLines_flatMap fun n hn => writesLines_node (h n hn)
  have hcloses : Writes "  \x7d".toList [.closes] :=
    ⟨[.mark '\x7d'], fun _ => rfl, fun _ => rfl⟩
  exact (hhead.append hnodes).append (.blank (writesLines_one hcloses))

/-- The names of nodes can be written between quotes as they are. -/
structure Plain (d : Drawing) : Prop where
  nodes : ∀ c ∈ d.clusters, ∀ n ∈ c.nodes, IsPlain n.id
  sources : ∀ e ∈ d.edges, IsPlain e.source
  targets : ∀ e ∈ d.edges, IsPlain e.target

/-- The text of a drawing is read as its items. -/
theorem read_render (h : d.Plain) : read d.render = some d.items := by
  have hopens : Writes "digraph dfc \x7b".toList [.opens "digraph" "dfc"] :=
    ⟨[.name "digraph", .name "dfc", .mark '\x7b'], fun _ => rfl, fun _ => rfl⟩
  have hsetting : Writes "  rankdir=LR;".toList [.setting "rankdir" "LR"] :=
    ⟨[.name "rankdir", .mark '=', .name "LR", .mark ';'], fun _ => rfl, fun _ => rfl⟩
  have hdefaults : Writes "  node [shape=box, fontname=\"monospace\"];".toList
      [.defaults "node" [("shape", "box"), ("fontname", "monospace")]] :=
    ⟨[.name "node", .mark '[', .name "shape", .mark '=', .name "box", .mark ',', .name "fontname",
      .mark '=', .text "monospace", .mark ']', .mark ';'], fun _ => rfl, fun _ => rfl⟩
  have hcloses : Writes "\x7d".toList [.closes] := ⟨[.mark '\x7d'], fun _ => rfl, fun _ => rfl⟩
  have hclusters : WritesLines (d.clusters.flatMap Cluster.lines)
      (d.clusters.flatMap Cluster.items) :=
    writesLines_flatMap fun c hc => writesLines_cluster (h.nodes c hc)
  have hedges : WritesLines (d.edges.flatMap Edge.lines) (d.edges.map Edge.item) := by
    rw [List.map_eq_flatMap]
    exact writesLines_flatMap fun e he => writesLines_edge (h.sources e he) (h.targets e he)
  have hheader := WritesLines.cons hopens (.cons hsetting (writesLines_one hdefaults))
  have hfront := (hheader.append hclusters).append (.blank .nil)
  rw [List.append_nil] at hfront
  exact read_of_writes ((hfront.append hedges).append (.blank (writesLines_one hcloses))).writes

end Dockerfile.Drawing

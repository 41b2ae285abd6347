import Dockerfile.Image
import Dockerfile.Proofs.Reading

/-!
# Image references

A text is read as an image when it names the image and has its tag and digest behind it
(`parse_eq_ok_iff`). An image can be named with its registry; the default registry may be left out
where the rest does not look like another one, and so may its `library` where a single name is left
(`NamedBy`). Every image that is read is `WellFormed`, and its full name is read as that image
(`parse_fullName`), so that normalizing a text once is enough (`normalize_normalize`).

The short name leaves out more than that: `library` whatever stands behind it, and the default
registry whatever stands behind that. So it is read as its image in some cases only
(`parse_shortName_iff`).
-/

namespace Dockerfile

namespace Image

open Text

/-! ### Characters of the parts -/

section Characters

variable {x : Char} {cs : List Char}

/-- Can a character stand in a tag? The other parts have these characters too, and separators. -/
def isTagChar (c : Char) : Bool := isHostChar c || c = '_' || c = '.' || c = '-'

/-- Is a character a sign of one form that stands in no tag? Only as a separator can it stand in
another part. -/
def isSign (c : Char) : Bool := !isTagChar c && c ≠ '\n' && c.toNat < 128 && c.toLower = c

section

variable (hx : isTagChar x = false)

include hx

theorem isLower_eq_false : x.isLower = false := by
  have halpha : x.isAlpha = (x.isUpper || x.isLower) := rfl
  simp_all [isTagChar, isHostChar]

theorem isNameChar_eq_false : isNameChar x = false := by
  have hlower := isLower_eq_false hx
  simp_all [isTagChar, isHostChar, isNameChar]

theorem isHexDigit_eq_false : (x.isDigit || ('a' ≤ x && x ≤ 'f')) = false := by
  have hdigit : x.isDigit = false := by simp_all [isTagChar, isHostChar]
  rw [hdigit, Bool.false_or, ← Bool.not_eq_true, Bool.and_eq_true, decide_eq_true_eq,
    decide_eq_true_eq]
  rintro ⟨hge, hle⟩
  -- Such a character would be a small letter.
  have hlower : x.isLower = true := by
    have hle' : x.val ≤ 'z'.val := UInt32.le_trans hle (by decide)
    exact (Bool.and_eq_true _ _).mpr ⟨decide_eq_true hge, decide_eq_true hle'⟩
  rw [isLower_eq_false hx] at hlower
  cases hlower

theorem notMem_of_isRepository (hslash : x ≠ '/') (h : isRepository cs) : x ∉ cs := by
  refine notMem_of_splitWhen (p := (· == '/')) (by simpa using hslash) fun component hmem => ?_
  refine notMem_of_splitWhen (p := fun c => c = '.' || c = '_' || c = '-')
    (by simp_all [isTagChar]) fun run hrun => ?_
  have hruns := List.all_eq_true.1 (List.all_eq_true.1 h component hmem) run hrun
  rw [Bool.and_eq_true] at hruns
  exact notMem_of_all (isNameChar_eq_false hx) hruns.2

theorem notMem_of_isHost (h : isHost cs) : x ∉ cs := by
  rw [isHost, Bool.and_eq_true] at h
  exact notMem_of_all (by simp_all [isTagChar]) h.2

theorem notMem_of_isRegistry (hcolon : x ≠ ':') (h : isRegistry cs) : x ∉ cs := by
  unfold isRegistry at h
  split at h
  · rename_i hcut
    rw [Bool.and_eq_true, Bool.and_eq_true] at h
    exact notMem_of_cut? hcut hcolon (notMem_of_isHost hx h.1.1)
      (notMem_of_all (by simp_all [isTagChar, isHostChar]) h.2)
  · exact notMem_of_isHost hx h

theorem notMem_of_isTag (h : isTag cs) : x ∉ cs := by
  rw [isTag, Bool.and_eq_true] at h
  exact notMem_of_all hx h.2

theorem notMem_of_isDigest (hcolon : x ≠ ':') (h : isDigest cs) : x ∉ cs := by
  unfold isDigest at h
  split at h
  · rename_i hcut
    simp only [Bool.and_eq_true] at h
    exact notMem_of_cut? hcut hcolon (notMem_of_all (isNameChar_eq_false hx) h.1.1.2)
      (notMem_of_all (isHexDigit_eq_false hx) h.2)
  · cases h

end

end Characters

/-! ### Well-formed images -/

/-- Every part of the image has its form, and a tag or a digest is there. -/
structure WellFormed (image : Image) : Prop where
  registry : wholeLine isRegistry image.registry.toList
  namesRegistry : namesRegistry image.registry.toList
  repository : wholeLine isRepository (lowerChars image.repository.toList)
  tag : image.tag.all fun tag => wholeLine isTag tag.toList
  digest : image.digest.all fun digest => wholeLine isDigest digest.toList
  settled : image.tag.isSome || image.digest.isSome

section Signs

variable {image : Image} {x : Char}

theorem notMem_registry (hi : image.WellFormed) (hx : isSign x) (hcolon : x ≠ ':') :
    x ∉ image.registry.toList := by
  simp only [isSign, Bool.and_eq_true, Bool.not_eq_true', decide_eq_true_eq] at hx
  exact notMem_of_wholeLine hx.1.1.2 (fun _ => notMem_of_isRegistry hx.1.1.1 hcolon) hi.registry

theorem notMem_repository (hi : image.WellFormed) (hx : isSign x) (hslash : x ≠ '/') :
    x ∉ image.repository.toList := by
  simp only [isSign, Bool.and_eq_true, Bool.not_eq_true', decide_eq_true_eq] at hx
  obtain ⟨⟨⟨htag, hline⟩, hascii⟩, hlower⟩ := hx
  -- A sign has no other form, so it would stay in small letters.
  have hsmall :=
    notMem_of_wholeLine hline (fun _ => notMem_of_isRepository htag hslash) hi.repository
  exact fun hmem => hsmall (mem_lowerAfter hascii hlower hmem)

theorem notMem_suffix (hi : image.WellFormed) (hx : isSign x) (hcolon : x ≠ ':') (hat : x ≠ '@') :
    x ∉ image.suffix.toList := by
  simp only [isSign, Bool.and_eq_true, Bool.not_eq_true', decide_eq_true_eq] at hx
  have htag : ∀ tag, image.tag = some tag → x ∉ tag.toList := by
    intro tag heq
    have hwhole := hi.tag
    rw [heq, Option.all_some] at hwhole
    exact notMem_of_wholeLine hx.1.1.2 (fun _ => notMem_of_isTag hx.1.1.1) hwhole
  have hdigest : ∀ digest, image.digest = some digest → x ∉ digest.toList := by
    intro digest heq
    have hwhole := hi.digest
    rw [heq, Option.all_some] at hwhole
    exact notMem_of_wholeLine hx.1.1.2 (fun _ => notMem_of_isDigest hx.1.1.1 hcolon) hwhole
  unfold suffix
  cases htag' : image.tag <;> cases hdigest' : image.digest <;> simp_all

end Signs

/-- The texts that name an image, tag and digest apart: with its registry, or without it where the
image is of the default registry and its path does not look like one, or without `library` too. -/
inductive NamedBy (image : Image) : List Char → Prop where
  | registry : NamedBy image (image.registry.toList ++ '/' :: image.repository.toList)
  | folder {first rest : List Char} (hregistry : image.registry = defaultRegistry)
    (hrepository : image.repository.toList = first ++ '/' :: rest) (hfirst : '/' ∉ first)
    (hnames : Image.namesRegistry first = false) : NamedBy image (first ++ '/' :: rest)
  | bare {name : List Char} (hregistry : image.registry = defaultRegistry)
    (hrepository : image.repository.toList = "library/".toList ++ name) (hname : '/' ∉ name) :
    NamedBy image name

/-! ### Splitting -/

section Splitting

variable {cs named name path : List Char} {digest tag : Option (List Char)} {image : Image}

theorem splitDigest_ok (h : splitDigest cs = .ok (named, digest)) :
    cs = named ++ digest.elim [] ('@' :: ·) ∧ digest.all (wholeLine isDigest) := by
  unfold splitDigest at h
  split at h
  · rename_i hcut
    split at h
    · rename_i hdigest
      cases h
      exact ⟨(cutLast?_eq_some_iff.1 hcut).1, hdigest⟩
    · cases h
  · cases h
    exact ⟨(List.append_nil _).symm, rfl⟩

theorem splitDigest_append (hnamed : '@' ∉ named) (hdigest : digest.all (wholeLine isDigest)) :
    splitDigest (named ++ digest.elim [] ('@' :: ·)) = .ok (named, digest) := by
  unfold splitDigest
  cases digest with
  | none =>
    rw [Option.elim_none, List.append_nil, cutLast?_eq_none_iff.2 hnamed]
  | some d =>
    rw [Option.all_some] at hdigest
    have hat : '@' ∉ d :=
      notMem_of_wholeLine (by decide) (fun _ => notMem_of_isDigest (by decide) (by decide)) hdigest
    rw [Option.elim_some, cutLast?_eq_some_iff.2 ⟨rfl, hat⟩]
    exact if_pos hdigest

theorem splitTag_ok (h : splitTag cs = .ok (name, tag)) :
    cs = name ++ tag.elim [] (':' :: ·) ∧ tag.all (wholeLine isTag) := by
  unfold splitTag at h
  split at h
  · rename_i hcut
    split at h
    · cases h
      exact ⟨(List.append_nil _).symm, rfl⟩
    · split at h
      · rename_i htag
        cases h
        exact ⟨(cutLast?_eq_some_iff.1 hcut).1, htag⟩
      · cases h
  · cases h
    exact ⟨(List.append_nil _).symm, rfl⟩

/-- A slash follows every colon of a name, so that a colon in it starts no tag. -/
theorem splitTag_append (hname : ∀ before behind, name = before ++ ':' :: behind → '/' ∈ behind)
    (htag : tag.all (wholeLine isTag)) :
    splitTag (name ++ tag.elim [] (':' :: ·)) = .ok (name, tag) := by
  unfold splitTag
  cases tag with
  | none =>
    rw [Option.elim_none, List.append_nil]
    split
    · rename_i before behind hcut
      rw [if_pos]
      simpa using hname before behind (cutLast?_eq_some_iff.1 hcut).1
    · rfl
  | some t =>
    rw [Option.all_some] at htag
    have hcolon : ':' ∉ t :=
      notMem_of_wholeLine (by decide) (fun _ => notMem_of_isTag (by decide)) htag
    have hslash : '/' ∉ t :=
      notMem_of_wholeLine (by decide) (fun _ => notMem_of_isTag (by decide)) htag
    rw [Option.elim_some, cutLast?_eq_some_iff.2 ⟨rfl, hcolon⟩]
    dsimp only
    rw [if_neg (by simpa using hslash), if_pos htag]

theorem splitRegistry_ok
    (h : splitRegistry path = .ok (image.registry.toList, image.repository.toList)) :
    image.NamedBy path ∧ wholeLine isRegistry image.registry.toList ∧
      Image.namesRegistry image.registry.toList := by
  unfold splitRegistry at h
  split at h
  · rename_i first rest hcut
    obtain ⟨rfl, hslash⟩ := cut?_eq_some_iff.1 hcut
    split at h
    · rename_i hnames
      split at h
      · rename_i hfirst
        obtain ⟨rfl, rfl⟩ := Prod.mk.inj (Except.ok.inj h)
        exact ⟨.registry, hfirst, hnames⟩
      · cases h
    · rename_i hnames
      obtain ⟨hregistry, hrepository⟩ := Prod.mk.inj (Except.ok.inj h)
      rw [Bool.not_eq_true] at hnames
      refine ⟨.folder (String.toList_inj.1 hregistry.symm) hrepository.symm hslash hnames, ?_⟩
      rw [← hregistry]
      decide
  · rename_i hcut
    obtain ⟨hregistry, hrepository⟩ := Prod.mk.inj (Except.ok.inj h)
    refine ⟨.bare (String.toList_inj.1 hregistry.symm) hrepository.symm
      (cut?_eq_none_iff.1 hcut), ?_⟩
    rw [← hregistry]
    decide

theorem splitRegistry_of_namedBy (hi : image.WellFormed) (h : image.NamedBy path) :
    splitRegistry path = .ok (image.registry.toList, image.repository.toList) := by
  cases h with
  | registry =>
    have hslash : '/' ∉ image.registry.toList := notMem_registry hi (by decide) (by decide)
    rw [splitRegistry, cut?_eq_some_iff.2 ⟨rfl, hslash⟩]
    dsimp only
    rw [if_pos hi.namesRegistry, if_pos hi.registry]
  | folder hregistry hrepository hfirst hnames =>
    rw [splitRegistry, cut?_eq_some_iff.2 ⟨rfl, hfirst⟩]
    dsimp only
    rw [if_neg (by simp [hnames]), hregistry, hrepository]
  | bare hregistry hrepository hname =>
    rw [splitRegistry, cut?_eq_none_iff.2 hname]
    dsimp only
    rw [hregistry, hrepository]

/-- A slash follows every colon of a text that names an image. -/
theorem slash_of_namedBy (hi : image.WellFormed) (h : image.NamedBy path)
    (before behind : List Char) (hpath : path = before ++ ':' :: behind) : '/' ∈ behind := by
  have hcolon : ':' ∉ image.repository.toList := notMem_repository hi (by decide) (by decide)
  cases h with
  | registry =>
    -- The colon stands in the registry, which the slash ends.
    rcases List.append_eq_append_iff.1 hpath with ⟨more, -, hrest⟩ | ⟨more, -, hrest⟩
    · have hmem : ':' ∈ '/' :: image.repository.toList := by simp [hrest]
      exact absurd (List.mem_of_ne_of_mem (by decide) hmem) hcolon
    · cases more with
      | nil => cases hrest
      | cons c more =>
        rw [(List.cons.inj hrest).2]
        simp
  | folder hregistry hrepository =>
    rw [hrepository, hpath] at hcolon
    simp at hcolon
  | bare hregistry hrepository =>
    rw [hrepository, hpath] at hcolon
    simp at hcolon

end Splitting

section Reading

variable {image : Image}

theorem toList_suffix (image : Image) : image.suffix.toList =
    (image.tag.map String.toList).elim [] (':' :: ·) ++
      (image.digest.map String.toList).elim [] ('@' :: ·) := by
  unfold suffix
  cases image.tag <;> cases image.digest <;> simp

theorem notMem_of_namedBy {path : List Char} {x : Char} (h : image.NamedBy path)
    (hregistry : x ∉ image.registry.toList) (hrepository : x ∉ image.repository.toList)
    (hslash : x ≠ '/') : x ∉ path := by
  cases h with
  | registry => simp [hregistry, hrepository, hslash]
  | folder _ hpath => rwa [← hpath]
  | bare _ hpath =>
    rw [hpath, List.mem_append, not_or] at hrepository
    exact hrepository.2

theorem namedBy_ne_nil (hi : image.WellFormed) {path : List Char} (h : image.NamedBy path) :
    path ≠ [] := by
  cases h with
  | registry | folder => simp
  | bare hregistry hrepository =>
    rintro rfl
    have hwhole := hi.repository
    rw [hrepository] at hwhole
    exact absurd hwhole (by decide)

theorem parse_eq_ok {text : String} : parse text = .ok image ↔
    text.toList ≠ [] ∧ ∃ named digest, splitDigest text.toList = .ok (named, digest) ∧
      ∃ name tag, splitTag named = .ok (name, tag) ∧
        splitRegistry name = .ok (image.registry.toList, image.repository.toList) ∧
        wholeLine isRepository (lowerChars image.repository.toList) ∧
        image.tag = (if tag.isNone && digest.isNone then some defaultTag
          else tag.map String.ofList) ∧
        image.digest = digest.map String.ofList := by
  constructor
  · intro h
    unfold parse at h
    split at h
    · cases h
    rename_i hempty
    obtain ⟨⟨named, digest⟩, hdigest, h⟩ := bind_eq_ok.1 h
    obtain ⟨⟨name, tag⟩, htag, h⟩ := bind_eq_ok.1 h
    obtain ⟨⟨registry, repository⟩, hregistry, h⟩ := bind_eq_ok.1 h
    dsimp only at h
    split at h
    · cases h
    rename_i hrepository
    obtain rfl := Except.ok.inj h
    exact ⟨by simpa using hempty, named, digest, hdigest, name, tag, htag, by simpa using hregistry,
      by simpa using hrepository, rfl, rfl⟩
  · obtain ⟨registry, repository, imageTag, imageDigest⟩ := image
    rintro ⟨hempty, named, digest, hdigest, name, tag, htag, hregistry, hrepository, rfl, rfl⟩
    unfold parse
    rw [if_neg (by simpa using hempty), hdigest]
    simp only [htag, hregistry, hrepository, bind, Except.bind, Bool.not_true, String.ofList_toList]
    rfl

/-- A text that names an image, with a tag and a digest behind it. -/
theorem parse_of_written {text : String} {path : List Char} (tag : Option (List Char))
    (hi : image.WellFormed) (hpath : image.NamedBy path)
    (htext : text.toList = path ++ tag.elim [] (':' :: ·) ++
      (image.digest.map String.toList).elim [] ('@' :: ·))
    (hall : tag.all (wholeLine isTag))
    (htag : image.tag = if tag.isNone && (image.digest.map String.toList).isNone
      then some defaultTag else tag.map String.ofList) : parse text = .ok image := by
  have hat : '@' ∉ path := notMem_of_namedBy hpath (notMem_registry hi (by decide) (by decide))
    (notMem_repository hi (by decide) (by decide)) (by decide)
  have hnamed : '@' ∉ path ++ tag.elim [] (':' :: ·) := by
    cases tag with
    | none => simpa using hat
    | some t =>
      have ht : '@' ∉ t :=
        notMem_of_wholeLine (by decide) (fun _ => notMem_of_isTag (by decide)) hall
      simp [hat, ht]
  have hdigest : (image.digest.map String.toList).all (wholeLine isDigest) := by
    rw [Option.all_map]
    exact hi.digest
  refine parse_eq_ok.2 ⟨?_, path ++ tag.elim [] (':' :: ·), image.digest.map String.toList, ?_,
    path, tag, splitTag_append (slash_of_namedBy hi hpath) hall,
    splitRegistry_of_namedBy hi hpath, hi.repository, htag, by simp [Function.comp_def]⟩
  · rw [htext]
    simp [namedBy_ne_nil hi hpath]
  · rw [htext]
    exact splitDigest_append hnamed hdigest

/-- A text is read as an image when it names the image and has its tag and digest behind it, where
the default tag may be left out if there is no digest. -/
theorem parse_eq_ok_iff {text : String} : parse text = .ok image ↔
    image.WellFormed ∧ ∃ path, image.NamedBy path ∧
      (text.toList = path ++ image.suffix.toList ∨
        text.toList = path ∧ image.tag = some defaultTag ∧ image.digest = none) := by
  constructor
  · intro h
    obtain ⟨-, named, digest, hdigest, path, tag, htag, hregistry, hrepository, heq, heq'⟩ :=
      parse_eq_ok.1 h
    obtain ⟨htext, hdigest⟩ := splitDigest_ok hdigest
    obtain ⟨rfl, htag⟩ := splitTag_ok htag
    obtain ⟨hpath, hhost, hnames⟩ := splitRegistry_ok hregistry
    refine ⟨⟨hhost, hnames, hrepository, ?_, ?_, ?_⟩, path, hpath, ?_⟩
    · cases tag <;> cases digest <;> simp_all [show wholeLine isTag defaultTag.toList by decide]
    · cases digest <;> simp_all
    · cases tag <;> cases digest <;> simp_all
    · rw [htext, toList_suffix, heq, heq']
      cases tag <;> cases digest <;> simp
  · rintro ⟨hi, path, hpath, htext | ⟨htext, htag, hdigest⟩⟩
    · refine parse_of_written (image.tag.map String.toList) hi hpath ?_ ?_ ?_
      · rw [htext, toList_suffix, List.append_assoc]
      · rw [Option.all_map]
        exact hi.tag
      · have hsettled := hi.settled
        cases htag : image.tag <;> cases hdigest : image.digest <;> simp_all
    · exact parse_of_written none hi hpath (by simp [htext, hdigest]) rfl (by simp [htag, hdigest])

end Reading

/-! ### Full names -/

variable {image : Image} {text : String}

theorem toList_fullName (image : Image) : image.fullName.toList =
    image.registry.toList ++ '/' :: image.repository.toList ++ image.suffix.toList := by
  simp [fullName, ToString.toString]

theorem parse_fullName (h : image.WellFormed) : parse image.fullName = .ok image :=
  parse_eq_ok_iff.2 ⟨h, _, .registry, .inl (toList_fullName image)⟩

/-- A full name has a slash, so it is not the empty image. -/
theorem toLower_fullName_ne (image : Image) : toLower image.fullName ≠ "scratch" := by
  intro h
  have hslash : '/' ∈ (toLower image.fullName).toList := by
    rw [toLower, String.toList_ofList]
    exact mem_lowerAfter (by decide) (by decide) (by simp [toList_fullName])
  rw [h] at hslash
  exact absurd hslash (by decide)

theorem normalize_fullName (h : image.WellFormed) : normalize image.fullName = image.fullName := by
  rw [normalize, if_neg (toLower_fullName_ne image), parse_fullName h]

theorem normalize_normalize (text : String) : normalize (normalize text) = normalize text := by
  by_cases hempty : toLower text = "scratch"
  · have hnormal : normalize text = "scratch" := if_pos hempty
    rw [hnormal]
    exact if_pos (by decide +kernel)
  · cases hparse : parse text with
    | ok image =>
      have hnormal : normalize text = image.fullName := by rw [normalize, if_neg hempty, hparse]
      rw [hnormal, normalize_fullName (parse_eq_ok_iff.1 hparse).1]
    | error fault =>
      have hnormal : normalize text = text := by rw [normalize, if_neg hempty, hparse]
      rw [hnormal, hnormal]

/-- Every image that is read has its form, an image of that form is read from its full name, and so
a text that is normalized stays as it is. -/
theorem full_names_read_back (text : String) (image : Image) :
    (parse text = .ok image → image.WellFormed) ∧
      (image.WellFormed → parse image.fullName = .ok image) ∧
      normalize (normalize text) = normalize text :=
  ⟨fun h => (parse_eq_ok_iff.1 h).1, parse_fullName, normalize_normalize text⟩

/-- A port, capitals, a digest without a tag, and a line feed at the end. -/
theorem full_names_read_back_pinned : ∃ text digest image,
    digest = "sha256:" ++ String.ofList (List.replicate 64 'a') ++ "\n" ∧
    text = "localhost:5000/Team/a.b_c@" ++ digest ∧
    image = ⟨"localhost:5000", "Team/a.b_c", none, some digest⟩ ∧ parse text = .ok image ∧
    image.WellFormed ∧ parse image.fullName = .ok image ∧
    normalize (normalize "Ubuntu:22.04") = normalize "Ubuntu:22.04" := by
  obtain ⟨text, digest, image, hdigest, htext, himage, hparse⟩ : ∃ text digest image,
      digest = "sha256:" ++ String.ofList (List.replicate 64 'a') ++ "\n" ∧
      text = "localhost:5000/Team/a.b_c@" ++ digest ∧
      image = ⟨"localhost:5000", "Team/a.b_c", none, some digest⟩ ∧ parse text = .ok image :=
    ⟨_, _, _, rfl, rfl, rfl, rfl⟩
  obtain ⟨hread, hwrite, -⟩ := full_names_read_back text image
  exact ⟨text, digest, image, hdigest, htext, himage, hparse, hread hparse, hwrite (hread hparse),
    (full_names_read_back "Ubuntu:22.04" image).2.2⟩

/-! ### Short names -/

/-- The images whose short name leaves out only what is added when it is read: nothing, as the
registry is another one; `library` before a single name; or the registry alone, before a folder that
is neither `library` nor looks like a registry. -/
inductive Shortens (image : Image) : Prop where
  | registry (h : image.registry ≠ defaultRegistry)
  | library {name : List Char} (hrepository : image.repository.toList = "library/".toList ++ name)
    (hname : '/' ∉ name)
  | folder {first rest : List Char} (hrepository : image.repository.toList = first ++ '/' :: rest)
    (hfirst : '/' ∉ first) (hlibrary : first ≠ "library".toList)
    (hnames : Image.namesRegistry first = false)

/-- The path of a short name. -/
def shortPath (image : Image) : List Char :=
  let cs := image.repository.toList
  if "library/".toList.isPrefixOf cs then cs.drop 8 else cs

theorem toList_shortName (h : image.registry = defaultRegistry) :
    image.shortName.toList = image.shortPath ++ image.suffix.toList := by
  rw [shortName, if_pos h, String.toList_append, String.toList_ofList]
  rfl

theorem shortName_of_ne (h : image.registry ≠ defaultRegistry) :
    image.shortName = image.fullName := by
  rw [shortName, if_neg h]

theorem shortPath_of_library {name : List Char}
    (h : image.repository.toList = "library/".toList ++ name) : image.shortPath = name := by
  rw [shortPath, h]
  exact if_pos <| List.isPrefixOf_iff_prefix.2 <| List.prefix_append _ _

theorem shortPath_of_folder {first rest : List Char}
    (h : image.repository.toList = first ++ '/' :: rest) (hfirst : '/' ∉ first)
    (hlibrary : first ≠ "library".toList) : image.shortPath = first ++ '/' :: rest := by
  rw [shortPath, h]
  refine if_neg fun hprefixed => hlibrary ?_
  obtain ⟨behind, hbehind⟩ := List.isPrefixOf_iff_prefix.1 hprefixed
  -- Both texts are cut at the first slash.
  have hcut : cut? '/' (first ++ '/' :: rest) = some (first, rest) :=
    cut?_eq_some_iff.2 ⟨rfl, hfirst⟩
  have hcut' : cut? '/' (first ++ '/' :: rest) = some ("library".toList, behind) := by
    rw [← hbehind]
    rfl
  exact congrArg Prod.fst (Option.some.inj (hcut.symm.trans hcut'))

theorem shortPath_suffix (image : Image) : image.shortPath <:+ image.repository.toList := by
  unfold shortPath
  dsimp only
  split
  · exact List.drop_suffix _ _
  · exact List.suffix_refl _

theorem namedBy_shortPath_iff (h : image.registry = defaultRegistry) :
    image.NamedBy image.shortPath ↔ image.Shortens := by
  constructor
  · intro hpath
    have hlength := (shortPath_suffix image).length_le
    generalize hshort : image.shortPath = path at hpath hlength
    cases hpath with
    | registry => simp at hlength; omega
    | folder _ hrepository hfirst hnames =>
      refine .folder hrepository hfirst ?_ hnames
      rintro rfl
      rw [shortPath_of_library (by rw [hrepository]; rfl)] at hshort
      have := congrArg List.length hshort
      simp at this
      omega
    | bare _ hrepository hname => exact .library hrepository hname
  · intro hshort
    cases hshort with
    | registry hne => exact absurd h hne
    | library hrepository hname =>
      rw [shortPath_of_library hrepository]
      exact .bare h hrepository hname
    | folder hrepository hfirst hlibrary hnames =>
      rw [shortPath_of_folder hrepository hfirst hlibrary]
      exact .folder h hrepository hfirst hnames

/-- The short name of an image of the default registry is read as the image when its path names
it: what stands behind the path can be told from it. -/
theorem parse_shortName_iff_namedBy (hi : image.WellFormed)
    (h : image.registry = defaultRegistry) :
    parse image.shortName = .ok image ↔ image.NamedBy image.shortPath := by
  rw [parse_eq_ok_iff, toList_shortName h]
  constructor
  · rintro ⟨-, path, hpath, htext | ⟨rfl, htag, hdigest⟩⟩
    · rwa [List.append_cancel_right htext]
    · -- The tag is written, and there is no colon in what names the image.
      have hcolon := notMem_of_namedBy (x := ':') hpath (by rw [h]; decide)
        (notMem_repository hi (by decide) (by decide)) (by decide)
      simp [toList_suffix, htag] at hcolon
  · intro hpath
    exact ⟨hi, _, hpath, .inl rfl⟩

theorem parse_shortName_iff (hi : image.WellFormed) :
    parse image.shortName = .ok image ↔ image.Shortens := by
  by_cases h : image.registry = defaultRegistry
  · rw [parse_shortName_iff_namedBy hi h, namedBy_shortPath_iff h]
  · rw [shortName_of_ne h]
    exact iff_of_true (parse_fullName hi) (.registry h)

/-- The short name of an image that is read is read as that image where it leaves out only what
stands for itself, and nowhere else. -/
theorem short_names_read_back {text : String} {image : Image} (h : parse text = .ok image) :
    parse image.shortName = .ok image ↔ image.Shortens :=
  parse_shortName_iff (parse_eq_ok_iff.1 h).1

/-- A folder of the default registry. -/
theorem short_names_read_back_folder : ∃ image : Image,
    parse "docker.io/team/app:v1" = .ok image ∧ image.shortName = "team/app:v1" ∧
    image.Shortens ∧ parse image.shortName = .ok image := by
  have hparse : parse "docker.io/team/app:v1" =
      .ok ⟨"docker.io", "team/app", some "v1", none⟩ := rfl
  have hrepository : "team/app".toList = "team".toList ++ '/' :: "app".toList := by decide
  have hshort : Shortens ⟨"docker.io", "team/app", some "v1", none⟩ :=
    .folder hrepository (by decide) (by decide) (by decide)
  exact ⟨_, hparse, by decide +kernel, hshort, (short_names_read_back hparse).2 hshort⟩

/-- Behind `library` there is a folder, which the short name makes an image of its own; a folder
that looks like a registry becomes one; and a name without `library` gets it. -/
theorem shortName_names_another :
    parse "library/foo/bar" = .ok ⟨"docker.io", "library/foo/bar", some "latest", none⟩ ∧
    shortName ⟨"docker.io", "library/foo/bar", some "latest", none⟩ = "foo/bar:latest" ∧
    parse "foo/bar:latest" = .ok ⟨"docker.io", "foo/bar", some "latest", none⟩ ∧
    parse "library/foo.io/bar" = .ok ⟨"docker.io", "library/foo.io/bar", some "latest", none⟩ ∧
    shortName ⟨"docker.io", "library/foo.io/bar", some "latest", none⟩ = "foo.io/bar:latest" ∧
    parse "foo.io/bar:latest" = .ok ⟨"foo.io", "bar", some "latest", none⟩ ∧
    parse "docker.io/foo" = .ok ⟨"docker.io", "foo", some "latest", none⟩ ∧
    shortName ⟨"docker.io", "foo", some "latest", none⟩ = "foo:latest" ∧
    parse "foo:latest" = .ok ⟨"docker.io", "library/foo", some "latest", none⟩ :=
  ⟨rfl, rfl, rfl, rfl, rfl, rfl, rfl, rfl, rfl⟩

end Image
end Dockerfile

import Dockerfile.Text

/-!
# Forms of arguments

The forms that names, ports, owners, modes, durations, signals and paths have. Digits are those of
any script unless said otherwise, and all forms but that of a path may end in a line feed.
-/

namespace Dockerfile.Check

/-- At least one decimal digit and nothing else. -/
def isDigits (cs : List Char) : Bool := !cs.isEmpty && cs.all Text.isDecimal

/-- A first character that satisfies `first`, and others that satisfy `rest`. -/
def startsAndGoesOn (first rest : Char → Bool) : List Char → Bool
  | [] => false
  | c :: cs => first c && cs.all rest

/-- An ASCII letter, digit or underscore. -/
def isWordChar (c : Char) : Bool := c.isAlphanum || c = '_'

/-- The name of a variable. -/
def isName (s : String) : Bool :=
  Text.wholeLine (startsAndGoesOn (fun c => c.isAlpha || c = '_') isWordChar) s.toList

/-- The name of a stage. -/
def isStageName (s : String) : Bool :=
  Text.wholeLine (startsAndGoesOn Char.isAlpha fun c => isWordChar c || c = '.' || c = '-') s.toList

/-! ### Ports -/

/-- A letter whatever its case; the long `ſ` counts as `s`. -/
def foldCase (c : Char) : Char := if c = 'ſ' then 's' else c.toLower

/-- The protocols of ports. -/
def isProtocol (cs : List Char) : Bool :=
  ["tcp".toList, "udp".toList, "sctp".toList].contains (cs.map foldCase)

/-- The number that digits write. -/
def digits? (cs : List Char) : Option Nat := Text.decimalIndex? (String.ofList cs)

/-- The first and the last port of `port[-port]`. -/
def portRange? (cs : List Char) : Option (Nat × Nat) :=
  match Text.cut? '-' cs with
  | some (first, last) => do return (← digits? first, ← digits? last)
  | none => (digits? cs).map fun n => (n, n)

/-- The first and the last port of `port[-port][/protocol]`. -/
def ports? (cs : List Char) : Option (Nat × Nat) :=
  match Text.cut? '/' cs with
  | some (range, protocol) => if isProtocol protocol then portRange? range else none
  | none => portRange? cs

/-- Ports from 1 to 65535, in order. -/
def isPort (s : String) : Bool :=
  Text.wholeLine (fun cs => (ports? cs).any fun (first, last) =>
    1 ≤ first && first ≤ last && last ≤ 65535) s.toList

/-! ### Owners and modes -/

/-- A user or a group: a number, or a name that may end in a dollar sign. -/
def isOwnerPart (cs : List Char) : Bool :=
  isDigits cs ||
    let name := if cs.getLast? = some '$' then cs.dropLast else cs
    startsAndGoesOn (fun c => c.isAlpha || c = '_') (fun c => isWordChar c || c = '.' || c = '-') name

/-- An owner `user[:group]`. -/
def isOwner (s : String) : Bool :=
  match Text.cut? ':' s.toList with
  | some (user, group) => Text.wholeLine isOwnerPart user && Text.wholeLine isOwnerPart group
  | none => Text.wholeLine isOwnerPart s.toList

/-- A file mode: three or four octal digits, or one more if the first of them is zero. -/
def isMode (s : String) : Bool :=
  Text.wholeLine (fun cs =>
    cs.all (fun c => '0' ≤ c && c ≤ '7') &&
      (cs.length = 3 || cs.length = 4 || (cs.length = 5 && cs.head? = some '0'))) s.toList

/-! ### Checksums -/

/-- The hash functions of checksums, with the number of their hexadecimal digits. -/
def hashLengths : List (String × Nat) := [("md5", 32), ("sha1", 40), ("sha256", 64), ("sha512", 128)]

/-- Hexadecimal digits, and at least one of them. -/
def isHexDigits (s : String) : Bool :=
  Text.wholeLine (fun cs => !cs.isEmpty && cs.all fun c =>
    c.isDigit || ('a' ≤ c && c ≤ 'f') || ('A' ≤ c && c ≤ 'F')) s.toList

/-! ### Durations -/

/-- The units of durations. -/
def units : List (List Char) :=
  ["ns".toList, "us".toList, "µs".toList, "ms".toList, "s".toList, "m".toList, "h".toList]

/-- The text behind a number with an optional fraction. -/
def skipDecimal? (cs : List Char) : Option (List Char) :=
  if (cs.takeWhile Text.isDecimal).isEmpty then none
  else match cs.dropWhile Text.isDecimal with
    | '.' :: rest =>
      if (rest.takeWhile Text.isDecimal).isEmpty then none
      else some (rest.dropWhile Text.isDecimal)
    | rest => some rest

theorem skipDecimal?_length {cs rest : List Char} (h : skipDecimal? cs = some rest) :
    rest.length < cs.length := by
  have drop (l : List Char) : (l.dropWhile Text.isDecimal).length ≤ l.length :=
    (List.dropWhile_suffix Text.isDecimal).length_le
  unfold skipDecimal? at h
  split at h
  · cases h
  · rename_i digits
    have short : (cs.dropWhile Text.isDecimal).length < cs.length := by
      cases cs with
      | nil => simp at digits
      | cons c cs =>
        by_cases hc : Text.isDecimal c
        · have := drop cs
          simp only [List.dropWhile_cons, hc, if_true, List.length_cons]
          omega
        · simp [hc] at digits
    split at h
    · rename_i more heq
      split at h
      · cases h
      · cases h
        have := drop more
        rw [heq] at short
        simp only [List.length_cons] at short
        omega
    · cases h; exact short

/-- A duration: numbers with units, one after the other. -/
def isDurationFrom (cs : List Char) : Bool :=
  match h : skipDecimal? cs with
  | none => false
  | some rest =>
    have := skipDecimal?_length h
    have : (rest.dropWhile fun c => !Text.isDecimal c).length ≤ rest.length :=
      (List.dropWhile_suffix _).length_le
    let unit := rest.takeWhile fun c => !Text.isDecimal c
    let behind := rest.dropWhile fun c => !Text.isDecimal c
    units.contains unit && (behind.isEmpty || isDurationFrom behind)
termination_by cs.length
decreasing_by omega

/-- A duration such as `1m30s`. -/
def isDuration (s : String) : Bool := Text.wholeLine isDurationFrom s.toList

/-! ### Signals -/

/-- The names of signals, without their leading `SIG`. -/
def signals : List String :=
  ["ABRT", "ALRM", "BUS", "CHLD", "CONT", "FPE", "HUP", "ILL", "INT", "IO", "IOT", "KILL", "PIPE",
   "POLL", "PROF", "PWR", "QUIT", "SEGV", "STKFLT", "STOP", "SYS", "TERM", "TRAP", "TSTP", "TTIN",
   "TTOU", "URG", "USR1", "USR2", "VTALRM", "WINCH", "XCPU", "XFSZ"]

/-- A real-time signal: the first or last one, with an optional offset. -/
def isRealTimeSignal (cs : List Char) : Bool :=
  ["RTMIN".toList, "RTMAX".toList].contains (cs.take 5) &&
    match cs.drop 5 with
    | [] => true
    | sign :: offset => (sign = '+' || sign = '-') && isDigits offset

/-- A signal in capitals: its number, or its name. -/
def isSignal (s : String) : Bool :=
  match Text.decimalIndex? s with
  | some n => 0 < n && n ≤ 64
  | none =>
    let cs := s.toList
    let name := if "SIG".toList.isPrefixOf cs then cs.drop 3 else cs
    signals.contains (String.ofList name) || Text.wholeLine isRealTimeSignal name

/-! ### Paths -/

/-- A path from the root, of either kind of file system. -/
def isAbsolutePath (path : String) : Bool :=
  match path.toList with
  | '/' :: _ => true
  | drive :: ':' :: slash :: _ => drive.isAlpha && (slash = '\\' || slash = '/')
  | _ => false

end Dockerfile.Check

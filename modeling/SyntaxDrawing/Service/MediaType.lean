/-!
# Media types

A media type is `type/subtype`, where the subtype may end in `+suffix`, followed by parameters. The
semicolon that begins them stands right behind the subtype. Letters count in either case. Parameters
are checked and forgotten.
-/

namespace SyntaxDrawing.Service

structure MediaType where
  type : String
  subtype : String
  suffix : Option String
  deriving DecidableEq

namespace MediaType

def isTokenChar (c : Char) : Bool :=
  c.isAlphanum || "!#$%&'*+-.^_\x60|~".toList.contains c

def isQuotedChar (c : Char) : Bool :=
  decide (' ' ≤ c) && decide (c ≤ '~')

/-- What follows the blanks behind a quoted value: nothing, or another parameter. -/
def afterQuoted (cs : List Char) : Option (List Char) :=
  match cs.dropWhile (· == ' ') with
  | [] => some []
  | ';' :: rest => some rest
  | _ => none

/-- A value behind its opening quote. It holds at least one character, which may be a quote. -/
def skipQuoted : List Char → Option (List Char)
  | [] => none
  | c :: rest =>
    if isQuotedChar c then
      match rest.dropWhile fun c => isQuotedChar c && c != '"' with
      | '"' :: rest => afterQuoted rest
      | _ => none
    else none

/-- A value without quotes may only be empty at the end. -/
def skipPlain (cs : List Char) : Option (List Char) :=
  match cs.dropWhile isTokenChar with
  | [] => some []
  | ';' :: rest => if (cs.takeWhile isTokenChar).isEmpty then none else some rest
  | _ => none

def skipValue : List Char → Option (List Char)
  | '"' :: rest => skipQuoted rest
  | cs => skipPlain cs

def skipParameter (cs : List Char) : Option (List Char) :=
  match cs.takeWhile isTokenChar, cs.dropWhile isTokenChar with
  | _ :: _, '=' :: rest => skipValue rest
  | _, _ => none

theorem length_dropWhile_le {p : Char → Bool} (cs : List Char) :
    (cs.dropWhile p).length ≤ cs.length :=
  (List.dropWhile_sublist _).length_le

theorem afterQuoted_length {cs rest : List Char} (h : afterQuoted cs = some rest) :
    rest.length ≤ cs.length := by
  unfold afterQuoted at h
  have hle := length_dropWhile_le (p := (· == ' ')) cs
  split at h
  · cases h
    exact Nat.zero_le _
  · next hd =>
    cases h
    rw [hd] at hle
    exact Nat.le_of_succ_le hle
  · cases h

theorem skipQuoted_length {cs rest : List Char} (h : skipQuoted cs = some rest) :
    rest.length ≤ cs.length := by
  unfold skipQuoted at h
  split at h
  · cases h
  · next c cs =>
    have hle := length_dropWhile_le (p := fun c => isQuotedChar c && c != '"') cs
    split at h
    · split at h
      · next hd =>
        rw [hd] at hle
        have := afterQuoted_length h
        simp only [List.length_cons] at *
        omega
      · cases h
    · cases h

theorem skipPlain_length {cs rest : List Char} (h : skipPlain cs = some rest) :
    rest.length ≤ cs.length := by
  unfold skipPlain at h
  have hle := length_dropWhile_le (p := isTokenChar) cs
  split at h
  · cases h
    exact Nat.zero_le _
  · next hd =>
    split at h
    · cases h
    · cases h
      rw [hd] at hle
      exact Nat.le_of_succ_le hle
  · cases h

theorem skipValue_length {cs rest : List Char} (h : skipValue cs = some rest) :
    rest.length ≤ cs.length := by
  unfold skipValue at h
  split at h
  · exact Nat.le_succ_of_le (skipQuoted_length h)
  · exact skipPlain_length h

theorem skipParameter_length {cs rest : List Char} (h : skipParameter cs = some rest) :
    rest.length < cs.length := by
  unfold skipParameter at h
  have hle := length_dropWhile_le (p := isTokenChar) cs
  split at h
  · next hd =>
    rw [hd] at hle
    have := skipValue_length h
    simp only [List.length_cons] at hle
    omega
  · cases h

/-- Whether these are parameters. Blanks may stand in front of each of them, and behind the last. -/
def areParameters (cs : List Char) : Bool :=
  match cs with
  | [] => true
  | ' ' :: rest => areParameters rest
  | cs =>
    match _h : skipParameter cs with
    | none => false
    | some rest => areParameters rest
termination_by cs.length
decreasing_by
  · simp
  · exact skipParameter_length _h

/-- Splits a subtype at its last plus sign, unless that is its first character. -/
def splitSuffix (cs : List Char) : List Char × Option (List Char) :=
  match cs.reverse.dropWhile (· != '+') with
  | '+' :: base :: rest =>
    ((base :: rest).reverse, some (cs.reverse.takeWhile (· != '+')).reverse)
  | _ => (cs, none)

def ofChars? (cs : List Char) : Option MediaType :=
  let lower (cs : List Char) : String := String.ofList (cs.map Char.toLower)
  match cs.takeWhile isTokenChar, cs.dropWhile isTokenChar with
  | type@(_ :: _), '/' :: rest =>
    let name := rest.takeWhile isTokenChar
    let (subtype, suffix) := splitSuffix name
    let media : MediaType := ⟨lower type, lower subtype, suffix.map lower⟩
    match rest.dropWhile isTokenChar with
    | [] => some media
    | ';' :: rest => if !name.isEmpty && areParameters rest then some media else none
    | _ => none
  | _, _ => none

def ofString? (s : String) : Option MediaType :=
  ofChars? s.toList

def isJson (m : MediaType) : Bool :=
  m.type == "application" && (m.subtype == "json" || m.suffix == some "json")

end MediaType

end SyntaxDrawing.Service

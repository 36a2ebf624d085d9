import SyntaxDrawing.Shell.Script

/-!
# Patterns

A star stands for any text, a question mark for one character, brackets for one of those they list.
A character that was quoted, or that stands behind a backslash, stands for itself.
-/

namespace SyntaxDrawing.Shell

/-- Characters, each with whether it may have a meaning of its own. -/
abbrev Pattern : Type :=
  List (Char × Bool)

def Pattern.text (p : Pattern) : Raw :=
  p.map (·.1)

def Pattern.literal : Pattern → Raw
  | ('\\', true) :: (c, _) :: p => c :: literal p
  | (c, _) :: p => c :: literal p
  | [] => []

/-- The number of a byte in the order that ranges are in, where those beyond ASCII come first. -/
def orderOf (c : Char) : Int :=
  if c.toNat < 128 then c.toNat else (c.toNat : Int) - 256

def characterClasses : List (String × (Char → Bool)) :=
  [("alnum", Char.isAlphanum), ("alpha", Char.isAlpha), ("blank", fun c => c == ' ' || c == '\t'),
    ("cntrl", fun c => decide (c < ' ') || c == '\x7f'), ("digit", Char.isDigit),
    ("graph", isGraphic), ("lower", Char.isLower), ("print", fun c => c == ' ' || isGraphic c),
    ("punct", fun c => isGraphic c && !c.isAlphanum),
    ("space", fun c => c == ' ' || (decide ('\t' ≤ c) && decide (c ≤ '\r'))),
    ("upper", Char.isUpper), ("xdigit", fun c => c.isDigit || "abcdefABCDEF".toList.contains c)]
where
  isGraphic (c : Char) : Bool := decide ('!' ≤ c) && decide (c ≤ '~')

inductive Listed
  | single (c : Char)
  | range (low high : Char)
  | members (isMember : Char → Bool)

def Listed.admits (l : Listed) (c : Char) : Bool :=
  match l with
  | .single a => a == c
  | .range low high => decide (orderOf low ≤ orderOf c) && decide (orderOf c ≤ orderOf high)
  | .members isMember => isMember c

def takeMember : Pattern → Option (Char × Pattern)
  | ('\\', true) :: (c, _) :: p => some (c, p)
  | ('\\', true) :: [] => none
  | (c, _) :: p => some (c, p)
  | [] => none

/-- Takes the name of a class, between colons, with the bracket that ends it. Only its letters may
have been quoted. -/
def takeClass (p : Pattern) : Option ((Char → Bool) × Pattern) :=
  characterClasses.findSome? fun (name, isMember) =>
    let written := ':' :: name.toList ++ [':', ']']
    let start : Pattern := p.take written.length
    if start.text == written && start.all fun a => a.2 || a.1.isAlpha then
      some (isMember, p.drop written.length)
    else none

theorem takeMember_length {p rest : Pattern} {c : Char} (h : takeMember p = some (c, rest)) :
    rest.length < p.length := by
  unfold takeMember at h
  split at h
  · cases h
    simp only [List.length_cons]
    omega
  · cases h
  · cases h
    exact Nat.lt_succ_self _
  · cases h

theorem takeClass_length {p rest : Pattern} {isMember : Char → Bool}
    (h : takeClass p = some (isMember, rest)) : rest.length ≤ p.length := by
  obtain ⟨_, _, hname⟩ := List.exists_of_findSome?_eq_some h
  simp only at hname
  split at hname
  · cases hname
    rw [List.length_drop]
    exact Nat.sub_le _ _
  · cases hname

/-- What is listed up to the bracket that closes the list, and what follows it. The first character
never closes it, and neither does one that would end a range. -/
def readListed (isFirst : Bool) (p : Pattern) : Option (List Listed × Pattern) :=
  if !isFirst && p.head? == some (']', true) then some ([], p.tail)
  else
    match _h : if p.head? == some ('[', true) then takeClass p.tail else none with
    | some (isMember, rest) =>
      (readListed false rest).map fun (more, after) => (.members isMember :: more, after)
    | none =>
      match _hlow : takeMember p with
      | none => none
      | some (low, rest) =>
        if rest.head? == some ('-', true) && rest.tail.head? != some (']', true) then
          match _hhigh : takeMember rest.tail with
          | none => none
          | some (high, rest) =>
            (readListed false rest).map fun (more, after) => (.range low high :: more, after)
        else (readListed false rest).map fun (more, after) => (.single low :: more, after)
termination_by p.length
decreasing_by
  · cases p with
    | nil => simp at _h
    | cons a p =>
      split at _h
      · have := takeClass_length _h
        simp only [List.tail_cons, List.length_cons] at *
        omega
      · cases _h
  · have := takeMember_length _hlow
    have := takeMember_length _hhigh
    simp only [List.length_tail] at *
    omega
  · exact takeMember_length _hlow

/-- What is between brackets: whether an exclamation mark in front turns the list around, and the
list. Returns also what follows the brackets. -/
def readBrackets (p : Pattern) : Option (Bool × List Listed × Pattern) :=
  if p.head? == some ('!', true) then (readListed true p.tail).map (true, ·)
  else (readListed true p).map (false, ·)

theorem readListed_length {isFirst : Bool} {p after : Pattern} {listed : List Listed}
    (h : readListed isFirst p = some (listed, after)) : after.length ≤ p.length := by
  fun_induction readListed isFirst p generalizing listed after with
  | case1 => cases h; simp
  | case2 isFirst p _ isMember rest hclass ih =>
    obtain ⟨⟨_, _⟩, hread, heq⟩ := Option.map_eq_some_iff.1 h
    cases heq
    have hafter := ih hread
    split at hclass
    · have hrest := takeClass_length hclass
      simp only [List.length_tail] at hrest
      omega
    · cases hclass
  | case3 => cases h
  | case4 => cases h
  | case5 isFirst p _ _ low rest hlow _ high behind hhigh ih =>
    obtain ⟨⟨_, _⟩, hread, heq⟩ := Option.map_eq_some_iff.1 h
    cases heq
    have hafter := ih hread
    have hlow := takeMember_length hlow
    have hhigh := takeMember_length hhigh
    simp only [List.length_tail] at hhigh
    omega
  | case6 isFirst p _ _ low rest hlow _ ih =>
    obtain ⟨⟨_, _⟩, hread, heq⟩ := Option.map_eq_some_iff.1 h
    cases heq
    have hafter := ih hread
    have hlow := takeMember_length hlow
    omega

theorem readBrackets_length {p after : Pattern} {isTurned : Bool} {listed : List Listed}
    (h : readBrackets p = some (isTurned, listed, after)) : after.length ≤ p.length := by
  unfold readBrackets at h
  split at h
  · obtain ⟨⟨_, _⟩, hread, heq⟩ := Option.map_eq_some_iff.1 h
    cases heq
    have := readListed_length hread
    simp only [List.length_tail] at this
    omega
  · obtain ⟨⟨_, _⟩, hread, heq⟩ := Option.map_eq_some_iff.1 h
    cases heq
    exact readListed_length hread

def fits (p : Pattern) (text : Raw) : Bool :=
  match p, text with
  | [], text => text.isEmpty
  | ('*', true) :: p, [] => fits p []
  | ('*', true) :: p, c :: text => fits p (c :: text) || fits (('*', true) :: p) text
  | ('?', true) :: p, _ :: text => fits p text
  | ('[', true) :: p, c :: text =>
    match _h : readBrackets p with
    | some (isTurned, listed, after) => listed.any (·.admits c) != isTurned && fits after text
    | none => c == '[' && fits p text
  | ('\\', true) :: (a, _) :: p, c :: text => a == c && fits p text
  | (a, _) :: p, c :: text => a == c && fits p text
  | _ :: _, [] => false
termination_by p.length + text.length
decreasing_by
  all_goals simp only [List.length_cons]
  all_goals try omega
  have := readBrackets_length _h
  omega

def isClosed : Pattern → Bool
  | [] => false
  | ('\\', true) :: (c, _) :: p => c != '/' && (p.head? == some (']', true) || isClosed p)
  | (c, _) :: p => c != '/' && (p.head? == some (']', true) || isClosed p)

/-- Whether something in a pattern may stand for more than itself. -/
def Pattern.isOpen : Pattern → Bool
  | [] => false
  | ('*', true) :: _ | ('?', true) :: _ => true
  | ('[', true) :: p => isClosed (if p.head? == some ('!', true) then p.tail else p) || isOpen p
  | ('\\', true) :: _ :: p => isOpen p
  | _ :: p => isOpen p

def trimStart (longest : Bool) (p : Pattern) (text : Raw) : Raw :=
  let lengths := List.range (text.length + 1)
  let lengths := if longest then lengths.reverse else lengths
  match lengths.find? fun n => fits p (text.take n) with
  | some n => text.drop n
  | none => text

def trimEnd (longest : Bool) (p : Pattern) (text : Raw) : Raw :=
  let lengths := List.range (text.length + 1)
  let lengths := if longest then lengths else lengths.reverse
  match lengths.find? fun n => fits p (text.drop n) with
  | some n => text.take n
  | none => text

end SyntaxDrawing.Shell

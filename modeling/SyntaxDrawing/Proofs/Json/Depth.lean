import SyntaxDrawing.Json.Nesting
import SyntaxDrawing.Proofs.Json.Steps

/-!
# The depth pass over what the reader takes

A scalar, a key and the blanks between them leave the count of open brackets as it is: numbers and
words hold no quote and no bracket, and a string that the reader takes is one to the pass.
-/

namespace SyntaxDrawing.Json

variable {rest rest' : List UInt8} {c m : Nat}

theorem pass_of_isPlain {b : UInt8} (h : isPlain b = true) :
    Depth.pass ⟨.outside, c, m⟩ b = ⟨.outside, c, m⟩ := by
  simp only [isPlain, Bool.and_eq_true, bne_iff_ne] at h
  obtain ⟨⟨⟨⟨hq, ha⟩, ho⟩, ha'⟩, ho'⟩ := h
  simp [Depth.pass, hq, ha, ho, ha', ho']

namespace Passes

theorem foldl_eq {q : UInt8 → Bool} (h : Passes q rest rest')
    (hq : ∀ b, q b = true → isPlain b = true) :
    rest.foldl Depth.pass ⟨.outside, c, m⟩ = rest'.foldl Depth.pass ⟨.outside, c, m⟩ := by
  obtain ⟨taken, rfl, hTaken⟩ := h
  rw [List.foldl_append]
  congr 1
  induction taken with
  | nil => rfl
  | cons b taken ih =>
    rw [List.foldl_cons, pass_of_isPlain (hq b (hTaken b (by simp)))]
    exact ih fun b hb => hTaken b (by simp [hb])

end Passes

theorem pass_of_hexValue? {b : UInt8} (h : (hexValue? b).isSome = true) :
    Depth.pass ⟨.inside, c, m⟩ b = ⟨.inside, c, m⟩ := by
  have hb : b ≠ byte '\\' ∧ b ≠ byte '"' := by
    constructor <;> rintro rfl <;> exact absurd h (by decide)
  simp [Depth.pass, hb]

theorem foldl_pass_readHex {digits : List UInt8} {n : Nat} (h : readHex digits = .ok (n, [])) :
    digits.foldl Depth.pass ⟨.inside, c, m⟩ = ⟨.inside, c, m⟩ := by
  obtain ⟨a, b, d, e, rfl, ha, hb, hd, he⟩ := readHex_digits h
  simp only [List.foldl_cons, List.foldl_nil, pass_of_hexValue?, *]

theorem Escape.foldl_pass {letters spelt : List UInt8} (h : Escape letters spelt) :
    letters.foldl Depth.pass ⟨.escaped, c, m⟩ = ⟨.inside, c, m⟩ := by
  have hEscaped (b : UInt8) : Depth.pass ⟨.escaped, c, m⟩ b = ⟨.inside, c, m⟩ := rfl
  have hSlash : Depth.pass ⟨.inside, c, m⟩ (byte '\\') = ⟨.escaped, c, m⟩ := rfl
  cases h with
  | letter => rfl
  | unicode hDigits => rw [List.foldl_cons, hEscaped, foldl_pass_readHex hDigits]
  | pair hDigits _ hDigits' =>
    rw [List.foldl_cons, hEscaped, List.foldl_append, foldl_pass_readHex hDigits, List.foldl_cons,
      hSlash, List.foldl_cons, hEscaped, foldl_pass_readHex hDigits']

theorem Quoted.foldl_pass {taken spelt : List UInt8} (h : Quoted taken spelt) :
    taken.foldl Depth.pass ⟨.inside, c, m⟩ = ⟨.outside, c, m⟩ := by
  induction h with
  | close => rfl
  | escape hLetters _ ih =>
    have hSlash : Depth.pass ⟨.inside, c, m⟩ (byte '\\') = ⟨.escaped, c, m⟩ := rfl
    rw [List.foldl_cons, hSlash, List.foldl_append, hLetters.foldl_pass, ih]
  | plain hq hb _ _ ih =>
    rw [List.foldl_cons]
    simpa [Depth.pass, hq, hb] using ih

theorem Quoted.foldl_pass_quote {taken spelt : List UInt8} (h : Quoted taken spelt) :
    (byte '"' :: (taken ++ rest)).foldl Depth.pass ⟨.outside, c, m⟩ =
      rest.foldl Depth.pass ⟨.outside, c, m⟩ := by
  have hQuote : Depth.pass ⟨.outside, c, m⟩ (byte '"') = ⟨.inside, c, m⟩ := rfl
  rw [List.foldl_cons, hQuote, List.foldl_append, h.foldl_pass]

theorem foldl_pass_readText {s : String} (h : readText rest = .ok (s, rest')) :
    (byte '"' :: rest).foldl Depth.pass ⟨.outside, c, m⟩ =
      rest'.foldl Depth.pass ⟨.outside, c, m⟩ := by
  obtain ⟨taken, hTaken, rfl⟩ := readText_eq_ok_iff.1 h
  exact hTaken.foldl_pass_quote

theorem Scalar.foldl_pass {v : Value} (h : Scalar rest v rest') :
    rest.foldl Depth.pass ⟨.outside, c, m⟩ = rest'.foldl Depth.pass ⟨.outside, c, m⟩ := by
  obtain ⟨hWord, -⟩ | ⟨taken, spelt, hTaken, rfl⟩ := h.spelling
  · exact hWord.foldl_eq fun _ => isPlain_of_isWordByte
  · exact hTaken.foldl_pass_quote

theorem foldl_pass_skipBlank {bytes : List UInt8} (h : skipBlank rest = bytes) :
    rest.foldl Depth.pass ⟨.outside, c, m⟩ = bytes.foldl Depth.pass ⟨.outside, c, m⟩ :=
  h ▸ (passes_skipBlank rest).foldl_eq fun _ => isPlain_of_isBlankByte

theorem foldl_pass_plain {b : UInt8} (hb : isPlain b = true) :
    (b :: rest).foldl Depth.pass ⟨.outside, c, m⟩ = rest.foldl Depth.pass ⟨.outside, c, m⟩ := by
  rw [List.foldl_cons, pass_of_isPlain hb]

theorem Key.foldl_pass {key : String} (h : Key rest key rest') :
    rest.foldl Depth.pass ⟨.outside, c, m⟩ = rest'.foldl Depth.pass ⟨.outside, c, m⟩ := by
  obtain ⟨hq, ht, hb⟩ := h
  calc
    rest.foldl Depth.pass ⟨.outside, c, m⟩ = _ := foldl_pass_skipBlank hq
    _ = _ := foldl_pass_readText ht
    _ = _ := foldl_pass_skipBlank hb
    _ = _ := foldl_pass_plain (by decide)

end SyntaxDrawing.Json

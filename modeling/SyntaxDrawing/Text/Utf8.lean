/-!
# UTF-8

Byte lists are read as UTF-8 from the front. `headOf` says what stands at the front of a byte list:
a character, bytes that begin none, or a character that the end of the list cuts off. From it come
the first fault of a byte list and the text in which every fault is shown as U+FFFD.
-/

namespace SyntaxDrawing.Text.Utf8

/-- How many continuation bytes a lead byte asks for, and the bounds of the first of them. -/
def shape (lead : UInt8) : Option (Nat × UInt8 × UInt8) :=
  if lead < 0x80 then some (0, 0x80, 0xbf)
  else if lead < 0xc2 then none
  else if lead < 0xe0 then some (1, 0x80, 0xbf)
  else if lead = 0xe0 then some (2, 0xa0, 0xbf)
  else if lead = 0xed then some (2, 0x80, 0x9f)
  else if lead < 0xf0 then some (2, 0x80, 0xbf)
  else if lead = 0xf0 then some (3, 0x90, 0xbf)
  else if lead < 0xf4 then some (3, 0x80, 0xbf)
  else if lead = 0xf4 then some (3, 0x80, 0x8f)
  else none

/-- What stands at the front of a byte list that is not empty; `size` counts its bytes. -/
inductive Head
  | char (size : Nat)
  | broken (size : Nat)
  | cut
  deriving DecidableEq

/-- Follows `count` continuation bytes, the first of them between `low` and `high`, after `size`
bytes that have been accepted. -/
def follow : (count : Nat) → (low high : UInt8) → (size : Nat) → List UInt8 → Head
  | 0, _, _, size, _ => .char size
  | _ + 1, _, _, _, [] => .cut
  | count + 1, low, high, size, b :: rest =>
    if low ≤ b ∧ b ≤ high then follow count 0x80 0xbf (size + 1) rest else .broken size

def headOf (lead : UInt8) (rest : List UInt8) : Head :=
  match shape lead with
  | none => .broken 1
  | some (count, low, high) => follow count low high 1 rest

/-- Where a byte list stops being UTF-8: after `offset` bytes, either by `size` bytes that begin no
character or, if `size` is missing, by its end. -/
structure Fault where
  offset : Nat
  size : Option Nat
  deriving DecidableEq

/-- Walks over the list; the first argument counts bytes that belong to a character already seen. -/
def faultFrom : (skip offset : Nat) → List UInt8 → Option Fault
  | _, _, [] => none
  | skip + 1, offset, _ :: rest => faultFrom skip (offset + 1) rest
  | 0, offset, b :: rest =>
    match headOf b rest with
    | .char size => faultFrom (size - 1) (offset + 1) rest
    | .broken size => some ⟨offset, some size⟩
    | .cut => some ⟨offset, none⟩

def fault? (bytes : List UInt8) : Option Fault :=
  faultFrom 0 0 bytes

def validLength (bytes : List UInt8) : Nat :=
  match fault? bytes with
  | none => bytes.length
  | some f => f.offset

def Fault.message (f : Fault) : String :=
  match f.size with
  | some size => s!"invalid utf-8 sequence of {size} bytes from index {f.offset}"
  | none => s!"incomplete utf-8 byte sequence from index {f.offset}"

def decode? (bytes : List UInt8) : Option String :=
  String.fromUTF8? ⟨bytes.toArray⟩

def encode (s : String) : List UInt8 :=
  s.toByteArray.data.toList

@[simp] theorem decode?_encode (s : String) : decode? (encode s) = some s := by
  have h : (⟨(encode s).toArray⟩ : ByteArray) = s.toByteArray := by simp [encode]
  rw [decode?, h, String.fromUTF8?]
  simp [s.isValidUTF8, String.fromUTF8]

theorem encode_of_decode? {bytes : List UInt8} {s : String} (h : decode? bytes = some s) :
    encode s = bytes := by
  unfold decode? String.fromUTF8? at h
  split at h
  · cases h
    rfl
  · cases h

def charOf : List UInt8 → Char
  | [a] => Char.ofNat a.toNat
  | [a, b] => Char.ofNat ((a.toNat % 32) * 64 + b.toNat % 64)
  | [a, b, c] => Char.ofNat (((a.toNat % 16) * 64 + b.toNat % 64) * 64 + c.toNat % 64)
  | [a, b, c, d] =>
    Char.ofNat ((((a.toNat % 8) * 64 + b.toNat % 64) * 64 + c.toNat % 64) * 64 + d.toNat % 64)
  | _ => '\ufffd'

/-- Characters in order, one U+FFFD for each fault; `skip` as in `faultFrom`. -/
def lossyFrom : (skip : Nat) → List UInt8 → List Char
  | _, [] => []
  | skip + 1, _ :: rest => lossyFrom skip rest
  | 0, b :: rest =>
    match headOf b rest with
    | .char size => charOf (b :: rest.take (size - 1)) :: lossyFrom (size - 1) rest
    | .broken size => '\ufffd' :: lossyFrom (size - 1) rest
    | .cut => ['\ufffd']

/-- The text of a byte list in which each fault is shown as U+FFFD. -/
def decodeLossy (bytes : List UInt8) : String :=
  String.ofList (lossyFrom 0 bytes)

end SyntaxDrawing.Text.Utf8

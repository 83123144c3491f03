import ShaderRepair.Text

/-!
# Runes

Columns count runes. Reading is total: a byte that begins no valid UTF-8 encoding (a stray tail
byte, an overlong form, a surrogate, a value above U+10FFFF, a sequence cut short) is a rune of its
own, one byte wide. This file contains:
- `Rune.first`, one step of reading;
- `Text.runes`, reading a whole text;
- `Rune.ofCode`, the encoding of a scalar value.
-/

namespace ShaderRepair

/-- One unit of a text read as UTF-8. -/
inductive Rune where
  | scalar (code : Nat)
  | invalid (byte : UInt8)
  deriving DecidableEq, Repr

namespace Rune

/-- The code point shown for a rune; an invalid byte shows as the replacement character. -/
def code : Rune → Nat
  | .scalar code => code
  | .invalid _ => 0xFFFD

/-- How many bytes the rune takes. -/
def width : Rune → Nat
  | .scalar code =>
    if code < 0x80 then 1 else if code < 0x800 then 2 else if code < 0x10000 then 3 else 4
  | .invalid _ => 1

def isTail (b : UInt8) : Bool :=
  0x80 ≤ b && b ≤ 0xBF

/-- The second bytes that may follow a lead byte: most leads take any tail, four of them take fewer,
which rules out overlong forms, surrogates and values above U+10FFFF. -/
def isSecond (lead b : UInt8) : Bool :=
  if lead = 0xE0 then 0xA0 ≤ b && b ≤ 0xBF
  else if lead = 0xED then 0x80 ≤ b && b ≤ 0x9F
  else if lead = 0xF0 then 0x90 ≤ b && b ≤ 0xBF
  else if lead = 0xF4 then 0x80 ≤ b && b ≤ 0x8F
  else isTail b

/-- The six bits that a tail byte carries. -/
def tailBits (b : UInt8) : Nat :=
  b.toNat % 64

/-- The rune at the front of the text `b :: rest`. -/
def first (b : UInt8) (rest : Text) : Rune :=
  if b < 0x80 then
    .scalar b.toNat
  else if b < 0xC2 then
    .invalid b
  else if b < 0xE0 then
    match rest with
    | c :: _ => if isTail c then .scalar (b.toNat % 32 * 64 + tailBits c) else .invalid b
    | [] => .invalid b
  else if b < 0xF0 then
    match rest with
    | c :: d :: _ =>
      if isSecond b c && isTail d then
        .scalar ((b.toNat % 16 * 64 + tailBits c) * 64 + tailBits d)
      else .invalid b
    | _ => .invalid b
  else if b < 0xF5 then
    match rest with
    | c :: d :: e :: _ =>
      if isSecond b c && isTail d && isTail e then
        .scalar (((b.toNat % 8 * 64 + tailBits c) * 64 + tailBits d) * 64 + tailBits e)
      else .invalid b
    | _ => .invalid b
  else
    .invalid b

/-- The UTF-8 bytes of a rune. -/
def bytes : Rune → Text
  | .invalid byte => [byte]
  | .scalar code =>
    if code < 0x80 then
      [code.toUInt8]
    else if code < 0x800 then
      [(0xC0 + code / 64).toUInt8, (0x80 + code % 64).toUInt8]
    else if code < 0x10000 then
      [(0xE0 + code / 4096).toUInt8, (0x80 + code / 64 % 64).toUInt8, (0x80 + code % 64).toUInt8]
    else
      [(0xF0 + code / 262144).toUInt8, (0x80 + code / 4096 % 64).toUInt8,
        (0x80 + code / 64 % 64).toUInt8, (0x80 + code % 64).toUInt8]

end Rune

namespace Text

/-- Reads runes after skipping the `pending` bytes that a rune already read still covers. -/
def runesAfter : Nat → Text → List Rune
  | _, [] => []
  | pending + 1, _ :: s => runesAfter pending s
  | 0, b :: s =>
    let r := Rune.first b s
    r :: runesAfter (r.width - 1) s

/-- A text read as UTF-8. -/
def runes (s : Text) : List Rune :=
  runesAfter 0 s

end Text

end ShaderRepair

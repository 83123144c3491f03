import ShaderRepair.Text.Printable

/-!
# Quoted text

How diagnostics quote a text: between double quotes, printable runes as themselves, the rest as
escapes that name the rune. An invalid byte is shown by its two hexadecimal digits.
-/

namespace ShaderRepair

namespace Text

/-- Lower-case hexadecimal digits of `n`, at least `width` of them. -/
def hex (width n : Nat) : Text :=
  let digits := (Nat.toDigits 16 n).map fun c => c.toNat.toUInt8
  List.replicate (width - digits.length) 48 ++ digits

/-- The single-letter escapes, by code point. -/
def letterEscape? : Nat → Option Text
  | 0x07 => some (ascii "\\a")
  | 0x08 => some (ascii "\\b")
  | 0x09 => some (ascii "\\t")
  | 0x0A => some (ascii "\\n")
  | 0x0B => some (ascii "\\v")
  | 0x0C => some (ascii "\\f")
  | 0x0D => some (ascii "\\r")
  | 0x22 => some (ascii "\\\"")
  | 0x5C => some (ascii "\\\\")
  | _ => none

/-- One rune inside quotes. -/
def quoteRune : Rune → Text
  | .invalid byte => ascii "\\x" ++ hex 2 byte.toNat
  | .scalar code =>
    match letterEscape? code with
    | some escape => escape
    | none =>
      if Rune.isPrintableCode code then (Rune.scalar code).bytes
      else if code < 0x80 then ascii "\\x" ++ hex 2 code
      else if code < 0x10000 then ascii "\\u" ++ hex 4 code
      else ascii "\\U" ++ hex 8 code

/-- A text as diagnostics quote it. -/
def quoted (s : Text) : Text :=
  ascii "\"" ++ s.runes.flatMap quoteRune ++ ascii "\""

end Text

end ShaderRepair

/-!
# Text

Shader source is whatever bytes a file holds, so text is a list of bytes throughout the library:
offsets count bytes, and nothing assumes valid UTF-8. This file contains:
- the bytes of ASCII literals and of decimal numbers;
- lines: splitting at line feeds, and dropping the carriage return that may end a line;
- searching for a short pattern.
-/

namespace ShaderRepair

/-- Source text, and everything that is printed: a sequence of bytes. -/
abbrev Text := List UInt8

namespace Text

/-- The bytes of a literal. Literals in this library are ASCII, one byte a character. -/
def ascii (s : String) : Text :=
  s.toList.map fun c => c.toNat.toUInt8

/-- Line feed. -/
abbrev lineFeed : UInt8 := 10

/-- Carriage return. -/
abbrev carriageReturn : UInt8 := 13

/-! ## Decimal numbers -/

def ofNat (n : Nat) : Text :=
  (Nat.toDigits 10 n).map fun c => c.toNat.toUInt8

def ofInt : Int → Text
  | .ofNat n => ofNat n
  | .negSucc n => ascii "-" ++ ofNat (n + 1)

/-- Fills up with spaces on the left; a text that is wider already stays as it is. -/
def padLeft (width : Nat) (s : Text) : Text :=
  List.replicate (width - s.length) 32 ++ s

/-! ## Lines -/

/-- The pieces between separators. There is one more of them than there are separators, so the empty
text has one empty piece. -/
def split (separator : UInt8) : Text → List Text
  | [] => [[]]
  | b :: s =>
    if b = separator then
      [] :: split separator s
    else
      match split separator s with
      | [] => [[b]]
      | piece :: more => (b :: piece) :: more

/-- The pieces between line feeds. -/
def lines (s : Text) : List Text :=
  split lineFeed s

/-- Drops one final occurrence of a byte. -/
def dropFinal (b : UInt8) (s : Text) : Text :=
  if s.getLast? = some b then s.dropLast else s

/-- A line as it is shown: without the carriage return of a two-byte line break. -/
def chomp (line : Text) : Text :=
  dropFinal carriageReturn line

/-- How many bytes precede the first occurrence of `pattern`, if there is one. -/
def find? (pattern : Text) : Text → Option Nat
  | [] => if pattern.isEmpty then some 0 else none
  | b :: s =>
    if pattern.isPrefixOf (b :: s) then some 0 else (find? pattern s).map (· + 1)

/-! ## Joining -/

/-- Pieces with a separator between neighbours. -/
def join (separator : Text) : List Text → Text
  | [] => []
  | [s] => s
  | s :: more => s ++ separator ++ join separator more

end Text

end ShaderRepair

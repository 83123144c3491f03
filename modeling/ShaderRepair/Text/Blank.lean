import ShaderRepair.Text.Rune

/-!
# Blank runes

The white space of Unicode: the ASCII controls from tab to carriage return, the space, next line,
and the space, line and paragraph separators.
-/

namespace ShaderRepair

namespace Rune

def isBlankCode (code : Nat) : Bool :=
  (0x09 ≤ code && code ≤ 0x0D) || code == 0x20 || code == 0x85 || code == 0xA0 ||
    code == 0x1680 || (0x2000 ≤ code && code ≤ 0x200A) || code == 0x2028 || code == 0x2029 ||
    code == 0x202F || code == 0x205F || code == 0x3000

def isBlank (r : Rune) : Bool :=
  isBlankCode r.code

end Rune

namespace Text

/-- How many bytes the leading blank runes take, counting after `pending` bytes that are known to be
blank. A line feed ends the run. -/
def blankAfter : Nat → Text → Nat
  | _, [] => 0
  | pending + 1, _ :: s => blankAfter pending s + 1
  | 0, b :: s =>
    let r := Rune.first b s
    if b ≠ lineFeed && r.isBlank then blankAfter (r.width - 1) s + 1 else 0

/-- The length of the leading run of blanks on one line. -/
def blankRun (s : Text) : Nat :=
  blankAfter 0 s

/-- A text without the blank runes at its two ends. -/
def strip (s : Text) : Text :=
  let inner := s.runes.dropWhile Rune.isBlank
  ((inner.reverse.dropWhile Rune.isBlank).reverse.map Rune.bytes).flatten

end Text

end ShaderRepair

import ShaderRepair.Text

/-!
# Number literals

How far a number literal reaches from the front of a text. With `D` for a decimal and `H` for a
hexadecimal digit the four forms are

- integer: `0x H+` or `D+`;
- unsigned: an integer, then `u`;
- float: `D+ . D*` or `. D+`, each with or without an exponent, or `D+` with an exponent; then
  perhaps `f`;
- double: the same, then `lf`.

An exponent is `e`, perhaps a sign, and `D+`. Letters may be upper or lower case, but `lf` not
mixed. Each function answers with the length of the longest such front part, and 0 if there is none.
-/

namespace ShaderRepair

namespace Number

/-- The byte of an ASCII character. -/
def byte (c : Char) : UInt8 :=
  c.toNat.toUInt8

def isDigit (b : UInt8) : Bool :=
  byte '0' ≤ b && b ≤ byte '9'

def isHexDigit (b : UInt8) : Bool :=
  isDigit b || (byte 'a' ≤ b && b ≤ byte 'f') || (byte 'A' ≤ b && b ≤ byte 'F')

/-- The length of the leading run of bytes of a class. -/
def run (member : UInt8 → Bool) (s : Text) : Nat :=
  (s.takeWhile member).length

/-- Whether the text goes on with one of two bytes. -/
def startsWith (a b : Char) (s : Text) : Bool :=
  match s with
  | [] => false
  | c :: _ => c = byte a || c = byte b

/-- Octal numbers are runs of digits too. -/
def integer (s : Text) : Nat :=
  if s.take 1 = [byte '0'] && startsWith 'x' 'X' (s.drop 1) && run isHexDigit (s.drop 2) > 0 then
    run isHexDigit (s.drop 2) + 2
  else
    run isDigit s

def unsigned (s : Text) : Nat :=
  let n := integer s
  if n > 0 && startsWith 'u' 'U' (s.drop n) then n + 1 else 0

/-- An exponent with no digits is none at all. -/
def exponent (s : Text) : Nat :=
  if startsWith 'e' 'E' s then
    let sign := if startsWith '+' '-' (s.drop 1) then 1 else 0
    let digits := run isDigit (s.drop (1 + sign))
    if digits = 0 then 0 else 1 + sign + digits
  else 0

/-- A float without its ending. -/
def body (s : Text) : Nat :=
  let whole := run isDigit s
  if startsWith '.' '.' (s.drop whole) then
    let fraction := run isDigit (s.drop (whole + 1))
    if whole = 0 && fraction = 0 then 0
    else
      let n := whole + 1 + fraction
      n + exponent (s.drop n)
  else
    let e := exponent (s.drop whole)
    if whole = 0 || e = 0 then 0 else whole + e

def float (s : Text) : Nat :=
  let n := body s
  if n > 0 && startsWith 'f' 'F' (s.drop n) then n + 1 else n

def double (s : Text) : Nat :=
  let n := body s
  if n > 0 && ((Text.ascii "lf").isPrefixOf (s.drop n) || (Text.ascii "LF").isPrefixOf (s.drop n))
  then n + 2 else 0

end Number

end ShaderRepair

import ShaderRepair.Text.Blank
import ShaderRepair.Token.Lexicon
import ShaderRepair.Token.Number

/-!
# Token patterns

A pattern says how far a token of its kind reaches from the front of a text, 0 meaning that there is
none, and which tags its lexeme carries. This file contains:
- the reach of white space, line breaks, comments, directives, words and operators;
- `Pattern.list`, all patterns in the order that settles ties;
- `Pattern.longest`, the choice among them.
-/

namespace ShaderRepair

namespace Reach

/-! ## White space, comments, directives -/

/-- A run of line breaks, each a line feed with or without a carriage return before it. -/
def lineBreaks : Text → Nat
  | 10 :: s => lineBreaks s + 1
  | 13 :: 10 :: s => lineBreaks s + 2
  | _ => 0

/-- A run of blanks on one line. A carriage return before a line feed belongs to the line break. -/
def blanks (s : Text) : Nat :=
  let n := s.blankRun
  if n > 0 && [Text.carriageReturn, Text.lineFeed].isPrefixOf (s.drop (n - 1)) then n - 1 else n

/-- A line comment, up to the line break or the end of the text. -/
def lineComment (s : Text) : Nat :=
  let line := s.takeWhile (· ≠ Text.lineFeed)
  if line.length = s.length then s.length else (Text.chomp line).length

/-- A block comment; one that is not closed takes the rest of the text. -/
def blockComment (s : Text) : Nat :=
  match Text.find? (Text.ascii "*/") (s.drop 2) with
  | some n => n + 4
  | none => s.length

def comment (s : Text) : Nat :=
  if (Text.ascii "//").isPrefixOf s then lineComment s
  else if (Text.ascii "/*").isPrefixOf s then blockComment s
  else 0

/-- How far a directive goes through the given lines: a backslash at the end of a line carries it on
to the next one. The line break that ends it is not part of it. -/
def directiveLines : List Text → Nat
  | [] => 0
  | [line] => line.length
  | line :: more =>
    if (Text.chomp line).getLast? = some (Number.byte '\\') then
      line.length + 1 + directiveLines more
    else
      (Text.chomp line).length

def directive (s : Text) : Nat :=
  if (Text.ascii "#").isPrefixOf s then directiveLines (Text.lines s) else 0

/-! ## Words and operators -/

def isWordStart (b : UInt8) : Bool :=
  b = Number.byte '_' || (Number.byte 'a' ≤ b && b ≤ Number.byte 'z') ||
    (Number.byte 'A' ≤ b && b ≤ Number.byte 'Z')

def isWordByte (b : UInt8) : Bool :=
  isWordStart b || Number.isDigit b

/-- A word: a letter or an underscore, then letters, digits and underscores. -/
def word : Text → Nat
  | [] => 0
  | b :: s => if isWordStart b then Number.run isWordByte s + 1 else 0

/-- One given word, and not a longer one that starts with it. -/
def exactWord (w : Text) (s : Text) : Nat :=
  if word s = w.length && w.isPrefixOf s then w.length else 0

/-- Any word of a table. -/
def wordOf {α : Type} (table : Lexicon.Table α) (s : Text) : Nat :=
  let n := word s
  if n > 0 && (table.find (s.take n)).isSome then n else 0

/-- One given piece of punctuation. -/
def exact (w : Text) (s : Text) : Nat :=
  if w.isPrefixOf s then w.length else 0

/-- The longest operator; none is longer than three bytes. -/
def operator (s : Text) : Nat :=
  match [3, 2, 1].find? fun n => (Lexicon.operators.find (s.take n)).isSome with
  | some n => (s.take n).length
  | none => 0

end Reach

/-! ## Patterns -/

/-- A token class: the kind, the reach at the front of a text, and the tags of a lexeme. -/
structure Pattern where
  kind : Kind
  reach : Text → Nat
  tags : Text → Tags

namespace Pattern

/-- A pattern whose tokens carry no tags. -/
def plain (kind : Kind) (reach : Text → Nat) : Pattern :=
  ⟨kind, reach, fun _ => Tags.none⟩

def literal (kind : LiteralKind) (reach : Text → Nat) : Pattern :=
  ⟨.literal, reach, fun _ => ⟨Roles.none, kind, .none⟩⟩

def qualifier : Pattern :=
  ⟨.qualifier, Reach.wordOf Lexicon.qualifiers, fun w =>
    ⟨Roles.none, .none, (Lexicon.qualifiers.find w).getD .none⟩⟩

def operator : Pattern :=
  ⟨.operator, Reach.operator, fun w =>
    ⟨(Lexicon.operators.find w).getD Roles.none, .none, .none⟩⟩

def punctuation : List Pattern :=
  [Kind.colon, .semicolon, .comma, .dot, .leftParen, .rightParen, .leftBrace, .rightBrace,
    .leftBracket, .rightBracket].map fun k => plain k (Reach.exact k.name)

/-- All patterns for a given list of keywords. Where two reach equally far the earlier one is
meant, so that keywords come before identifiers. -/
def listWith (keywords : Lexicon.Table Kind) : List Pattern :=
  [plain .directive Reach.directive,
    plain .comment Reach.comment,
    plain .lineBreak Reach.lineBreaks,
    plain .blank Reach.blanks,
    literal .double Number.double,
    literal .float Number.float,
    literal .uint Number.unsigned,
    literal .int Number.integer,
    literal .bool (Reach.exactWord (Text.ascii "true")),
    literal .bool (Reach.exactWord (Text.ascii "false")),
    qualifier] ++
  (keywords.map fun (w, k) => plain k (Reach.exactWord w)) ++
  [plain .identifier Reach.word] ++ punctuation ++ [operator]

/-- All patterns. -/
def list : List Pattern :=
  listWith Lexicon.keywords

/-- The pattern that reaches farthest, the earliest one if several do, with its reach. -/
def longest (s : Text) : List Pattern → Option (Pattern × Nat)
  | [] => none
  | p :: more =>
    let n := p.reach s
    match longest s more with
    | some (q, m) => if m ≤ n then some (p, n) else some (q, m)
    | none => if 0 < n then some (p, n) else none

end Pattern

end ShaderRepair

import ShaderRepair.Token.Pattern

/-!
# Lexing

Cutting a text into tokens. Every text has tokens: where no pattern applies, one rune becomes an
error token. Nothing is lost: the lexemes, in order, are the text.
-/

namespace ShaderRepair

namespace Lexer

/-- The token at the front of the non-empty text `b :: s`. -/
def front (patterns : List Pattern) (p : Position) (b : UInt8) (s : Text) : Token :=
  match Pattern.longest (b :: s) patterns with
  | some (pattern, n) =>
    let lexeme := (b :: s).take n
    ⟨pattern.kind, lexeme, p, p.advance lexeme, pattern.tags lexeme⟩
  | none =>
    let lexeme := (b :: s).take (Rune.first b s).width
    ⟨.error, lexeme, p, p.advance lexeme, Tags.none⟩

/-- The tokens of a text that starts at `p`, after skipping the `pending` bytes that the last token
still covers. -/
def tokensAfter (patterns : List Pattern) : Nat → Position → Text → List Token
  | _, p, [] => [Token.endAt p]
  | pending + 1, p, _ :: s => tokensAfter patterns pending p s
  | 0, p, b :: s =>
    let t := front patterns p b s
    t :: tokensAfter patterns (t.lexeme.length - 1) t.stop s

/-- All tokens under a given list of patterns. -/
def tokensWith (patterns : List Pattern) (source : Text) : List Token :=
  tokensAfter patterns 0 Position.start source

/-- All tokens of a source, white space, comments and directives among them; the last one marks the
end of input. -/
def tokens (source : Text) : List Token :=
  tokensWith Pattern.list source

/-- The tokens of a source, with or without the ignored ones. -/
def lex (source : Text) (keepIgnored : Bool) : List Token :=
  if keepIgnored then tokens source else (tokens source).filter fun t => !t.isIgnored

/-- What a lexer answers when it is asked again and again: each time there is one more end of input
after the tokens. -/
def lexAgain (source : Text) (keepIgnored : Bool) (times : Nat) : List (List Token) :=
  let once := lex source keepIgnored
  (List.range times).map fun k =>
    once ++ List.replicate k (Token.endAt (Position.start.advance source))

end Lexer

end ShaderRepair

import ShaderRepair.Position
import ShaderRepair.Text.Quoted
import ShaderRepair.ValueType

/-!
# Tokens

A token is a piece of source with a kind, its place, and what the words tables know about it: the
roles an operator can play, the kind of a literal, the class of a qualifier. This file contains:
- `Kind`, `Role`, `LiteralKind` and `QualifierClass` with their names and numbers;
- `Token`, its classes, and its description in diagnostics.
-/

namespace ShaderRepair

/-! ## Kinds -/

/-- The kind of a token. Kinds are numbered; a number without a meaning is kept as it is. -/
inductive Kind where
  | endOfInput
  | error
  | directive
  | comment
  | blank
  | lineBreak
  | precision
  | struct
  | layout
  | qualifier
  | if
  | else
  | for
  | while
  | do
  | break
  | continue
  | switch
  | case
  | default
  | return
  | discard
  | literal
  | identifier
  | colon
  | semicolon
  | comma
  | dot
  | leftParen
  | rightParen
  | leftBrace
  | rightBrace
  | leftBracket
  | rightBracket
  | operator
  | unknown (code : Nat)
  deriving DecidableEq, Repr

namespace Kind

/-- The kinds that have a meaning, in the order of their numbers. -/
def all : List Kind :=
  [.endOfInput, .error, .directive, .comment, .blank, .lineBreak, .precision, .struct, .layout,
    .qualifier, .if, .else, .for, .while, .do, .break, .continue, .switch, .case, .default,
    .return, .discard, .literal, .identifier, .colon, .semicolon, .comma, .dot, .leftParen,
    .rightParen, .leftBrace, .rightBrace, .leftBracket, .rightBracket, .operator]

def ofCode (code : Nat) : Kind :=
  all.getD code (.unknown code)

def name : Kind → Text
  | .endOfInput => Text.ascii "EOF"
  | .error => Text.ascii "Error"
  | .directive => Text.ascii "Preprocessor"
  | .comment => Text.ascii "Comment"
  | .blank => Text.ascii "Whitespace"
  | .lineBreak => Text.ascii "Newline"
  | .precision => Text.ascii "precision"
  | .struct => Text.ascii "struct"
  | .layout => Text.ascii "layout"
  | .qualifier => Text.ascii "Qualifier"
  | .if => Text.ascii "if"
  | .else => Text.ascii "else"
  | .for => Text.ascii "for"
  | .while => Text.ascii "while"
  | .do => Text.ascii "do"
  | .break => Text.ascii "break"
  | .continue => Text.ascii "continue"
  | .switch => Text.ascii "switch"
  | .case => Text.ascii "case"
  | .default => Text.ascii "default"
  | .return => Text.ascii "return"
  | .discard => Text.ascii "discard"
  | .literal => Text.ascii "Literal"
  | .identifier => Text.ascii "Identifier"
  | .colon => Text.ascii ":"
  | .semicolon => Text.ascii ";"
  | .comma => Text.ascii ","
  | .dot => Text.ascii "."
  | .leftParen => Text.ascii "("
  | .rightParen => Text.ascii ")"
  | .leftBrace => Text.ascii "\x7b"
  | .rightBrace => Text.ascii "\x7d"
  | .leftBracket => Text.ascii "["
  | .rightBracket => Text.ascii "]"
  | .operator => Text.ascii "Operator"
  | .unknown _ => Text.ascii "Unknown"

/-- White space, comments and directives, which the grammar never sees. -/
def isIgnored : Kind → Bool
  | .blank | .comment | .directive => true
  | _ => false

/-- Kinds the grammar is about: neither ignored nor a line break. -/
def isSignificant (k : Kind) : Bool :=
  !k.isIgnored && k != .lineBreak

def isPunctuation : Kind → Bool
  | .colon | .semicolon | .comma | .dot | .leftParen | .rightParen | .leftBrace | .rightBrace
  | .leftBracket | .rightBracket => true
  | _ => false

end Kind

/-! ## Operator roles -/

/-- A syntactic role of an operator. -/
inductive Role where
  | unary
  | trailing
  | multiplicative
  | additive
  | shift
  | relational
  | equality
  | bitAnd
  | bitXor
  | bitOr
  | logicalAnd
  | logicalXor
  | logicalOr
  | conditional
  | assignment
  deriving DecidableEq, Repr

namespace Role

def all : List Role :=
  [.unary, .trailing, .multiplicative, .additive, .shift, .relational, .equality, .bitAnd, .bitXor,
    .bitOr, .logicalAnd, .logicalXor, .logicalOr, .conditional, .assignment]

/-- The place of the role in a set of roles. -/
def bit : Role → UInt16
  | .unary => 1
  | .trailing => 2
  | .multiplicative => 4
  | .additive => 8
  | .shift => 16
  | .relational => 32
  | .equality => 64
  | .bitAnd => 128
  | .bitXor => 256
  | .bitOr => 512
  | .logicalAnd => 1024
  | .logicalXor => 2048
  | .logicalOr => 4096
  | .conditional => 8192
  | .assignment => 16384

def name : Role → Text
  | .unary => Text.ascii "unary"
  | .trailing => Text.ascii "postfix"
  | .multiplicative => Text.ascii "multiplicative"
  | .additive => Text.ascii "additive"
  | .shift => Text.ascii "shift"
  | .relational => Text.ascii "relational"
  | .equality => Text.ascii "equality"
  | .bitAnd => Text.ascii "bit-and"
  | .bitXor => Text.ascii "bit-xor"
  | .bitOr => Text.ascii "bit-or"
  | .logicalAnd => Text.ascii "logical-and"
  | .logicalXor => Text.ascii "logical-xor"
  | .logicalOr => Text.ascii "logical-or"
  | .conditional => Text.ascii "conditional"
  | .assignment => Text.ascii "assignment"

end Role

/-- A set of roles: a minus sign is both unary and additive. -/
structure Roles where
  bits : UInt16
  deriving DecidableEq, Repr

namespace Roles

def none : Roles :=
  ⟨0⟩

def of (roles : List Role) : Roles :=
  ⟨roles.foldl (fun bits r => bits ||| r.bit) 0⟩

/-- Whether two sets share a role. -/
def meets (a b : Roles) : Bool :=
  a.bits &&& b.bits != 0

def has (a : Roles) (r : Role) : Bool :=
  a.meets ⟨r.bit⟩

def name (a : Roles) : Text :=
  Text.join (Text.ascii "|") ((Role.all.filter a.has).map Role.name)

end Roles

/-! ## Literals and qualifiers -/

inductive LiteralKind where
  | none
  | bool
  | int
  | uint
  | float
  | double
  | unknown (code : Nat)
  deriving DecidableEq, Repr

namespace LiteralKind

def all : List LiteralKind :=
  [.none, .bool, .int, .uint, .float, .double]

def ofCode (code : Nat) : LiteralKind :=
  all.getD code (.unknown code)

def name : LiteralKind → Text
  | .none => Text.ascii "none"
  | .bool => Text.ascii "bool"
  | .int => Text.ascii "int"
  | .uint => Text.ascii "uint"
  | .float => Text.ascii "float"
  | .double => Text.ascii "double"
  | .unknown _ => Text.ascii "none"

def type : LiteralKind → ValueType
  | .none => .error
  | .bool => .scalar .bool
  | .int => .scalar .int
  | .uint => .scalar .uint
  | .float => .scalar .float
  | .double => .scalar .double
  | .unknown _ => .error

end LiteralKind

/-- A declaration keeps one qualifier of each class. A number without a meaning is a class of its
own. -/
inductive QualifierClass where
  | none
  | storage
  | auxiliary
  | interpolation
  | precision
  | variance
  | precise
  | memory
  | unknown (code : Nat)
  deriving DecidableEq, Repr

namespace QualifierClass

def all : List QualifierClass :=
  [.none, .storage, .auxiliary, .interpolation, .precision, .variance, .precise, .memory]

def ofCode (code : Nat) : QualifierClass :=
  all.getD code (.unknown code)

def name : QualifierClass → Text
  | .none => Text.ascii "none"
  | .storage => Text.ascii "storage"
  | .auxiliary => Text.ascii "auxiliary"
  | .interpolation => Text.ascii "interpolation"
  | .precision => Text.ascii "precision"
  | .variance => Text.ascii "variance"
  | .precise => Text.ascii "precise"
  | .memory => Text.ascii "memory"
  | .unknown _ => Text.ascii "none"

end QualifierClass

/-! ## Tokens -/

/-- What the word tables say about a lexeme. -/
structure Tags where
  roles : Roles
  literal : LiteralKind
  qualifier : QualifierClass
  deriving DecidableEq, Repr

/-- Most tokens carry no tags. -/
def Tags.none : Tags :=
  ⟨Roles.none, .none, .none⟩

/-- A piece of source. `stop` is the place after the last byte of the lexeme. -/
structure Token where
  kind : Kind
  lexeme : Text
  start : Position
  stop : Position
  tags : Tags
  deriving DecidableEq, Repr

namespace Token

/-- The end of input, at a given place. -/
def endAt (p : Position) : Token :=
  ⟨.endOfInput, [], p, p, Tags.none⟩

def isIgnored (t : Token) : Bool :=
  t.kind.isIgnored

def isSignificant (t : Token) : Bool :=
  t.kind.isSignificant

/-- Whether the token is an operator with one of these roles. -/
def plays (t : Token) (roles : Roles) : Bool :=
  t.kind == .operator && t.tags.roles.meets roles

/-- Whether the token has this kind and, unless `text` is empty, this lexeme. -/
def is (t : Token) (kind : Kind) (text : Text) : Bool :=
  t.kind == kind && (text.isEmpty || t.lexeme == text)

/-- How diagnostics name a token: punctuation and keywords by their lexeme, words and literals with
their kind before it. -/
def describe (t : Token) : Text :=
  match t.kind with
  | .endOfInput => Text.ascii "EOF"
  | .lineBreak => Text.ascii "Newline"
  | .identifier | .literal | .qualifier | .operator | .error =>
    t.kind.name ++ Text.ascii " " ++ Text.quoted t.lexeme
  | _ => Text.quoted t.lexeme

end Token

end ShaderRepair

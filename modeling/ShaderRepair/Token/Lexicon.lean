import ShaderRepair.Token

/-!
# Lexicon

The words and operators of the shading language: qualifiers with their classes, keywords with
their kinds, operators with their roles. Type names are not words of the language: `float` is an
identifier like any other, and the catalog of types gives it its meaning.
-/

namespace ShaderRepair

namespace Lexicon

/-- A table of words. -/
abbrev Table (α : Type) := List (Text × α)

/-- The entry of a word. -/
def Table.find {α : Type} (table : Table α) (word : Text) : Option α :=
  table.lookup word

/-- Entries that share a meaning. -/
def group {α : Type} (meaning : α) (words : List String) : Table α :=
  words.map fun w => (Text.ascii w, meaning)

def qualifiers : Table QualifierClass :=
  group .storage
      ["const", "in", "out", "inout", "attribute", "varying", "uniform", "buffer", "shared"] ++
    group .auxiliary ["centroid", "sample", "patch"] ++
    group .interpolation ["smooth", "flat", "noperspective"] ++
    group .precision ["highp", "mediump", "lowp"] ++
    group .variance ["invariant"] ++
    group .precise ["precise"] ++
    group .memory ["coherent", "volatile", "restrict", "readonly", "writeonly"]

def keywords : Table Kind :=
  [(Text.ascii "precision", .precision), (Text.ascii "struct", .struct),
    (Text.ascii "layout", .layout), (Text.ascii "if", .if), (Text.ascii "else", .else),
    (Text.ascii "for", .for), (Text.ascii "while", .while), (Text.ascii "do", .do),
    (Text.ascii "break", .break), (Text.ascii "continue", .continue),
    (Text.ascii "switch", .switch), (Text.ascii "case", .case), (Text.ascii "default", .default),
    (Text.ascii "return", .return), (Text.ascii "discard", .discard)]

def operators : Table Roles :=
  group (Roles.of [.unary, .trailing]) ["++", "--"] ++
    group (Roles.of [.unary]) ["~", "!"] ++
    group (Roles.of [.multiplicative]) ["*", "/", "%"] ++
    group (Roles.of [.unary, .additive]) ["+", "-"] ++
    group (Roles.of [.shift]) ["<<", ">>"] ++
    group (Roles.of [.relational]) ["<", "<=", ">", ">="] ++
    group (Roles.of [.equality]) ["==", "!="] ++
    group (Roles.of [.bitAnd]) ["&"] ++
    group (Roles.of [.bitXor]) ["^"] ++
    group (Roles.of [.bitOr]) ["|"] ++
    group (Roles.of [.logicalAnd]) ["&&"] ++
    group (Roles.of [.logicalXor]) ["^^"] ++
    group (Roles.of [.logicalOr]) ["||"] ++
    group (Roles.of [.conditional]) ["?"] ++
    group (Roles.of [.assignment])
      ["=", "+=", "-=", "*=", "/=", "%=", "<<=", ">>=", "&=", "^=", "|="]

end Lexicon

end ShaderRepair

import ShaderRepair.Grammar.Symbol
import ShaderRepair.Tree.Node

/-!
# Rules

The rules of the grammar that call each other, and the trees they produce. Words are marked by their
index among the symbols. This file contains:
- `Level`, the ladder of left-associative binary operators;
- `Expectation`, what a rule can ask the next symbol to be;
- `Rule` with the type of its result.
-/

namespace ShaderRepair

/-! ## The operator ladder -/

/-- The levels of binary operators, loosest first. -/
inductive Level where
  | logicalOr
  | logicalXor
  | logicalAnd
  | bitOr
  | bitXor
  | bitAnd
  | equality
  | relational
  | shift
  | additive
  | multiplicative
  deriving DecidableEq, Repr

namespace Level

/-- The next tighter level; the operands of the tightest one are unary expressions. -/
def tighter : Level → Option Level
  | .logicalOr => some .logicalXor
  | .logicalXor => some .logicalAnd
  | .logicalAnd => some .bitOr
  | .bitOr => some .bitXor
  | .bitXor => some .bitAnd
  | .bitAnd => some .equality
  | .equality => some .relational
  | .relational => some .shift
  | .shift => some .additive
  | .additive => some .multiplicative
  | .multiplicative => none

/-- The role that makes an operator one of this level. -/
def role : Level → Role
  | .logicalOr => .logicalOr
  | .logicalXor => .logicalXor
  | .logicalAnd => .logicalAnd
  | .bitOr => .bitOr
  | .bitXor => .bitXor
  | .bitAnd => .bitAnd
  | .equality => .equality
  | .relational => .relational
  | .shift => .shift
  | .additive => .additive
  | .multiplicative => .multiplicative

def family : Level → Family
  | .logicalOr | .logicalXor | .logicalAnd => .logical
  | .bitOr | .bitXor | .bitAnd => .bitwise
  | .equality | .relational => .comparison
  | .shift => .shift
  | .additive | .multiplicative => .arithmetic

end Level

/-! ## Expectations -/

/-- A symbol that is acceptable: any one of a kind, or one with a given lexeme. -/
inductive Expectation where
  | kind (k : Kind)
  | word (k : Kind) (text : Text)
  deriving DecidableEq, Repr

namespace Expectation

def accepts : Expectation → Symbol → Bool
  | .kind k, s => s.kind = k
  | .word k text, s => s.kind = k && s.lexeme = text

/-- How an error message names what it expected; exact texts and punctuation are quoted. -/
def describe : Expectation → Text
  | .kind k => if k.isPunctuation then Text.quoted k.name else k.name
  | .word _ text => Text.quoted text

end Expectation

/-! ## Rules and their results -/

namespace Grammar

/-- An expression whose parts are marked by index. -/
abbrev Tree := Expr (Extent Nat)

/-- A node whose parts are marked by index. -/
abbrev Item := Node Nat Tree

/-- Where a run of items ends: at a closing brace, or at the next label of a switch too. -/
inductive Stop where
  | brace
  | label
  deriving DecidableEq, Repr

/-- Whether a symbol ends a run of items. The end of input always does. -/
def Stop.ends (stop : Stop) (s : Symbol) : Bool :=
  match s.kind with
  | .rightBrace | .endOfInput => true
  | .case | .default => stop = .label
  | _ => false

/-- The rules that call each other. A rule that reads a list calls itself for the rest of it; what
has been read already and is needed later is an argument. -/
inductive Rule where
  /-- A declaration or a statement. -/
  | item
  /-- Items up to a stop. -/
  | items (stop : Stop)
  | statement
  | cases
  /-- Layouts and qualifier keywords, after those that were `found`. -/
  | qualifiers (found : Qualifiers Nat Tree)
  | layoutParams
  /-- Array dimensions. -/
  | dims
  /-- Declared names without initializers. -/
  | declarators
  /-- Declared names of a type with initializers, the first name being read already. -/
  | vars (type : TypeSpec Nat Tree) (name : Name Nat)
  | members
  | params
  /-- Names between commas. -/
  | names
  | expression
  /-- The rest of a sequence, each expression after a comma. -/
  | sequence
  | assignment
  | conditional
  | binary (level : Level)
  /-- The operators of a level behind their left operand. -/
  | binaryRest (level : Level) (left : Tree)
  | unary
  /-- Members, elements, calls and trailing operators of an expression. -/
  | suffixes (object : Tree)
  | arguments
  | primary
  | initializer
  /-- The elements of an initializer list. -/
  | elements

/-- What a rule produces. -/
abbrev Rule.Result : Rule → Type
  | .item => Item
  | .items _ => List Item
  | .statement => Item
  | .cases => List (Case Nat Tree)
  | .qualifiers _ => Qualifiers Nat Tree
  | .layoutParams => List (LayoutParam Nat Tree)
  | .dims => List (Option Tree)
  | .declarators => List (Declarator Nat Tree)
  | .vars _ _ => List (Declarator Nat Tree)
  | .members => List (Member Nat Tree)
  | .params => List (Param Nat Tree)
  | .names => List (Name Nat)
  | .expression => Tree
  | .sequence => List Tree
  | .assignment => Tree
  | .conditional => Tree
  | .binary _ => Tree
  | .binaryRest _ _ => Tree
  | .unary => Tree
  | .suffixes _ => Tree
  | .arguments => List Tree
  | .primary => Tree
  | .initializer => Tree
  | .elements => List Tree

end Grammar

end ShaderRepair

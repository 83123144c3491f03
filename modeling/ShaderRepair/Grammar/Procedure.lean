import ShaderRepair.Grammar.Rule

/-!
# Parsing procedures

The body of a rule is a `Procedure`: a procedure as data, built from a handful of steps. It sees the
symbols ahead, passes them, notes repairs, and calls other rules; it cannot see any place in the
source, any option, or any repair already noted. This file contains:
- `Missing` and `Repair`, what was assumed and where;
- `Procedure`, its steps and their composition;
- the small procedures the grammar is written in.
-/

namespace ShaderRepair

namespace Grammar

/-- What the grammar assumed to be there: a punctuation mark, or a call of a constructor around the
initializer that starts at symbol `first`. -/
inductive Missing where
  | semicolon
  | colon
  | comma
  | leftParen
  | rightParen
  | conversion (type : Text) (first : Nat)
  deriving DecidableEq, Repr

/-- Something missing before the symbol with a given index. -/
structure Repair where
  index : Nat
  missing : Missing
  deriving DecidableEq, Repr

/-- A procedure that reads symbols and produces an `α`. -/
inductive Procedure (α : Type) where
  /-- Ends with a result. -/
  | done (a : α)
  /-- Looks at the next symbol and the one after it. -/
  | look (k : Symbol → Symbol → Procedure α)
  /-- Finds out whether a declaration starts here. -/
  | ahead (k : Bool → Procedure α)
  /-- Finds out the index of the next symbol. -/
  | here (k : Nat → Procedure α)
  /-- Passes the next symbol. -/
  | shift (k : Procedure α)
  /-- Passes all semicolons in a row. -/
  | skipSemicolons (k : Procedure α)
  /-- Notes that something is missing before the next symbol. -/
  | repair (missing : Missing) (k : Procedure α)
  /-- Notes that an expression has been made of the latest ones. -/
  | build (e : Tree) (k : Procedure α)
  /-- Notes that the latest expression has changed its extent. -/
  | widen (e : Tree) (k : Procedure α)
  /-- Gives up at a symbol, in want of one of the expected ones. -/
  | reject (index : Nat) (expected : List Expectation)
  /-- Calls a rule. -/
  | call (r : Rule) (k : r.Result → Procedure α)

namespace Procedure

variable {α β : Type}

/-- One procedure after the other. -/
def bind : Procedure α → (α → Procedure β) → Procedure β
  | .done a, f => f a
  | .look k, f => .look fun s t => (k s t).bind f
  | .ahead k, f => .ahead fun b => (k b).bind f
  | .here k, f => .here fun n => (k n).bind f
  | .shift k, f => .shift (k.bind f)
  | .skipSemicolons k, f => .skipSemicolons (k.bind f)
  | .repair m k, f => .repair m (k.bind f)
  | .build e k, f => .build e (k.bind f)
  | .widen e k, f => .widen e (k.bind f)
  | .reject n expected, _ => .reject n expected
  | .call r k, f => .call r fun a => (k a).bind f

instance : Monad Procedure where
  pure := .done
  bind := bind

/-! ## Small procedures -/

/-- The next symbol. -/
def next : Procedure Symbol :=
  .look fun s _ => .done s

/-- The symbol after the next one. -/
def second : Procedure Symbol :=
  .look fun _ t => .done t

/-- The index of the next symbol. -/
def position : Procedure Nat :=
  .here .done

/-- The index of the symbol passed last. -/
def last : Procedure Nat :=
  .here fun n => .done (n - 1)

/-- From symbol `first` to the one passed last. -/
def extentFrom (first : Nat) : Procedure (Extent Nat) :=
  return ⟨first, ← last⟩

/-- Passes the next symbol, and tells its lexeme and index. -/
def take : Procedure (Name Nat) :=
  .look fun s _ => .here fun n => .shift (.done ⟨s.lexeme, n⟩)

/-- Passes the next symbol if it is acceptable. -/
def accept (e : Expectation) : Procedure Bool :=
  .look fun s _ => if e.accepts s then .shift (.done true) else .done false

/-- Passes the next symbol, which has to be one of the expected ones. -/
def expect (expected : List Expectation) : Procedure (Name Nat) :=
  .look fun s _ =>
    if expected.any fun e => e.accepts s then take else .here fun n => .reject n expected

def run (r : Rule) : Procedure r.Result :=
  .call r .done

def note (missing : Missing) : Procedure Unit :=
  .repair missing (.done ())

/-- Completes an expression that starts with the symbol `first`. -/
def make (first : Nat) (e : Extent Nat → Tree) : Procedure Tree := do
  let tree := e (← extentFrom first)
  .build tree (.done tree)

/-! ## Punctuation that may be missing -/

/-- A mark that is assumed if it is not there. -/
def orMissing (kind : Kind) (missing : Missing) : Procedure Unit := do
  unless ← accept (.kind kind) do
    note missing

def colon : Procedure Unit :=
  orMissing .colon .colon

def comma : Procedure Unit :=
  orMissing .comma .comma

def leftParen : Procedure Unit :=
  orMissing .leftParen .leftParen

def rightParen : Procedure Unit :=
  orMissing .rightParen .rightParen

/-- A single semicolon, as between the clauses of a for statement. -/
def clauseEnd : Procedure Unit :=
  orMissing .semicolon .semicolon

/-- The end of a statement: as many semicolons as there are, and at least one. -/
def statementEnd : Procedure Unit := do
  if (← next).kind = .semicolon then
    .skipSemicolons (.done ())
  else
    note .semicolon

end Procedure

end Grammar

end ShaderRepair

import ShaderRepair.Grammar.Statement

/-!
# Running rules

How a parsing procedure runs on symbols. This file contains:
- `State`, the symbols ahead with what has been noted so far;
- `Outcome`, a result or a rejection, in either case with the state reached;
- `Procedure.exec`, by recursion on the procedure, and `Rule.run`, by recursion on a bound for the
  depth of calls;
- `Grammar.item?`, one item from the front of a state.
-/

namespace ShaderRepair

namespace Grammar

/-! ## States -/

/-- The symbols ahead and how many have been passed; the repairs noted so far; and the expressions
that the item being read has so far, those that are no operands of others. The latest repair and
the latest expression come first. -/
structure State where
  rest : List Symbol
  passed : Nat
  repairs : List Repair
  pending : List Tree

namespace State

def start (symbols : List Symbol) : State :=
  ⟨symbols, 0, [], []⟩

def next (s : State) : Symbol :=
  s.rest.headD Symbol.finish

def second (s : State) : Symbol :=
  s.rest.tail.headD Symbol.finish

/-- Passes the next symbol, whatever it is. The end of input stays. -/
def shift (s : State) : State :=
  match s.rest with
  | [] => s
  | _ :: more => { s with rest := more, passed := s.passed + 1 }

/-- Passes all semicolons in a row. -/
def skipSemicolons (s : State) : State :=
  let run := s.rest.takeWhile fun symbol => symbol.kind = .semicolon
  { s with rest := s.rest.drop run.length, passed := s.passed + run.length }

def repair (s : State) (missing : Missing) : State :=
  { s with repairs := ⟨s.passed, missing⟩ :: s.repairs }

/-- A new expression takes the place of its operands. -/
def build (s : State) (e : Tree) : State :=
  { s with pending := e :: s.pending.drop e.children.length }

/-- The latest expression is replaced. -/
def widen (s : State) (e : Tree) : State :=
  { s with pending := e :: s.pending.drop 1 }

end State

/-! ## Outcomes -/

/-- The symbol that does not fit, by index, and what would have fitted. -/
structure Rejection where
  index : Nat
  expected : List Expectation
  deriving DecidableEq, Repr

inductive Outcome (α : Type) where
  | accepted (a : α) (s : State)
  | rejected (r : Rejection) (s : State)

/-! ## Execution -/

/-- Runs a procedure, given how to run the rules it calls. -/
def Procedure.exec {α : Type} (callee : (r : Rule) → State → Outcome r.Result) :
    Procedure α → State → Outcome α
  | .done a, s => .accepted a s
  | .look k, s => (k s.next s.second).exec callee s
  | .ahead k, s => (k (Symbol.startsDeclaration s.rest)).exec callee s
  | .here k, s => (k s.passed).exec callee s
  | .shift k, s => k.exec callee s.shift
  | .skipSemicolons k, s => k.exec callee s.skipSemicolons
  | .repair missing k, s => k.exec callee (s.repair missing)
  | .build e k, s => k.exec callee (s.build e)
  | .widen e k, s => k.exec callee (s.widen e)
  | .reject index expected, s => .rejected ⟨index, expected⟩ s
  | .call r k, s =>
    match callee r s with
    | .accepted a t => (k a).exec callee t
    | .rejected why t => .rejected why t

/-- The body of each rule. -/
def Rule.body : (r : Rule) → Procedure r.Result
  | .item => Grammar.item
  | .items stop => Grammar.items stop
  | .statement => Grammar.statement
  | .cases => Grammar.cases
  | .qualifiers found => Grammar.qualifiers found
  | .layoutParams => Grammar.layoutParams
  | .dims => Grammar.dims
  | .declarators => Grammar.declarators
  | .vars type name => Grammar.vars type name
  | .members => Grammar.members
  | .params => Grammar.params
  | .names => Grammar.names
  | .expression => Grammar.expression
  | .sequence => Grammar.sequence
  | .assignment => Grammar.assignment
  | .conditional => Grammar.conditional
  | .binary level => Grammar.binary level
  | .binaryRest level left => Grammar.binaryRest level left
  | .unary => Grammar.unary
  | .suffixes object => Grammar.suffixes object
  | .arguments => Grammar.arguments
  | .primary => Grammar.primary
  | .initializer => Grammar.initializer
  | .elements => Grammar.elements

/-- Runs a rule with calls nested at most `depth` deep. Where that is too little the rule rejects
without expecting anything, which no body does. -/
def Rule.run : Nat → (r : Rule) → State → Outcome r.Result
  | 0, _, s => .rejected ⟨s.passed, []⟩ s
  | depth + 1, r, s => r.body.exec (Rule.run depth) s

/-- Fewer than this many calls are nested without passing a symbol. -/
def callsPerSymbol : Nat :=
  32

/-- A depth of calls that suffices for the symbols ahead. -/
def State.depth (s : State) : Nat :=
  (s.rest.length + 1) * callsPerSymbol

/-- Reads one item. -/
def item? (s : State) : Outcome Item :=
  Rule.run s.depth .item s

end Grammar

end ShaderRepair

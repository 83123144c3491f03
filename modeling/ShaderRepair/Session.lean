import ShaderRepair.Correction
import ShaderRepair.Grammar.Run
import ShaderRepair.ParseError
import ShaderRepair.Tree.Numbering

/-!
# Sessions

Parsing a list of tokens, item by item. A session that met an error can go on: it resumes at the
symbol where it stopped and keeps everything it has. This file contains:
- `Session`, with `Session.start`;
- `Session.advance`, which reads items up to the end of input or the first error;
- `Session.parse`, which answers with a report or an error.
-/

namespace ShaderRepair

/-- A node with its tokens. -/
abbrev Declaration := Node Token (Expr (Extent Token))

/-- What has been parsed, and the edits that were needed. -/
structure Report where
  module : Module Token (Expr (Extent Token))
  edits : List Edit
  tally : Tally

/-- A parse under way. The latest piece comes first. -/
structure Session where
  stream : Stream
  options : Options
  /-- The text to quote in errors, empty if it is not known. -/
  source : Text
  state : Grammar.State
  pieces : List (Fragment Nat Grammar.Tree)

namespace Session

def start (tokens : List Token) (options : Options) : Session :=
  let stream := Stream.ofTokens tokens
  ⟨stream, options, [], Grammar.State.start stream.symbols, []⟩

def setSource (s : Session) (source : Text) : Session :=
  { s with source := source }

/-- Adds a piece, which settles the expressions of the item being read. -/
def push (s : Session) (piece : Fragment Nat Grammar.Tree) (state : Grammar.State) : Session :=
  { s with state := { state with pending := [] }, pieces := piece :: s.pieces }

/-- Reads items up to the end of input, at most `count` of them. Where one is rejected, the
expressions it had so far stay as a loose piece. -/
def advance : Nat → Session → Session × Option Grammar.Rejection
  | 0, s => (s, none)
  | count + 1, s =>
    if s.state.rest.isEmpty then (s, none)
    else
      match Grammar.item? s.state with
      | .accepted node t => advance count (s.push (.item node) t)
      | .rejected why t => (s.push (.loose t.pending.reverse) t, some why)

/-- Every item takes at least one symbol. -/
def run (s : Session) : Session × Option Grammar.Rejection :=
  s.advance (s.state.rest.length + 1)

/-! ## Answers -/

/-- What has been parsed so far, with tokens for marks. -/
def module (s : Session) : Module Token (Expr (Extent Token)) :=
  Module.mapWith s.stream.token (Expr.map (Extent.map s.stream.token)) s.pieces.reverse

/-- The corrections found so far, whatever the options. -/
def corrections (s : Session) : List Correction :=
  s.state.repairs.reverse.map (Correction.ofRepair s.stream)

def report (s : Session) : Report :=
  let chosen := Correction.enabled s.options s.corrections
  ⟨s.module, Correction.allEdits chosen, Correction.tally chosen⟩

def error (s : Session) (why : Grammar.Rejection) : ParseError :=
  ⟨why.expected.map Expectation.describe, s.stream.token why.index, s.source⟩

/-- Parses on, and answers with everything so far or with the error that was met. -/
def parse (s : Session) : Except ParseError Report × Session :=
  match s.run with
  | (t, none) => (.ok t.report, t)
  | (t, some why) => (.error (t.error why), t)

end Session

end ShaderRepair

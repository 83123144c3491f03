import ShaderRepair.Document

/-!
# Options select

The grammar cannot see the options, so two parses of the same tokens under different options take
the same way. The options only choose among the corrections that were found. This file contains:
- `Session.setOptions`, and that it commutes with reading items and with parsing;
- `Document.parseTokens_selects`, one list of corrections and one answer for all options.

A parser that reads the options wherever it makes an edit is another matter; `Descent.parse_eq` says
that it answers the same.
-/

namespace ShaderRepair

namespace Session

/-- The same session under other options. -/
def setOptions (s : Session) (o : Options) : Session :=
  { s with options := o }

@[simp] theorem setOptions_state (s : Session) (o : Options) :
    (s.setOptions o).state = s.state := rfl

theorem push_setOptions (s : Session) (o : Options) (piece : Fragment Nat Grammar.Tree)
    (state : Grammar.State) :
    (s.setOptions o).push piece state = (s.push piece state).setOptions o := rfl

/-- Reading items takes the same way under all options. -/
theorem advance_setOptions (count : Nat) (s : Session) (o : Options) :
    (s.setOptions o).advance count = ((s.advance count).1.setOptions o, (s.advance count).2) := by
  induction count generalizing s with
  | zero => rfl
  | succ count ih =>
    cases hr : s.state.rest.isEmpty with
    | true => simp [advance, hr]
    | false =>
      cases hi : Grammar.item? s.state with
      | accepted node t =>
        simp only [advance, setOptions_state, hr, hi, Bool.false_eq_true, if_false]
        rw [push_setOptions]
        exact ih _
      | rejected why t =>
        simp only [advance, setOptions_state, hr, hi, Bool.false_eq_true, if_false]
        rw [push_setOptions]

/-- Nothing changes but the state and the pieces. -/
theorem advance_eq (count : Nat) (s : Session) :
    (s.advance count).1 =
      { s with state := (s.advance count).1.state, pieces := (s.advance count).1.pieces } := by
  induction count generalizing s with
  | zero => rfl
  | succ count ih =>
    rw [advance]
    split
    · rfl
    · split
      · exact ih _
      · rfl

section Run

variable {s t : Session} {why : Option Grammar.Rejection} (h : s.run = (t, why))
include h

/-- A run keeps what it was given, also where it ends with an error. -/
theorem eq_of_run : t = { s with state := t.state, pieces := t.pieces } := by
  have hsame := advance_eq (s.state.rest.length + 1) s
  rwa [show s.advance (s.state.rest.length + 1) = (t, why) from h] at hsame

theorem stream_of_run : t.stream = s.stream := by
  rw [eq_of_run h]

theorem options_of_run : t.options = s.options := by
  rw [eq_of_run h]

theorem source_of_run : t.source = s.source := by
  rw [eq_of_run h]

end Run

/-- What a parse that ended in `t` has found, apart from corrections. -/
def answer (t : Session) (why : Option Grammar.Rejection) :
    Except ParseError (Module Token (Expr (Extent Token))) :=
  match why with
  | none => .ok t.module
  | some why => .error (t.error why)

/-- A parse answers with everything it read and with the corrections that its options ask for. -/
theorem parse_setOptions (s : Session) (o : Options) :
    ((s.setOptions o).parse).1 =
      (s.run.1.answer s.run.2).map fun m =>
        let chosen := Correction.enabled o s.run.1.corrections
        ⟨m, Correction.allEdits chosen, Correction.tally chosen⟩ := by
  have hrun : (s.setOptions o).run = (s.run.1.setOptions o, s.run.2) :=
    advance_setOptions _ s o
  rw [parse, hrun]
  cases s.run.2 with
  | none => rfl
  | some why => rfl

end Session

namespace Document

/-- Options do not influence parsing. For given tokens there is one list of corrections and one
answer: under all options the parse fails with the same error or finds the same module, and its
edits and its tally are those of the corrections, in their order, that the options ask for. -/
theorem parseTokens_selects (tokens : List Token) (source : Text) :
    ∃ (corrections : List Correction)
      (answer : Except ParseError (Module Token (Expr (Extent Token)))),
      ∀ o, parseTokens tokens source o =
        answer.map fun m =>
          let chosen := corrections.filter fun c => o.enables c.category
          ⟨m, Correction.allEdits chosen, Correction.tally chosen⟩ := by
  let s := (Session.start tokens Options.all).setSource source
  refine ⟨s.run.1.corrections, s.run.1.answer s.run.2, ?_⟩
  intro o
  have hparse : parseTokens tokens source o = ((s.setOptions o).parse).1 := rfl
  rw [hparse, Session.parse_setOptions]
  rfl

end Document

end ShaderRepair

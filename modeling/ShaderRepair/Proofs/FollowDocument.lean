import ShaderRepair.Proofs.Depth
import ShaderRepair.Proofs.FollowStatement
import ShaderRepair.Proofs.Options

/-!
# Descents parse what sessions parse

A descent has the options at hand all the way, and it makes each edit or leaves it out where the
grammar notes a repair. This file contains:
- `Descent.Input.declarations_agree`, a run through all items, and `Descent.parse_eq`: a descent
  answers what a session answers;
- `Descent.parse_selects`: under all options it takes the same way, and the options only select
  among the corrections that are there to make.
-/

namespace ShaderRepair

namespace Descent

open Grammar (Item Rejection Rule State item?)

namespace Input

variable {w : Input} {s : State} {p : Descent}

theorem tracks_start (w : Input) :
    w.Tracks (State.start w.stream.symbols) (start w.tokens w.source w.options) where
  tokens := rfl
  source := rfl
  options := rfl
  inside := Cursor.length_ended_pos w.tokens
  ahead := Cursor.seen_ended w.tokens
  finish := Cursor.find?_ended w.tokens
  rest := rfl
  last h := absurd h (Nat.lt_irrefl 0)
  edits := rfl
  tally := rfl

/-- Whether nothing is left. -/
theorem Tracks.run_check_end {α : Type} (h : w.Tracks s p) (m : Bool → Step α) :
    (check .endOfInput >>= m).run.run p = (m s.rest.isEmpty).run.run p := by
  rw [h.run_check]
  cases hrest : s.rest with
  | nil =>
    have hnext : s.next = Symbol.finish := by rw [State.next, hrest]; rfl
    rw [hnext]
    rfl
  | cons x more =>
    have hne := h.faces.kind_ne h.ended (by rw [hrest]; exact List.cons_ne_nil x more)
    rw [State.next, decide_eq_false hne]
    rfl

/-- The depth of calls suffices for all tokens. -/
theorem Tracks.load_lt_depth (h : w.Tracks s p) (r : Rule) : r.load s < p.depth := by
  refine Nat.lt_of_lt_of_le (r.load_lt_depth s) ?_
  rw [State.depth, depth]
  exact Nat.mul_le_mul_right _ (Nat.succ_le_succ h.length_rest_le)

/-! ## All items -/

/-- The step: one item. -/
theorem Tracks.item (h : w.Tracks s p) :
    w.Agrees 0 (Node.map w.token w.tree) (item? s) ((rules p.depth).item.run.run p) := by
  have hrun := (w.followsRules p.depth).item h rfl (Nat.zero_le s.passed)
  rwa [Grammar.exec_run, Rule.run_eq_of_load (Rule.load_lt_depth .item s) (h.load_lt_depth .item)]
    at hrun

/-- What a session ends with when it has read the items `ns`, or stopped at an error. -/
def Ends (w : Input) (s : Session) :
    Session × Option Rejection → Except ParseError (List Declaration) × Descent → Prop
  | (t, none), r =>
    ∃ (ns : List Item) (q : Descent), r = (.ok (ns.map (Node.map w.token w.tree)), q) ∧
      w.Tracks t.state q ∧ t.pieces = (ns.map .item).reverse ++ s.pieces
  | (_, some why), r => ∃ q, r = (.error (w.error why), q)

theorem Ends.cons {s : Session} {n : Item} {t : State} {r : Session × Option Rejection}
    {m : Step (List Declaration)} (h : w.Ends (s.push (.item n) t) r (m.run.run p)) :
    w.Ends s r ((m >>= fun ns => pure (n.map w.token w.tree :: ns)).run.run p) := by
  rw [run_bind]
  obtain ⟨u, _ | why⟩ := r
  · obtain ⟨ns, q, hm, hu, hpieces⟩ := h
    rw [hm]
    refine ⟨n :: ns, q, rfl, hu, ?_⟩
    rw [hpieces]
    simp [Session.push]
  · obtain ⟨q, hm⟩ := h
    rw [hm]
    exact ⟨q, rfl⟩

/-- The run: all items, by induction on the bound for their number. -/
theorem Tracks.declarations {s : Session} (h : w.Tracks s.state p) {count bound : Nat}
    (hcount : s.state.rest.length < count) (hbound : s.state.rest.length ≤ bound) :
    w.Ends s (s.advance count) ((Descent.declarations bound).run.run p) := by
  induction count generalizing s p bound with
  | zero => exact absurd hcount (Nat.not_lt_zero _)
  | succ count ih =>
    cases bound with
    | zero =>
      have hrest : s.state.rest = [] := List.length_eq_zero_iff.1 (Nat.le_zero.1 hbound)
      rw [Session.advance, hrest]
      exact ⟨[], p, rfl, h, rfl⟩
    | succ bound =>
      rw [Session.advance, Descent.declarations, h.run_check_end]
      cases hrest : s.state.rest.isEmpty with
      | true => exact ⟨[], p, rfl, h, rfl⟩
      | false =>
        have hitem := h.item
        simp only [Bool.false_eq_true, if_false]
        rw [run_get, run_bind]
        cases hn : item? s.state with
        | rejected why t =>
          rw [hn] at hitem
          obtain ⟨q, hq⟩ := hitem
          rw [hq]
          exact ⟨q, rfl⟩
        | accepted n t =>
          rw [hn] at hitem
          obtain ⟨q, hq, ht, -⟩ := hitem
          -- An item passes a symbol, so the bounds suffice for the rest.
          have hlt := Grammar.progresses_item hn
          have hpush : w.Tracks (s.push (.item n) t).state q := ht.congr rfl rfl rfl
          have hmore := ih hpush (Nat.lt_of_lt_of_le hlt (Nat.le_of_lt_succ hcount))
            (Nat.le_of_lt_succ (Nat.lt_of_lt_of_le hlt hbound))
          rw [hq]
          exact hmore.cons

end Input

/-! ## Documents -/

/-- A descent answers what a session answers. -/
theorem parse_eq (tokens : List Token) (source : Text) (options : Options) :
    (start tokens source options).parse = Document.parseTokens tokens source options := by
  let w : Input := ⟨tokens, source, options⟩
  let s : Session := (Session.start tokens options).setSource source
  have hstart : w.Tracks s.state (start tokens source options) := w.tracks_start
  have hends := hstart.declarations (Nat.lt_succ_self _) hstart.length_rest_le
  change w.Ends s s.run _ at hends
  have hparse : Document.parseTokens tokens source options = s.parse.1 := rfl
  rw [parse, hparse, Session.parse]
  cases hrun : s.run with
  | mk t why =>
    rw [hrun] at hends
    have hstream : t.stream = w.stream := Session.stream_of_run hrun
    have hoptions : t.options = w.options := Session.options_of_run hrun
    cases why with
    | none =>
      obtain ⟨ns, q, hq, ht, hpieces⟩ := hends
      have hmodule : t.module = (ns.map (Node.map w.token w.tree)).map .item := by
        have hnil : s.pieces = [] := rfl
        rw [Session.module, hpieces, hnil, List.append_nil, List.reverse_reverse, hstream,
          Module.mapWith, List.map_map, List.map_map]
        rfl
      have hchosen : Correction.enabled t.options t.corrections = w.chosen t.state.repairs := by
        rw [Session.corrections, hstream, hoptions]
        rfl
      rw [hq]
      change Except.ok (⟨_, q.edits, q.tally⟩ : Report) = .ok t.report
      rw [Session.report, hmodule, hchosen, ht.edits, ht.tally]
    | some why =>
      obtain ⟨q, hq⟩ := hends
      rw [hq]
      change Except.error (w.error why) = .error (t.error why)
      rw [Session.error, hstream, Session.source_of_run hrun]
      rfl

/-- Options do not influence parsing, although they are within reach of every step. For given tokens
there is one list of corrections and one answer: under all options the descent, which makes its
edits on the way, fails with the same error or finds the same module, and its edits and its tally
are those of the corrections, in their order, that the options ask for. So does a session. -/
theorem parse_selects (tokens : List Token) (source : Text) :
    ∃ (corrections : List Correction)
      (answer : Except ParseError (Module Token (Expr (Extent Token)))),
      ∀ o, (start tokens source o).parse =
          (answer.map fun m =>
            let chosen := corrections.filter fun c => o.enables c.category
            ⟨m, Correction.allEdits chosen, Correction.tally chosen⟩) ∧
        Document.parseTokens tokens source o = (start tokens source o).parse := by
  obtain ⟨corrections, answer, hselects⟩ := Document.parseTokens_selects tokens source
  refine ⟨corrections, answer, fun o => ⟨?_, (parse_eq tokens source o).symm⟩⟩
  rw [parse_eq]
  exact hselects o

end Descent

end ShaderRepair

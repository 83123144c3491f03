import ShaderRepair.Proofs.Advance
import ShaderRepair.Proofs.CarrySession
import ShaderRepair.Proofs.Cursor
import ShaderRepair.Proofs.Depth

/-!
# Evaluation without a bound

Running rules bounds the depth of calls, and running a session the number of items. Evaluation has
no bound, and none of its steps goes through where something it needs is not there: it looks up
tokens by place, and it takes expressions from those that have been made. What is evaluated has been
evaluated in finitely many steps. This file contains:
- `Grammar.Evaluates`, evaluation of procedures, and `Session.Evaluates`, of a whole parse;
- determinism, and `Grammar.Evaluates.le`, cursors do not go back;
- `Rule.evaluates`: a rule evaluates to what running it answers;
- `Document.parse_evaluates`: so does a parse, whatever the tokens and the options are, and items,
  statements, initializers and expressions move the cursor.
-/

namespace ShaderRepair

namespace Grammar

open Cursor

namespace State

/-- The next symbol has been passed. -/
def pass (s : State) : State :=
  { s with rest := s.rest.tail, passed := s.passed + 1 }

theorem shift_eq_pass {s : State} (hx : Passable s.next) : s.shift = s.pass := by
  obtain ⟨more, hrest⟩ := rest_of_next rfl hx.2
  rw [shift_of_rest hrest, pass, hrest]
  rfl

theorem skipSemicolons_of_semicolon {s : State} (h : s.next.kind = .semicolon) :
    s.skipSemicolons = s.pass.skipSemicolons := by
  obtain ⟨more, hrest⟩ := rest_of_next rfl (by rw [h]; decide)
  simp [skipSemicolons, pass, hrest, h, Nat.add_assoc, Nat.add_comm 1]

theorem skipSemicolons_of_other {s : State} (h : s.next.kind ≠ .semicolon) :
    s.skipSemicolons = s := by
  obtain ⟨rest, passed, repairs, pending⟩ := s
  cases rest with
  | nil => rfl
  | cons x rest =>
    replace h : x.kind ≠ .semicolon := h
    simp [skipSemicolons, h]

end State

/-! ## Procedures -/

/-- From a cursor and a state a procedure evaluates to a cursor and an outcome. The symbols ahead
are found in the tokens. -/
inductive Evaluates (ts : List Token) :
    {α : Type} → Procedure α → Nat → State → Nat → Outcome α → Prop
  | done {α : Type} {i : Nat} {s : State} (a : α) : Evaluates ts (.done a) i s i (.accepted a s)
  | look {α : Type} {i j : Nat} {s : State} {o : Outcome α} {x y : Symbol}
    {k : Symbol → Symbol → Procedure α} (hx : symbol? ts i = some x)
    (hy : symbol? ts (after ts i) = some y) (h : Evaluates ts (k x y) i s j o) :
    Evaluates ts (.look k) i s j o
  | ahead {α : Type} {i j : Nat} {s : State} {o : Outcome α} {b : Bool} {k : Bool → Procedure α}
    (hb : Cursor.Declares ts i b) (h : Evaluates ts (k b) i s j o) : Evaluates ts (.ahead k) i s j o
  | here {α : Type} {i j : Nat} {s : State} {o : Outcome α} {k : Nat → Procedure α}
    (h : Evaluates ts (k s.passed) i s j o) : Evaluates ts (.here k) i s j o
  | shift {α : Type} {i j : Nat} {s : State} {o : Outcome α} {x : Symbol} {k : Procedure α}
    (hx : symbol? ts i = some x) (hpass : Passable x)
    (h : Evaluates ts k (after ts i) s.pass j o) : Evaluates ts (.shift k) i s j o
  | semicolon {α : Type} {i j : Nat} {s : State} {o : Outcome α} {x : Symbol} {k : Procedure α}
    (hx : symbol? ts i = some x) (hk : x.kind = .semicolon)
    (h : Evaluates ts (.skipSemicolons k) (after ts i) s.pass j o) :
    Evaluates ts (.skipSemicolons k) i s j o
  | other {α : Type} {i j : Nat} {s : State} {o : Outcome α} {x : Symbol} {k : Procedure α}
    (hx : symbol? ts i = some x) (hk : x.kind ≠ .semicolon) (h : Evaluates ts k i s j o) :
    Evaluates ts (.skipSemicolons k) i s j o
  /-- The initializer that is converted starts at a symbol that has been passed. -/
  | repair {α : Type} {i j : Nat} {s : State} {o : Outcome α} {m : Missing} {k : Procedure α}
    (hm : ∀ type first, m = .conversion type first → first < s.passed)
    (h : Evaluates ts k i (s.repair m) j o) : Evaluates ts (.repair m k) i s j o
  /-- The operands are the latest expressions. -/
  | build {α : Type} {i j : Nat} {s : State} {o : Outcome α} {e : Tree} {k : Procedure α}
    (he : ∃ base, s.pending = e.children.reverse ++ base)
    (h : Evaluates ts k i (s.build e) j o) : Evaluates ts (.build e k) i s j o
  /-- The latest expression changes in nothing but its extent. -/
  | widen {α : Type} {i j : Nat} {s : State} {o : Outcome α} {e : Tree} {k : Procedure α}
    (he : ∃ inner base, s.pending = inner :: base ∧ e = inner.setNote e.note)
    (h : Evaluates ts k i (s.widen e) j o) : Evaluates ts (.widen e k) i s j o
  /-- The symbol that does not fit is the next one or one that has been passed. -/
  | reject {α : Type} {i : Nat} {s : State} {index : Nat} {expected : List Expectation}
    (hindex : index ≤ s.passed) (hne : expected ≠ []) :
    Evaluates ts (.reject index expected : Procedure α) i s i (.rejected ⟨index, expected⟩ s)
  | call {α : Type} {i j l : Nat} {s t : State} {o : Outcome α} {r : Rule} {a : r.Result}
    {k : r.Result → Procedure α} (hr : Evaluates ts r.body i s j (.accepted a t))
    (h : Evaluates ts (k a) j t l o) : Evaluates ts (.call r k) i s l o
  | fail {α : Type} {i j : Nat} {s t : State} {r : Rule} {why : Rejection}
    {k : r.Result → Procedure α} (hr : Evaluates ts r.body i s j (.rejected why t)) :
    Evaluates ts (.call r k) i s j (.rejected why t)

namespace Evaluates

variable {α : Type} {ts : List Token} {p : Procedure α} {i j j' : Nat} {s : State}
  {o o' : Outcome α}

theorem deterministic (h : Evaluates ts p i s j o) (h' : Evaluates ts p i s j' o') :
    j = j' ∧ o = o' := by
  -- A procedure has only one step to take, but for semicolons and calls: there the symbol ahead
  -- and what the rule has evaluated to decide.
  induction h generalizing j' with
  | done a =>
    cases h'
    exact ⟨rfl, rfl⟩
  | look hx hy h ih =>
    cases h' with
    | look hx' hy' h' =>
      obtain rfl := Option.some.inj (hx.symm.trans hx')
      obtain rfl := Option.some.inj (hy.symm.trans hy')
      exact ih h'
  | ahead hb h ih =>
    cases h' with
    | ahead hb' h' =>
      obtain rfl := hb.deterministic hb'
      exact ih h'
  | here h ih =>
    cases h' with
    | here h' => exact ih h'
  | shift hx hpass h ih =>
    cases h' with
    | shift hx' hpass' h' => exact ih h'
  | semicolon hx hk h ih =>
    cases h' with
    | semicolon hx' hk' h' => exact ih h'
    | other hx' hk' h' =>
      obtain rfl := Option.some.inj (hx.symm.trans hx')
      exact absurd hk hk'
  | other hx hk h ih =>
    cases h' with
    | semicolon hx' hk' h' =>
      obtain rfl := Option.some.inj (hx.symm.trans hx')
      exact absurd hk' hk
    | other hx' hk' h' => exact ih h'
  | repair hm h ih =>
    cases h' with
    | repair hm' h' => exact ih h'
  | build he h ih =>
    cases h' with
    | build he' h' => exact ih h'
  | widen he h ih =>
    cases h' with
    | widen he' h' => exact ih h'
  | reject hindex hne =>
    cases h'
    exact ⟨rfl, rfl⟩
  | call hr h ihr ih =>
    cases h' with
    | call hr' h' =>
      obtain ⟨rfl, ho⟩ := ihr hr'
      cases ho
      exact ih h'
    | fail hr' => cases (ihr hr').2
  | fail hr ihr =>
    cases h' with
    | call hr' h' => cases (ihr hr').2
    | fail hr' =>
      obtain ⟨rfl, ho⟩ := ihr hr'
      cases ho
      exact ⟨rfl, rfl⟩

/-- A cursor never goes back. -/
theorem le (h : Evaluates ts p i s j o) : i ≤ j := by
  induction h with
  | done a => exact Nat.le_refl _
  | look hx hy h ih => exact ih
  | ahead hb h ih => exact ih
  | here h ih => exact ih
  | shift hx hpass h ih => exact Nat.le_trans (le_after _ _) ih
  | semicolon hx hk h ih => exact Nat.le_trans (le_after _ _) ih
  | other hx hk h ih => exact ih
  | repair hm h ih => exact ih
  | build he h ih => exact ih
  | widen he h ih => exact ih
  | reject hindex hne => exact Nat.le_refl _
  | call hr h ihr ih => exact Nat.le_trans ihr ih
  | fail hr ihr => exact ihr

end Evaluates

/-! ## Running is evaluating -/

section Running

variable {α : Type} {ts : List Token} {d n i : Nat} {s : State}

/-- Passing the semicolons ahead one by one, by induction on the symbols left. -/
theorem exists_skipSemicolons (hts : Ended ts) (hf : Faces ts i s.rest) :
    ∃ i', Faces ts i' s.skipSemicolons.rest ∧
      ∀ (k : Procedure α) (j : Nat) (o : Outcome α), Evaluates ts k i' s.skipSemicolons j o →
        Evaluates ts (.skipSemicolons k) i s j o := by
  induction hn : s.rest.length using Nat.strongRecOn generalizing i s with
  | ind n ih =>
    obtain ⟨hx, hafter⟩ := hf.read hts
    by_cases hk : s.next.kind = .semicolon
    · obtain ⟨more, hrest⟩ := State.rest_of_next rfl (by rw [hk]; decide)
      have hlt : s.pass.rest.length < n := by
        rw [← hn, State.pass, hrest]
        exact Nat.lt_succ_self _
      obtain ⟨i', hf', heval⟩ := ih _ hlt (s := s.pass) hafter rfl
      rw [State.skipSemicolons_of_semicolon hk]
      exact ⟨i', hf', fun k j o h => .semicolon hx hk (heval k j o h)⟩
    · rw [State.skipSemicolons_of_other hk]
      exact ⟨i, hf, fun k j o h => .other hx hk h⟩

/-- A procedure whose calls stay below a load evaluates to what running it answers if the rules
below that load do. -/
theorem Procedure.evaluates (hts : Ended ts)
    (hcallee : ∀ (r : Rule) (i : Nat) (s : State), Faces ts i s.rest → Holds r.held s →
      r.load s < n → ∃ j, Evaluates ts r.body i s j (Rule.run d r s) ∧
        Faces ts j (Rule.run d r s).state.rest)
    {p : Procedure α} {Q : α → State → Prop} (hsafe : p.Safe Q s)
    (hwithin : p.Within (Rule.run d) n s) (hf : Faces ts i s.rest) :
    ∃ j, Evaluates ts p i s j (p.exec (Rule.run d) s) ∧
      Faces ts j (p.exec (Rule.run d) s).state.rest := by
  induction p generalizing i s with
  | done a => exact ⟨i, .done a, hf⟩
  | look k ih =>
    obtain ⟨j, he, hj⟩ := ih s.next s.second hsafe hwithin hf
    exact ⟨j, .look (hf.read hts).1 (hf.second hts) he, hj⟩
  | ahead k ih =>
    obtain ⟨j, he, hj⟩ := ih _ hsafe hwithin hf
    exact ⟨j, .ahead (hf.declares hts) he, hj⟩
  | here k ih =>
    obtain ⟨j, he, hj⟩ := ih _ hsafe hwithin hf
    exact ⟨j, .here he, hj⟩
  | shift k ih =>
    obtain ⟨hpass, hsafe⟩ := hsafe
    have hshift := State.shift_eq_pass hpass
    obtain ⟨j, he, hj⟩ := ih (i := after ts i) hsafe hwithin (hshift ▸ (hf.read hts).2)
    exact ⟨j, .shift (hf.read hts).1 hpass (hshift ▸ he), hj⟩
  | skipSemicolons k ih =>
    obtain ⟨i', hf', heval⟩ := exists_skipSemicolons (α := α) hts hf
    obtain ⟨j, he, hj⟩ := ih hsafe hwithin hf'
    exact ⟨j, heval _ j _ he, hj⟩
  | repair m k ih =>
    obtain ⟨j, he, hj⟩ := ih hsafe.2 hwithin (s := s.repair m) hf
    exact ⟨j, .repair hsafe.1 he, hj⟩
  | build e k ih =>
    obtain ⟨j, he, hj⟩ := ih hsafe.2 hwithin (s := s.build e) hf
    exact ⟨j, .build hsafe.1 he, hj⟩
  | widen e k ih =>
    obtain ⟨j, he, hj⟩ := ih hsafe.2 hwithin (s := s.widen e) hf
    exact ⟨j, .widen hsafe.1 he, hj⟩
  | reject index expected => exact ⟨i, .reject hsafe.1 hsafe.2, hf⟩
  | call r k ih =>
    obtain ⟨hheld, hpost⟩ := hsafe
    obtain ⟨hload, hmore⟩ := hwithin
    obtain ⟨j, hr, hj⟩ := hcallee r i s hf hheld hload
    rw [Procedure.exec]
    -- The contract of the rule makes the rest safe if the call is accepted.
    cases hrun : Rule.run d r s with
    | accepted a t =>
      rw [hrun] at hr hj
      have ht := hpost a t (Rule.post_of_run hheld hrun)
      obtain ⟨l, he, hl⟩ := ih a ht (hmore a t hrun) hj
      exact ⟨l, .call hr he, hl⟩
    | rejected why t =>
      rw [hrun] at hr hj
      exact ⟨j, .fail hr, hj⟩

/-- With enough depth, running a rule answers what the rule evaluates to, by induction on the
depth. -/
theorem Rule.evaluates (hts : Ended ts) (r : Rule) (hheld : Holds r.held s) (hload : r.load s < d)
    (hf : Faces ts i s.rest) :
    ∃ j, Evaluates ts r.body i s j (Rule.run d r s) ∧ Faces ts j (Rule.run d r s).state.rest := by
  induction d generalizing r i s with
  | zero => exact absurd hload (Nat.not_lt_zero _)
  | succ d ih =>
    refine Procedure.evaluates (n := r.load s) hts (fun r' i' s' hf' hheld' hload' => ?_)
      (r.safe s hheld) (r.within d s) hf
    exact ih r' hheld' (Nat.lt_of_lt_of_le hload' (Nat.le_of_lt_succ hload)) hf'

/-- A rule evaluates in one way only, to what running it answers. -/
theorem Rule.run_of_evaluates (hts : Ended ts) {r : Rule} (hheld : Holds r.held s)
    (hload : r.load s < d) (hf : Faces ts i s.rest) {j : Nat} {o : Outcome r.Result}
    (h : Evaluates ts r.body i s j o) : Rule.run d r s = o ∧ Faces ts j o.state.rest := by
  obtain ⟨j', he, hj'⟩ := r.evaluates hts hheld hload hf
  obtain ⟨rfl, rfl⟩ := he.deterministic h
  exact ⟨rfl, hj'⟩

/-- A rule whose result takes place in the source has moved the cursor. -/
theorem Rule.lt_of_evaluates (hts : Ended ts) {r : Rule} (hheld : r.held = []) {a : r.Result}
    {t : State} {j : Nat} (hread : Passage.extents (r.content a) ≠ []) (hf : Faces ts i s.rest)
    (h : Evaluates ts r.body i s j (.accepted a t)) : i < j := by
  have hnil : Holds r.held s := hheld ▸ Holds.nil s
  obtain ⟨hrun, hfj⟩ := Rule.run_of_evaluates hts hnil (r.load_lt_depth s) hf h
  have hcarries := (Rule.post_of_run hnil hrun).carries
  rw [hheld] at hcarries
  have hlt := hcarries.lt hread
  have htotal := hcarries.total
  refine Nat.lt_of_le_of_ne h.le fun hij => ?_
  -- A cursor that has not moved would still face the same symbols.
  subst hij
  have hsame : t.rest = s.rest := hfj.ahead.symm.trans hf.ahead
  rw [hsame] at htotal
  omega

end Running

end Grammar

/-! ## Sessions -/

open Grammar Cursor

namespace Session

/-- From a cursor on, a session evaluates item by item up to the end of input or the first error. -/
inductive Evaluates (ts : List Token) : Nat → Session → Session × Option Rejection → Prop
  | finished {i : Nat} {s : Session} {x : Symbol} (hx : symbol? ts i = some x)
    (hk : x.kind = .endOfInput) : Evaluates ts i s (s, none)
  | item {i j : Nat} {s : Session} {x : Symbol} {n : Item} {t : State}
    {o : Session × Option Rejection} (hx : symbol? ts i = some x) (hk : x.kind ≠ .endOfInput)
    (hn : Grammar.Evaluates ts Grammar.item i s.state j (.accepted n t))
    (h : Evaluates ts j (s.push (.item n) t) o) : Evaluates ts i s o
  | rejected {i j : Nat} {s : Session} {x : Symbol} {why : Rejection} {t : State}
    (hx : symbol? ts i = some x) (hk : x.kind ≠ .endOfInput)
    (hn : Grammar.Evaluates ts Grammar.item i s.state j (.rejected why t)) :
    Evaluates ts i s (s.push (.loose t.pending.reverse) t, some why)

variable {ts : List Token} {i : Nat} {s : Session} {o o' : Session × Option Rejection}

theorem Evaluates.deterministic (h : Evaluates ts i s o) (h' : Evaluates ts i s o') : o = o' := by
  induction h with
  | finished hx hk =>
    cases h' with
    | finished hx' hk' => rfl
    | item hx' hk' hn' h' => exact absurd hk (Option.some.inj (hx'.symm.trans hx) ▸ hk')
    | rejected hx' hk' hn' => exact absurd hk (Option.some.inj (hx'.symm.trans hx) ▸ hk')
  | item hx hk hn h ih =>
    cases h' with
    | finished hx' hk' => exact absurd hk' (Option.some.inj (hx.symm.trans hx') ▸ hk)
    | item hx' hk' hn' h' =>
      obtain ⟨rfl, heq⟩ := hn.deterministic hn'
      cases heq
      exact ih h'
    | rejected hx' hk' hn' => cases (hn.deterministic hn').2
  | rejected hx hk hn =>
    cases h' with
    | finished hx' hk' => exact absurd hk' (Option.some.inj (hx.symm.trans hx') ▸ hk)
    | item hx' hk' hn' h' => cases (hn.deterministic hn').2
    | rejected hx' hk' hn' =>
      obtain ⟨rfl, heq⟩ := hn.deterministic hn'
      cases heq
      rfl

/-- A session evaluates to what reading items answers, by induction on the number of items. -/
theorem evaluates_advance (hts : Ended ts) (count : Nat) (hcount : s.state.rest.length < count)
    (hf : Faces ts i s.state.rest) : s.Evaluates ts i (s.advance count) := by
  induction count generalizing i s with
  | zero => exact absurd hcount (Nat.not_lt_zero _)
  | succ count ih =>
    by_cases hs : s.state.rest = []
    · rw [advance_of_nil hs]
      exact .finished (hf.read hts).1 (by rw [hs]; rfl)
    · obtain ⟨j, hn, hj⟩ := Rule.evaluates hts .item (Holds.nil s.state)
        (Rule.load_lt_depth .item s.state) hf
      have hempty : s.state.rest.isEmpty = false := by simpa using hs
      rw [advance, hempty, if_neg Bool.false_ne_true]
      cases hi : item? s.state with
      | accepted n m =>
        replace hi : Rule.run s.state.depth .item s.state = .accepted n m := hi
        rw [hi] at hn hj
        have hpost := item?_post hi
        have hlt : s.state.passed < m.passed :=
          hpost.carries.lt (by simp [Rule.content, Node.passage])
        have htotal := hpost.carries.total
        have hmore : (s.push (.item n) m).state.rest.length < count := by
          simp only [push]
          omega
        exact .item (hf.read hts).1 (hf.kind_ne hts hs) hn (ih hmore hj)
      | rejected why m =>
        replace hi : Rule.run s.state.depth .item s.state = .rejected why m := hi
        rw [hi] at hn
        exact .rejected (hf.read hts).1 (hf.kind_ne hts hs) hn

/-- From the start a session evaluates to what running it answers, and to nothing else. -/
theorem evaluates_iff (tokens : List Token) (source : Text) (o : Options) :
    ((Session.start tokens o).setSource source).Evaluates (ended tokens) 0 o' ↔
      o' = ((Session.start tokens o).setSource source).run := by
  have hrun : ((Session.start tokens o).setSource source).Evaluates (ended tokens) 0
      ((Session.start tokens o).setSource source).run :=
    evaluates_advance (ended_ended tokens) _ (Nat.lt_succ_self _) (faces_ended tokens)
  exact ⟨fun h => h.deterministic hrun, fun h => h ▸ hrun⟩

end Session

namespace Document

/-- Whatever the tokens and the options are, a parse evaluates, in one way only, and the answer is
what it evaluates to. Each item, statement, initializer or expression that is read moves the
cursor. -/
theorem parse_evaluates (tokens : List Token) (source : Text) (o : Options) :
    (∃ t why,
      (∀ r, ((Session.start tokens o).setSource source).Evaluates (ended tokens) 0 r ↔
        r = (t, why)) ∧
      parseTokens tokens source o =
        match why with
        | none => .ok t.report
        | some why => .error (t.error why)) ∧
    ∀ r ∈ [Rule.item, .statement, .initializer, .expression], ∀ i s j a t,
      Faces (ended tokens) i s.rest →
      Grammar.Evaluates (ended tokens) r.body i s j (.accepted a t) →
      i < j := by
  have hts := ended_ended tokens
  refine ⟨?_, ?_⟩
  · cases hanswer : ((Session.start tokens o).setSource source).run with
    | mk t why =>
      refine ⟨t, why, fun r => hanswer ▸ Session.evaluates_iff tokens source o, ?_⟩
      rw [parseTokens, Session.parse, hanswer]
      cases why <;> rfl
  · intro r hr i s j a t hf h
    simp only [List.mem_cons, List.not_mem_nil, or_false] at hr
    obtain rfl | rfl | rfl | rfl := hr
    · exact Rule.lt_of_evaluates hts rfl (by simp [Rule.content, Node.passage]) hf h
    · exact Rule.lt_of_evaluates hts rfl (by simp [Rule.content, Node.passage]) hf h
    · exact Rule.lt_of_evaluates hts rfl (by simp [Rule.content]) hf h
    · exact Rule.lt_of_evaluates hts rfl (by simp [Rule.content]) hf h

end Document

end ShaderRepair

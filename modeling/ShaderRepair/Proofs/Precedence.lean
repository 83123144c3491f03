import ShaderRepair.Proofs.Printing

/-!
# Reading printed expressions

What is printed of an expression is read back as the expression. The grammar goes down the ladder of
operators before it comes to a symbol, so what is read on one tier is read on all looser ones,
provided that what follows does not go on with it. This file contains:
- `Tier.Ends`, what may follow an expression of a tier;
- `Reads`, `Joins` and `Hangs`: symbols that are read as an expression, those that can be the left
  operand of a level, and those that something may trail;
- `Expr.offers`, which says what the symbols of an expression can be used for;
- `Document.parse_expression`, the text of an expression with a semicolon.
-/

namespace ShaderRepair

open Grammar Grammar.Procedure
open Text (ascii)

/-! ## Operators and marks -/

namespace Symbol

/-- Apart from being unary, an operator plays one role. -/
theorem role_unique {op : Text} {r r' : Role} (hr : r ≠ .unary) (hr' : r' ≠ .unary)
    (h : (operator op).plays r = true) (h' : (operator op).plays r' = true) : r = r' := by
  have htable : ∀ e ∈ Lexicon.operators, ∀ r ∈ Role.all, ∀ r' ∈ Role.all, r ≠ .unary →
      r' ≠ .unary → (operator e.1).plays r = true → (operator e.1).plays r' = true → r = r' := by
    decide +kernel
  have hmem : ∀ r : Role, r ∈ Role.all := by
    intro r
    cases r <;> decide
  obtain ⟨e, he, rfl⟩ := exists_operator h
  exact htable e he r (hmem r) r' (hmem r') hr hr' h h'

end Symbol

theorem Level.role_ne (level : Level) :
    level.role ≠ .unary ∧ level.role ≠ .trailing ∧ level.role ≠ .conditional ∧
      level.role ≠ .assignment := by
  cases level <;> decide

theorem Level.role_injective {l l' : Level} (h : l.role = l'.role) : l = l' := by
  cases l <;> cases l' <;> first | rfl | cases h

namespace Grammar

theorem Closes.mono {m n : Nat} {x : Symbol} (h : Closes m x) (hmn : m ≤ n) : Closes n x :=
  ⟨h.1, fun l hl => h.2 l (Nat.le_trans hmn hl)⟩

/-- Most marks end an expression. -/
theorem finishes_mark_of_not_mem {k : Kind} (hk : k ∉ [Kind.dot, .leftBracket, .leftParen]) :
    Finishes (Symbol.mark k) := by
  simp only [List.mem_cons, List.not_mem_nil, or_false, not_or] at hk
  refine ⟨⟨?_, fun l _ => plays_mark⟩, plays_mark, plays_mark⟩
  simp [Symbol.trails, hk]

/-- An operator that groups is no trailing one. -/
theorem trails_operator {op : Text} {r : Role} (hr : r ≠ .unary) (hr' : r ≠ .trailing)
    (h : (Symbol.operator op).plays r = true) : (Symbol.operator op).trails = false := by
  have htrailing : (Symbol.operator op).plays .trailing = false := by
    by_contra hplays
    exact hr' (Symbol.role_unique hr (by decide) h (by simpa using hplays))
  simp [Symbol.trails, htrailing]

/-- An operator of a level ends all that binds tighter. -/
theorem closes_operator {op : Text} {l : Level} (h : (Symbol.operator op).plays l.role = true) :
    Closes (l.rank + 1) (Symbol.operator op) := by
  refine ⟨trails_operator l.role_ne.1 l.role_ne.2.1 h, ?_⟩
  intro l' hl'
  by_contra hplays
  have heq := Symbol.role_unique l.role_ne.1 l'.role_ne.1 h (by simpa using hplays)
  rw [Level.role_injective heq] at hl'
  omega

/-- An operator that is no binary one ends all operations. -/
theorem closes_zero {op : Text} {r : Role} (hr : r ≠ .unary) (hr' : r ≠ .trailing)
    (hl : ∀ l : Level, r ≠ l.role) (h : (Symbol.operator op).plays r = true) :
    Closes 0 (Symbol.operator op) := by
  refine ⟨trails_operator hr hr' h, ?_⟩
  intro l _
  by_contra hplays
  exact hl l (Symbol.role_unique hr l.role_ne.1 h (by simpa using hplays))

end Grammar

/-! ## Tiers and rules -/

namespace Tier

/-- What reads an expression of a tier. -/
def procedure : Tier → Procedure Tree
  | .sequence => run .expression
  | .assignment => run .assignment
  | .operation level => run (.binary level)
  | .unary => run .unary
  | .operand => run .unary

/-- What ends an expression of a tier. -/
def Ends : Tier → Symbol → Prop
  | .sequence, x => Finishes x ∧ x.kind ≠ .comma
  | .assignment, x => Finishes x
  | .operation level, x => Closes level.rank x
  | .unary, x => x.trails = false
  | .operand, x => x.trails = false

theorem Ends.behind {level : Level} {x : Symbol} (h : Closes (level.rank + 1) x) :
    (Tier.behind level).Ends x := by
  unfold Tier.behind
  split
  · next tighter ht =>
    have hrank := Level.rank_of_tighter ht
    exact h.mono (Nat.le_of_eq hrank.symm)
  · exact h.1

end Tier

/-! ## What symbols can be used for -/

section Uses

variable (K : Missing → Prop)

/-- The symbols are read as the expression on a tier. -/
def Reads (t : Tier) (w : List Symbol) (e : Expr Unit) : Prop :=
  ∀ ⦃rest : List Symbol⦄, t.Ends (rest.headD Symbol.finish) →
    Parses K t.procedure (w ++ rest) (fun a => a.bare = e) rest

/-- The symbols are read as a left operand of a level, and what follows decides what becomes of
it. -/
def Joins (level : Level) (w : List Symbol) (e : Expr Unit) : Prop :=
  ∀ ⦃rest m : List Symbol⦄ ⦃Q : Tree → Prop⦄, Closes (level.rank + 1) (rest.headD Symbol.finish) →
    (∀ a : Tree, a.bare = e → Parses K (run (.binaryRest level a)) rest Q m) →
    Parses K (run (.binary level)) (w ++ rest) Q m

/-- The symbols are read as an operand, and what trails it decides what becomes of it. -/
def Hangs (w : List Symbol) (e : Expr Unit) : Prop :=
  ∀ ⦃rest m : List Symbol⦄ ⦃Q : Tree → Prop⦄,
    (∀ a : Tree, a.bare = e → Parses K (run (.suffixes a)) rest Q m) →
    Parses K (run .unary) (w ++ rest) Q m

end Uses

variable {K : Missing → Prop} {w : List Symbol} {e : Expr Unit}

/-- The right operand of a level, by whatever rule. -/
theorem parses_behind {α : Type} {level : Level} {rest m : List Symbol} {Q : α → Prop}
    {f : Tree → Procedure α} (h : Reads K (.behind level) w e)
    (hrest : Closes (level.rank + 1) (rest.headD Symbol.finish))
    (hf : ∀ a : Tree, a.bare = e → Parses K (f a) rest Q m) :
    Parses K (match level.tighter with
      | some tighter => run (.binary tighter) >>= f
      | none => run .unary >>= f) (w ++ rest) Q m := by
  have hread := h (.behind hrest)
  unfold Tier.behind at hread
  split
  · next tighter ht =>
    simp only [ht] at hread
    exact .bind hread hf
  · next ht =>
    simp only [ht] at hread
    exact .bind hread hf

/-- What binds tighter than a level can be its left operand. -/
theorem Reads.joins {level : Level} (h : Reads K (.behind level) w e) : Joins K level w e := by
  intro rest m Q hrest hmore
  exact .call (parses_behind h hrest hmore)

/-- Without an operator behind it, a left operand is all there is. -/
theorem Joins.reads {level : Level} (h : Joins K level w e) : Reads K (.operation level) w e := by
  intro rest hrest
  have hplays := ne_true_of_eq_false (hrest.2 level (Nat.le_refl _))
  exact h (hrest.mono (Nat.le_succ _)) fun a ha => .call (.next (.no hplays (.done ha)))

/-- Nothing trails the operand. -/
theorem suffixes_done {rest : List Symbol} {a : Tree}
    (hrest : (rest.headD Symbol.finish).trails = false) :
    Parses K (run (.suffixes a)) rest (fun b => b = a) rest := by
  simp only [Symbol.trails, Bool.or_eq_false_iff, decide_eq_false_iff_not] at hrest
  obtain ⟨⟨⟨hdot, hbracket⟩, hparen⟩, htrailing⟩ := hrest
  refine .call (.next (.no hdot (.no hbracket (.no ?_ (.no ?_ (.done rfl))))))
  · rw [hparen]
    exact Bool.false_ne_true
  · rw [htrailing]
    exact Bool.false_ne_true

theorem Hangs.reads (h : Hangs K w e) : Reads K .operand w e := by
  intro rest hrest
  refine h fun a ha => (suffixes_done hrest).weaken fun b hb => ?_
  rw [hb]
  exact ha

/-- Without a question mark behind it, an operation is a conditional expression. -/
theorem Reads.conditional {rest : List Symbol} (h : Reads K (.operation .logicalOr) w e)
    (hrest : Closes 0 (rest.headD Symbol.finish))
    (hnot : (rest.headD Symbol.finish).plays .conditional = false) :
    Parses K (run .conditional) (w ++ rest) (fun a => a.bare = e) rest :=
  .call (.bind (h hrest) fun _ ha => .next (.no (ne_true_of_eq_false hnot) (.done ha)))

/-- Without an assignment sign behind it, a conditional expression is an assignment expression. -/
theorem reads_of_conditional (h : ∀ ⦃rest : List Symbol⦄, Finishes (rest.headD Symbol.finish) →
    Parses K (run .conditional) (w ++ rest) (fun a => a.bare = e) rest) :
    Reads K .assignment w e := by
  intro rest hrest
  have hnot := ne_true_of_eq_false hrest.assignment
  exact .call (.bind (h hrest) fun a ha => .next (.no hnot (.done ha)))

/-- What is read on one tier is read on the next looser one. -/
theorem Reads.loosen {t u : Tier} (htu : t.tighter = some u) (h : Reads K u w e) :
    Reads K t w e := by
  cases t with
  | sequence =>
    cases htu
    intro rest hrest
    exact .call (.bind (h hrest.1) fun a ha => .next (.no hrest.2 (.done ha)))
  | assignment =>
    cases htu
    exact reads_of_conditional fun rest hrest => h.conditional hrest.closes hrest.conditional
  | operation level =>
    cases htu
    exact h.joins.reads
  | unary =>
    cases htu
    exact h
  | operand => cases htu

/-- What is read on one tier is read on all looser ones. -/
theorem Reads.climb {t u : Tier} (h : Reads K u w e) (htu : t.rank ≤ u.rank) : Reads K t w e := by
  -- The induction is on the number of tiers in between.
  obtain ⟨n, hn⟩ : ∃ n, u.rank = t.rank + n := ⟨u.rank - t.rank, by omega⟩
  induction n generalizing t with
  | zero =>
    rw [Tier.rank_injective (t := t) (u := u) (by omega)]
    exact h
  | succ n ih =>
    cases ht : t.tighter with
    | some t' =>
      have hrank := Tier.rank_of_tighter ht
      exact (ih (by omega) (by omega)).loosen ht
    | none =>
      cases t <;> cases ht
      have hle := u.rank_le
      have hrank : Tier.operand.rank = 14 := rfl
      omega

/-! ## Operands -/

/-- What is read without a unary operator, by `primary` and then by what trails it. -/
theorem hangs_of_primary {x : Symbol} {more : List Symbol} (hx : x.plays .unary = false)
    (h : ∀ rest, Parses K (run .primary) (x :: more ++ rest) (fun a => a.bare = e) rest) :
    Hangs K (x :: more) e := by
  intro rest m Q hmore
  exact .call (.next (.no (ne_true_of_eq_false hx) (.bind (h rest) hmore)))

theorem hangs_identifier (name : Text) : Hangs K [Symbol.name name] (.identifier () name) := by
  refine hangs_of_primary rfl fun rest => .call (.next ?_)
  exact .take fun n => .make_done fun X => rfl

theorem hangs_literal (kind : LiteralKind) (text : Text) :
    Hangs K [Symbol.literal kind text] (.literal () kind text) := by
  refine hangs_of_primary rfl fun rest => .call (.next ?_)
  exact .take fun n => .make_done fun X => rfl

/-- A closing mark ends every tier. -/
theorem ends_mark {k : Kind} (hk : k ∈ [Kind.semicolon, .colon, .rightParen, .rightBracket])
    (rest : List Symbol) : Tier.sequence.Ends ((Symbol.mark k :: rest).headD Symbol.finish) := by
  refine ⟨finishes_mark_of_not_mem ?_, ?_⟩
  · revert k
    decide
  · change k ≠ .comma
    revert k
    decide

/-- Parentheses make an operand of any expression. -/
theorem Reads.hangs (h : Reads K .sequence w e) :
    Hangs K (Symbol.mark .leftParen :: (w ++ [Symbol.mark .rightParen])) e := by
  refine hangs_of_primary plays_mark fun rest => .call (.next ?_)
  rw [List.cons_append, List.append_assoc]
  refine .take fun n => .bind (h (ends_mark (by decide) rest)) fun a ha => ?_
  refine .orMissing (.extentFrom fun X => .widen (.done ?_))
  rw [Expr.bare_setNote]
  exact ha

/-! ## Trailing -/

section Trailing

variable {rest m : List Symbol} {Q : Tree → Prop} {a : Tree}

theorem suffixes_member {name : Text}
    (h : ∀ X, Parses K (run (.suffixes (.member X a name))) rest Q m) :
    Parses K (run (.suffixes a)) (Symbol.mark .dot :: Symbol.name name :: rest) Q m := by
  refine .call (.next (.yes rfl (.take fun _ => ?_)))
  exact .expectKind rfl fun _ => .make h

theorem suffixes_unsized (h : ∀ X, Parses K (run (.suffixes (.unsized X a))) rest Q m) :
    Parses K (run (.suffixes a))
      (Symbol.mark .leftBracket :: Symbol.mark .rightBracket :: rest) Q m := by
  refine .call (.next (.no Kind.noConfusion (.yes rfl (.take fun _ => ?_))))
  exact .next (.yes rfl (.take fun _ => .make h))

theorem suffixes_index (hw : Phrase w) (hread : Reads K .sequence w e)
    (h : ∀ X i, i.bare = e → Parses K (run (.suffixes (.index X a i))) rest Q m) :
    Parses K (run (.suffixes a))
      (Symbol.mark .leftBracket :: (w ++ Symbol.mark .rightBracket :: rest)) Q m := by
  have hne := hw.starts.head_ne (Symbol.mark .rightBracket :: rest) (k := .rightBracket) (by decide)
  refine .call (.next (.no Kind.noConfusion (.yes rfl (.take fun _ => ?_))))
  refine .next (.no hne (.bind (hread (ends_mark (by decide) rest)) fun i hi => ?_))
  exact .expectKind rfl fun _ => .make fun X => h X i hi

theorem suffixes_trailing {op : Text} (hop : (Symbol.operator op).plays .trailing = true)
    (h : ∀ X, Parses K (run (.suffixes (.unary X op .after a))) rest Q m) :
    Parses K (run (.suffixes a)) (Symbol.operator op :: rest) Q m := by
  refine .call (.next (.no Kind.noConfusion (.no Kind.noConfusion (.no ?_ (.yes ?_ ?_)))))
  · exact Bool.false_ne_true
  · exact (Bool.and_true _).trans hop
  · exact .take fun _ => .make h

end Trailing

/-! ## Lists -/

/-- What the symbols of an expression can be used for, depending on how tightly it binds. -/
def Offers (K : Missing → Prop) (e : Expr Unit) : Prop :=
  match e.tier with
  | .operation level => Joins K level e.words e
  | .operand => Hangs K e.words e
  | t => Reads K t e.words e

namespace Offers

theorem reads (h : Offers K e) : Reads K e.tier e.words e := by
  unfold Offers at h
  split at h
  · next level ht =>
    rw [ht]
    exact Joins.reads h
  · next ht =>
    rw [ht]
    exact Hangs.reads h
  · exact h

/-- In parentheses, an expression is an operand. -/
theorem hangs_paren (h : Offers K e) :
    Hangs K (Symbol.mark .leftParen :: (e.words ++ [Symbol.mark .rightParen])) e :=
  (h.reads.climb (Nat.zero_le _)).hangs

theorem reads_at (h : Offers K e) (t : Tier) : Reads K t (e.wordsAt t) e := by
  rcases Nat.lt_or_ge e.tier.rank t.rank with hlt | hle
  · rw [Expr.wordsAt, Tier.enclose_of_lt hlt]
    exact h.hangs_paren.reads.climb t.rank_le
  · rw [Expr.wordsAt, Tier.enclose_of_le hle]
    exact h.reads.climb hle

theorem joins_at (h : Offers K e) (level : Level) :
    Joins K level (e.wordsAt (.operation level)) e := by
  by_cases heq : e.tier = .operation level
  · have hjoins : Joins K level e.words e := by
      unfold Offers at h
      rw [heq] at h
      exact h
    rw [Expr.wordsAt, Tier.enclose_of_le (by rw [heq])]
    exact hjoins
  · -- on another tier, the tier behind the level encloses in the same way
    have hne : e.tier.rank ≠ (Tier.operation level).rank := fun hr => heq (Tier.rank_injective hr)
    have hsame : e.wordsAt (.operation level) = e.wordsAt (.behind level) := by
      have hbehind := Tier.rank_behind level
      have hrank : (Tier.operation level).rank = level.rank + 2 := rfl
      unfold Expr.wordsAt Tier.enclose
      exact if_congr (by omega) rfl rfl
    rw [hsame]
    exact (h.reads_at _).joins

theorem hangs_at (h : Offers K e) : Hangs K (e.wordsAt .operand) e := by
  by_cases heq : e.tier = .operand
  · have hhangs : Hangs K e.words e := by
      unfold Offers at h
      rw [heq] at h
      exact h
    rw [Expr.wordsAt, Tier.enclose_of_le (by rw [heq])]
    exact hhangs
  · have hne : e.tier.rank ≠ Tier.operand.rank := fun hr => heq (Tier.rank_injective hr)
    have hle := e.tier.rank_le
    have hrank : Tier.operand.rank = 14 := rfl
    rw [Expr.wordsAt, Tier.enclose_of_lt (by omega)]
    exact h.hangs_paren

end Offers

/-- Printing what is at hand: the words of a list, and of its first element. -/
theorem Expr.wordsAll_cons (e e' : Expr Unit) (more : List (Expr Unit)) :
    Expr.wordsAll (e :: e' :: more) =
      e.wordsAt .assignment ++ Symbol.mark .comma :: Expr.wordsAll (e' :: more) := by
  rw [Expr.wordsAll]
  · rfl
  · simp

theorem finishes_comma (rest : List Symbol) :
    Finishes ((Symbol.mark .comma :: rest).headD Symbol.finish) :=
  finishes_mark_of_not_mem (by decide)

/-- Arguments up to the closing parenthesis. -/
theorem parses_arguments {es : List (Expr Unit)} (hes : ∀ e ∈ es, Phrase e.words ∧ Offers K e)
    (rest : List Symbol) :
    Parses K (run .arguments) (Expr.wordsAll es ++ Symbol.mark .rightParen :: rest)
      (fun as => as.map Expr.bare = es) (Symbol.mark .rightParen :: rest) := by
  induction es with
  | nil => exact .call (.next (.yes rfl (.done rfl)))
  | cons e more ih =>
    obtain ⟨⟨hphrase, hoffers⟩, hmore⟩ := List.forall_mem_cons.1 hes
    -- The rule looks for the closing parenthesis before every argument.
    have hne : ∀ rest, ((e.wordsAt .assignment ++ rest).headD Symbol.finish).kind ≠ .rightParen :=
      fun rest => (Expr.phrase_enclose hphrase).starts.head_ne rest (by decide)
    cases more with
    | nil =>
      have hread := hoffers.reads_at .assignment (ends_mark (k := .rightParen) (by decide) rest).1
      refine .call (.next (.no (hne _) (.bind hread fun a ha => .pass rfl (.next (.no ?_ ?_)))))
      · exact Bool.false_ne_true
      · exact .done (congrArg (fun a => [a]) ha)
    | cons e' more =>
      rw [Expr.wordsAll_cons, List.append_assoc, List.cons_append]
      refine .call (.next (.no (hne _) (.bind (hoffers.reads_at .assignment (finishes_comma _))
        fun a ha => .accept rfl (.bind (ih hmore) fun as has => .done ?_))))
      rw [List.map_cons, ha, has]

/-- The rest of a sequence. -/
theorem parses_sequence {es : List (Expr Unit)} (hes : ∀ e ∈ es, Offers K e) (hne : es ≠ [])
    {rest : List Symbol} (hrest : Tier.sequence.Ends (rest.headD Symbol.finish)) :
    Parses K (run .sequence) (Symbol.mark .comma :: (Expr.wordsAll es ++ rest))
      (fun as => as.map Expr.bare = es) rest := by
  induction es with
  | nil => exact absurd rfl hne
  | cons e more ih =>
    obtain ⟨hoffers, hmore⟩ := List.forall_mem_cons.1 hes
    refine .call (.accept rfl ?_)
    cases more with
    | nil =>
      -- Behind the last one the rule is called once more and finds no comma.
      have hend : Parses K (run .sequence) rest (fun as => as = []) rest :=
        .call (.passKind hrest.2 (.done rfl))
      refine .bind (hoffers.reads_at .assignment hrest.1) fun a ha => .bind hend fun as has =>
        .done ?_
      rw [has, List.map_singleton, ha]
    | cons e' more =>
      rw [Expr.wordsAll_cons, List.append_assoc, List.cons_append]
      refine .bind (hoffers.reads_at .assignment (finishes_comma _)) fun a ha =>
        .bind (ih hmore (List.cons_ne_nil _ _)) fun as has => .done ?_
      rw [List.map_cons, ha, has]

/-! ## Every form -/

section Forms

variable {c y n l r object : Expr Unit} {es : List (Expr Unit)} {op : Text}

theorem reads_sequence (hes : ∀ e ∈ es, Offers K e) (hlength : 2 ≤ es.length) :
    Reads K .sequence (Expr.wordsAll es) (.sequence () es) := by
  match es, hlength with
  | e :: e' :: more, _ =>
    obtain ⟨hoffers, hmore⟩ := List.forall_mem_cons.1 hes
    intro rest hrest
    rw [Expr.wordsAll_cons, List.append_assoc, List.cons_append]
    refine .call (.bind (hoffers.reads_at .assignment (finishes_comma _)) fun a ha =>
      .next (.yes rfl (.bind (parses_sequence hmore (List.cons_ne_nil _ _) hrest) fun as has =>
        .make_done fun X => ?_)))
    rw [Expr.bare_sequence, List.map_cons, ha, has]

theorem reads_choice (hc : Offers K c) (hy : Offers K y) (hn : Offers K n) :
    Reads K .assignment
      (c.wordsAt (.operation .logicalOr) ++ Symbol.operator (ascii "?") ::
        (y.words ++ Symbol.mark .colon :: n.wordsAt .assignment))
      (.conditional () c y n) := by
  refine reads_of_conditional fun rest hrest => ?_
  have hplays : (Symbol.operator (ascii "?")).plays .conditional = true := rfl
  have hends := closes_zero (by decide) (by decide) (fun l => l.role_ne.2.2.1.symm) hplays
  have hyes : Reads K .sequence y.words y := hy.reads.climb (Nat.zero_le _)
  simp only [List.append_assoc, List.cons_append]
  refine .call (.bind (hc.reads_at (.operation .logicalOr) hends) fun a ha =>
    .next (.yes hplays (.take fun _ => ?_)))
  -- Between the question mark and the colon anything may stand, behind the colon an assignment.
  refine .bind (hyes (ends_mark (by decide) _)) fun b hb => .orMissing ?_
  refine .bind (hn.reads_at .assignment hrest) fun d hd => .make_done fun X => ?_
  rw [Expr.bare_conditional, ha, hb, hd]

/-- An operator of a level takes what is there on its left, and what follows decides about its
right. -/
theorem joins_operation {level : Level} (hop : (Symbol.operator op).plays level.role = true)
    (hl : Offers K l) (hr : Offers K r) :
    Joins K level
      (l.wordsAt (.operation level) ++ Symbol.operator op :: r.wordsAt (.behind level))
      (.binary () level.family op l r) := by
  intro rest m Q hrest hmore
  rw [List.append_assoc, List.cons_append]
  -- The operation becomes a left operand in turn, so it is handed on to what follows.
  refine hl.joins_at level (closes_operator hop) fun a ha => .call (.next (.yes hop ?_))
  refine .take fun _ => parses_behind (hr.reads_at _) hrest fun b hb => ?_
  refine .make fun X => hmore _ ?_
  rw [Expr.bare_binary, ha, hb]
  rfl

theorem reads_assignment (hop : (Symbol.operator op).plays .assignment = true)
    (hl : Offers K l) (hr : Offers K r) :
    Reads K .assignment
      (l.wordsAt (.operation .logicalOr) ++ Symbol.operator op :: r.wordsAt .assignment)
      (.binary () .assignment op l r) := by
  intro rest hrest
  have hends := closes_zero (by decide) (by decide) (fun l => l.role_ne.2.2.2.symm) hop
  -- The left operand is read as a conditional, so no question mark may stand where the sign does.
  have hnot : (Symbol.operator op).plays .conditional = false := by
    by_contra hplays
    have hplays : (Symbol.operator op).plays .conditional = true := by simpa using hplays
    cases Symbol.role_unique (by decide) (by decide) hop hplays
  rw [List.append_assoc, List.cons_append]
  refine .call (.bind ((hl.reads_at (.operation .logicalOr)).conditional hends hnot) fun a ha =>
    .next (.yes hop (.take fun _ => ?_)))
  refine .bind (hr.reads_at .assignment hrest) fun b hb => .make_done fun X => ?_
  rw [Expr.bare_binary, ha, hb]
  rfl

theorem reads_before (hop : (Symbol.operator op).plays .unary = true) (he : Offers K e) :
    Reads K .unary (Symbol.operator op :: e.wordsAt .unary) (.unary () op .before e) := by
  intro rest hrest
  refine .call (.next (.yes hop (.take fun _ => ?_)))
  refine .bind (he.reads_at .unary hrest) fun a ha => .make_done fun X => ?_
  rw [Expr.bare_unary, ha]
  rfl

theorem hangs_call (hobject : Offers K object)
    (hes : ∀ e ∈ es, Phrase e.words ∧ Offers K e) :
    Hangs K
      (object.wordsAt .operand ++
        Symbol.mark .leftParen :: (Expr.wordsAll es ++ [Symbol.mark .rightParen]))
      (.call () object es) := by
  intro rest m Q hmore
  simp only [List.append_assoc, List.cons_append, List.nil_append]
  refine hobject.hangs_at fun a ha => .call (.next ?_)
  refine .no Kind.noConfusion (.no Kind.noConfusion (.yes rfl (.take fun _ => ?_)))
  refine .bind (parses_arguments hes rest) fun as has => .orMissing ?_
  refine .make fun X => hmore _ ?_
  rw [Expr.bare_call, ha, has]

theorem hangs_after (hop : (Symbol.operator op).plays .trailing = true)
    (hobject : Offers K object) :
    Hangs K (object.wordsAt .operand ++ [Symbol.operator op]) (.unary () op .after object) := by
  intro rest m Q hmore
  rw [List.append_assoc]
  refine hobject.hangs_at fun a ha => suffixes_trailing hop fun X => hmore _ ?_
  rw [Expr.bare_unary, ha]

theorem hangs_member (name : Text) (hobject : Offers K object) :
    Hangs K (object.wordsAt .operand ++ [Symbol.mark .dot, Symbol.name name])
      (.member () object name) := by
  intro rest m Q hmore
  rw [List.append_assoc]
  refine hobject.hangs_at fun a ha => suffixes_member fun X => hmore _ ?_
  rw [Expr.bare_member, ha]

theorem hangs_index (hobject : Offers K object) (hphrase : Phrase c.words) (hc : Offers K c) :
    Hangs K
      (object.wordsAt .operand ++
        Symbol.mark .leftBracket :: (c.words ++ [Symbol.mark .rightBracket]))
      (.index () object c) := by
  intro rest m Q hmore
  have hread : Reads K .sequence c.words c := hc.reads.climb (Nat.zero_le _)
  rw [List.append_assoc, List.cons_append, List.append_assoc]
  refine hobject.hangs_at fun a ha => suffixes_index hphrase hread fun X b hb => hmore _ ?_
  rw [Expr.bare_index, ha, hb]

theorem hangs_unsized (hobject : Offers K object) :
    Hangs K
      (object.wordsAt .operand ++ [Symbol.mark .leftBracket, Symbol.mark .rightBracket])
      (.unsized () object) := by
  intro rest m Q hmore
  rw [List.append_assoc]
  refine hobject.hangs_at fun a ha => suffixes_unsized fun X => hmore _ ?_
  rw [Expr.bare_unsized, ha]

/-- The operator of a binary expression says whether it is an operation or an assignment. -/
theorem offers_binary {family : Family} (h : Family.ofOperator op = some family)
    (hl : Offers K l) (hr : Offers K r) : Offers K (.binary () family op l r) := by
  unfold Family.ofOperator at h
  unfold Offers
  rw [Expr.tier, Expr.words]
  split at h
  · next level hlevel =>
    cases h
    exact joins_operation (Level.plays_of_ofOperator hlevel) hl hr
  · split at h
    · next hop =>
      cases h
      exact reads_assignment hop hl hr
    · cases h

end Forms

namespace Expr

mutual

/-- A well-formed expression offers what its symbols promise. -/
theorem offers (e : Expr Unit) (h : e.isWellFormed = true) : Offers K e := by
  -- Every form is put together from what its operands offer, whether they are enclosed or not.
  match e, h with
  | .sequence _ items, h =>
    simp only [isWellFormed, Bool.and_eq_true, decide_eq_true_eq] at h
    exact reads_sequence (offersAll items h.2) h.1
  | .conditional _ c y n, h =>
    simp only [isWellFormed, Bool.and_eq_true] at h
    exact reads_choice (offers c h.1.1) (offers y h.1.2) (offers n h.2)
  | .binary _ family op l r, h =>
    simp only [isWellFormed, Bool.and_eq_true, decide_eq_true_eq] at h
    exact offers_binary h.1.1 (offers l h.1.2) (offers r h.2)
  | .unary _ op .before e, h =>
    simp only [isWellFormed, Bool.and_eq_true] at h
    exact reads_before h.1 (offers e h.2)
  | .unary _ op .after e, h =>
    simp only [isWellFormed, Bool.and_eq_true] at h
    exact hangs_after h.1 (offers e h.2)
  | .call _ callee args, h =>
    simp only [isWellFormed, Bool.and_eq_true] at h
    exact hangs_call (offers callee h.1) fun e he =>
      ⟨phrase_words e (isWellFormed_of_mem h.2 e he), offersAll args h.2 e he⟩
  | .member _ e name, h =>
    simp only [isWellFormed, Bool.and_eq_true] at h
    exact hangs_member name (offers e h.1)
  | .index _ e i, h =>
    simp only [isWellFormed, Bool.and_eq_true] at h
    exact hangs_index (offers e h.1) (phrase_words i h.2) (offers i h.2)
  | .unsized _ e, h =>
    simp only [isWellFormed] at h
    exact hangs_unsized (offers e h)
  | .identifier _ name, _ => exact hangs_identifier name
  | .literal _ kind text, _ => exact hangs_literal kind text

theorem offersAll (es : List (Expr Unit)) (h : areWellFormed es = true) :
    ∀ e ∈ es, Offers K e := by
  match es, h with
  | [], _ => simp
  | e :: more, h =>
    simp only [areWellFormed, Bool.and_eq_true] at h
    exact List.forall_mem_cons.2 ⟨offers e h.1, offersAll more h.2⟩

end

/-- A well-formed expression is read as such wherever any expression may stand. -/
theorem reads {e : Expr Unit} (h : e.isWellFormed = true) : Reads K .sequence e.words e :=
  (offers e h).reads.climb (Nat.zero_le _)

end Expr

/-! ## Statements -/

/-- The symbols of an expression are read as a statement. -/
theorem parses_statement_of_phrase (hw : Phrase w) (h : Reads K .sequence w e)
    {rest : List Symbol} (hrest : (rest.headD Symbol.finish).kind ≠ .semicolon) :
    Parses K (run .statement) (w ++ Symbol.mark .semicolon :: rest)
      (fun n => n.bare = .expression ⟨(), ()⟩ e) rest := by
  have hread := h (ends_mark (k := .semicolon) (by decide) rest)
  obtain ⟨x, more, rfl, hkind⟩ := hw.starts
  refine .call (.position fun first => .next ?_)
  have hrule : Parses K (do
      let e ← run .expression
      statementEnd
      return Node.expression (← extentFrom first) e)
      (x :: more ++ Symbol.mark .semicolon :: rest)
      (fun n => n.bare = .expression ⟨(), ()⟩ e) rest := by
    refine .bind hread fun a ha => .statementEnd hrest (.extentFrom fun X => .done ?_)
    exact congrArg (Node.expression ⟨(), ()⟩) ha
  -- No statement of another form begins with one of these kinds.
  simp only [expressionKinds, List.mem_cons, List.not_mem_nil, or_false] at hkind
  rcases hkind with hk | hk | hk | hk
  all_goals
    simp only [List.cons_append, List.headD_cons, hk]
    exact hrule

/-- The symbols of an expression are read as an item, since they look like no declaration. -/
theorem parses_item_of_phrase (hw : Phrase w) (h : Reads K .sequence w e)
    {rest : List Symbol} (hrest : (rest.headD Symbol.finish).kind ≠ .semicolon) :
    Parses K (run .item) (w ++ Symbol.mark .semicolon :: rest)
      (fun n => n.bare = .expression ⟨(), ()⟩ e) rest := by
  have hstatement := parses_statement_of_phrase hw h hrest
  -- Only an identifier could begin a declaration, and the lookahead finds none.
  have hahead := hw.tidy.startsDeclaration_eq_false rest
  obtain ⟨x, more, rfl, hkind⟩ := hw.starts
  refine .call (.position fun first => .next ?_)
  simp only [expressionKinds, List.mem_cons, List.not_mem_nil, or_false] at hkind
  rcases hkind with hk | hk | hk | hk <;> simp only [List.cons_append, List.headD_cons, hk]
  · refine .ahead (.no ?_ hstatement)
    rw [← List.cons_append, hahead]
    exact Bool.false_ne_true
  all_goals exact hstatement

namespace Document

/-- The text of an expression, with parentheses only where they are needed and with a semicolon, is
reported as this expression, without edits and whatever the options are. -/
theorem parse_expression (e : Expr Unit) (h : e.isWellFormed = true) (o : Options) :
    ∃ report, parse (Symbol.spell (e.words ++ [Symbol.mark .semicolon])) o = .ok report ∧
      report.edits = [] ∧ report.module.bare = [.item (.expression ⟨(), ()⟩ e)] := by
  have hphrase := e.phrase_words h
  have hspelled : ∀ s ∈ e.words ++ [Symbol.mark .semicolon], s.Spelled := by
    intro s hs
    rcases List.mem_append.1 hs with hs | hs
    · exact hphrase.spelled s hs
    · rw [List.mem_singleton.1 hs]
      exact Symbol.mark_spelled _ (by decide)
  have hitems : ParsesItems (fun _ => False)
      (Stream.ofSource (Symbol.spell (e.words ++ [Symbol.mark .semicolon]))).symbols
      [.expression ⟨(), ()⟩ e] := by
    rw [Symbol.symbols_spell hspelled]
    exact .cons (by simp) (parses_item_of_phrase hphrase (Expr.reads h) (by decide)) .nil
  obtain ⟨report, R, hparse, hmodule, hedits, hR⟩ := parse_of_symbols hitems o
  have hnone : R = [] := List.eq_nil_iff_forall_not_mem.2 fun r hr => hR r hr
  refine ⟨report, hparse, ?_, hmodule⟩
  rw [hedits, hnone]
  rfl

/-- An expression of all forms. Three of its parts need parentheses. -/
def ladder : Expr Unit :=
  let name (s : String) : Expr Unit := .identifier () (ascii s)
  let minus := Expr.binary () .arithmetic (ascii "-")
  let call := Expr.call () (name "g") [name "h", .literal () .float (ascii "1.0")]
  .binary () .assignment (ascii "=") (name "a")
    (.conditional () (.sequence () [name "b", name "c"])
      (minus (name "d")
        (.binary () .arithmetic (ascii "*") (minus (name "e") (name "f"))
          (.literal () .int (ascii "2"))))
      (.member ()
        (.unary () (ascii "-") .before
          (.unary () (ascii "++") .after (.unsized () (.index () call (name "i")))))
        (ascii "x")))

theorem parse_expression_ladder :
    Symbol.spell (ladder.words ++ [Symbol.mark .semicolon]) =
      ascii "a = ( b , c ) ? d - ( e - f ) * 2 : ( - g ( h , 1.0 ) [ i ] [ ] ++ ) . x ;" ∧
    ∃ report, parse (Symbol.spell (ladder.words ++ [Symbol.mark .semicolon])) Options.all =
        .ok report ∧
      report.edits = [] ∧ report.module.bare = [.item (.expression ⟨(), ()⟩ ladder)] :=
  ⟨by decide +kernel, parse_expression ladder (by decide +kernel) Options.all⟩

end Document

end ShaderRepair

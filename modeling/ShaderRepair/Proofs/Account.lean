import ShaderRepair.Proofs.Carry

/-!
# Accounts

An account says what has been read since a rule started. Every small procedure adds to the account
in its own way, so that the body of a rule can be followed step by step. This file contains:
- `Adds`, the atoms that a symbol adds;
- `Reaches`, the account;
- `Procedure.Delivers`, the contract of a procedure that is part of a rule, and `Fills`, the one of
  a procedure that reads an item or a statement;
- one lemma for each small procedure.
-/

namespace ShaderRepair

/-- Keywords and punctuation: the symbols that can be passed and are no atoms. -/
def Kind.isBare : Kind → Bool
  | .identifier | .literal | .operator | .error | .endOfInput => false
  | _ => true

namespace Grammar

open Passage Procedure

variable {α β : Type}

/-! ## Symbols that are read -/

/-- The symbol can be passed, and adds these atoms. -/
structure Adds (x : Symbol) (as : List Atom) : Prop where
  passable : Passable x
  atoms : Ordinary x → x.atom?.toList = as

namespace Adds

variable {x : Symbol} {k : Kind} {r : Role}

theorem bare (hx : x.kind = k) (hk : k.isBare = true) : Adds x [] := by
  subst hx
  refine ⟨⟨?_, ?_⟩, fun _ => ?_⟩
  · intro h
    rw [h] at hk
    cases hk
  · intro h
    rw [h] at hk
    cases hk
  · unfold Symbol.atom? Atom.ofLexeme
    split
    · next h => simp [h, Kind.isBare] at hk
    · next h => simp [h, Kind.isBare] at hk
    · next h => simp [h, Kind.isBare] at hk
    · rfl

theorem identifier (hx : x.kind = .identifier) : Adds x [.identifier x.lexeme] :=
  ⟨.of_kind hx (by decide), fun _ => by simp [Symbol.atom?, Atom.ofLexeme, hx]⟩

theorem literal (hx : x.kind = .literal) : Adds x [.literal x.tags.literal x.lexeme] :=
  ⟨.of_kind hx (by decide), fun _ => by simp [Symbol.atom?, Atom.ofLexeme, hx]⟩

theorem operator (hx : x.plays r = true) : Adds x [.operator x.lexeme] :=
  ⟨.of_plays hx, fun _ => by simp [Symbol.atom?, Atom.ofLexeme, Symbol.kind_of_plays hx]⟩

theorem questionMark (hx : x.plays .conditional = true) :
    Adds x [.operator (Text.ascii "?")] := by
  refine ⟨.of_plays hx, fun hord => ?_⟩
  simp [Symbol.atom?, Atom.ofLexeme, Symbol.kind_of_plays hx, hord.conditional hx]

theorem equals (hx : equals.accepts x = true) : Adds x [.operator (Text.ascii "=")] := by
  refine ⟨.of_accepts hx (by decide), fun _ => ?_⟩
  simp only [Grammar.equals, Expectation.accepts, Bool.and_eq_true, decide_eq_true_eq] at hx
  simp [Symbol.atom?, Atom.ofLexeme, hx.1, hx.2]

end Adds

/-! ## Accounts -/

/-- Since the state `s₀`, where the content `c₀` was at hand, the content `c` has been read. -/
structure Reaches (s₀ : State) (c₀ : Content) (s : State) (c : Content) : Prop where
  holds : Holds c₀ s₀
  carries : Carries s₀ s c₀ c

/-- The procedure makes its content of what it holds. -/
def Procedure.Delivers (p : Procedure α) (held : Content) (content : α → Content) : Prop :=
  ∀ s, Holds held s → p.Safe (fun a t => Carries s t held (content a)) s

/-- A node that goes from the first symbol passed to the last one. -/
structure Fills (s : State) (n : Item) (t : State) : Prop where
  carries : Carries s t [] [n.passage]
  extent : n.extent = ⟨s.passed, t.passed - 1⟩

namespace Procedure.Safe

variable {s : State} {Q : β → State → Prop}

theorem next {f : Symbol → Procedure β} (h : (f s.next).Safe Q s) :
    (Procedure.next >>= f).Safe Q s :=
  h

theorem second {f : Symbol → Procedure β} (h : (f s.second).Safe Q s) :
    (Procedure.second >>= f).Safe Q s :=
  h

theorem position {f : Nat → Procedure β} (h : (f s.passed).Safe Q s) :
    (Procedure.position >>= f).Safe Q s :=
  h

theorem extentFrom {first : Nat} {f : Extent Nat → Procedure β}
    (h : (f ⟨first, s.passed - 1⟩).Safe Q s) : (Procedure.extentFrom first >>= f).Safe Q s :=
  h

theorem tail {p : Procedure β} (h : (p >>= pure).Safe Q s) : p.Safe Q s := by
  rwa [bind_pure] at h

/-- A procedure that goes on only with one of the expected symbols. -/
theorem expect {expected : List Expectation} {f : Name Nat → Procedure β} (hne : expected ≠ [])
    (hf : (expected.any fun e => e.accepts s.next) = true → (Procedure.take >>= f).Safe Q s) :
    (Procedure.expect expected >>= f).Safe Q s := by
  change ((if expected.any (fun e => e.accepts s.next) then Procedure.take
    else .here fun n => .reject n expected).bind f).Safe Q s
  split
  · next hx => exact hf hx
  · exact ⟨Nat.le_refl _, hne⟩

end Procedure.Safe

namespace Reaches

variable {s₀ s : State} {c₀ c c' : Content} {Q : β → State → Prop}

theorem start (h : Holds c₀ s₀) : Reaches s₀ c₀ s₀ c₀ :=
  ⟨h, .refl s₀ c₀⟩

theorem cast (h : Reaches s₀ c₀ s c) (hc : c = c') : Reaches s₀ c₀ s c' :=
  hc ▸ h

theorem le (h : Reaches s₀ c₀ s c) : s₀.passed ≤ s.passed :=
  h.carries.le

theorem step {t : State} {d d' : Content} (h : Reaches s₀ c₀ s (c ++ d)) (ht : Carries s t d d') :
    Reaches s₀ c₀ t (c ++ d') :=
  ⟨h.holds, h.carries.trans (ht.frame c)⟩

/-- A step that changes nothing of what has been read. -/
theorem same {t : State} (h : Reaches s₀ c₀ s c) (ht : Carries s t [] []) : Reaches s₀ c₀ t c := by
  rw [← List.append_nil c] at h ⊢
  exact h.step ht

theorem node {n : Item} (h : Reaches s₀ c₀ s n.parts) (hc : c₀ = []) (hlt : s₀.passed < s.passed)
    (hx : n.extent = ⟨s₀.passed, s.passed - 1⟩) : Fills s₀ n s := by
  subst hc
  refine ⟨?_, hx⟩
  rw [Node.passage, hx]
  exact h.carries.span hlt

/-! ### Passing symbols -/

section Passing

variable {as : List Atom}

theorem shift (h : Reaches s₀ c₀ s c) (hx : Adds s.next as) :
    Reaches s₀ c₀ s.shift (c ++ as.map .atom) :=
  ⟨h.holds, h.carries.trans (.shift hx.passable hx.atoms)⟩

theorem passed_shift (hx : Passable s.next) : s.shift.passed = s.passed + 1 := by
  obtain ⟨more, hrest⟩ := State.rest_of_next rfl hx.2
  rw [State.shift_of_rest hrest]

theorem take {f : Name Nat → Procedure β} (h : Reaches s₀ c₀ s c) (hx : Adds s.next as)
    (hf : ∀ t, t.passed = s.passed + 1 → Reaches s₀ c₀ t (c ++ as.map .atom) →
      (f ⟨s.next.lexeme, s.passed⟩).Safe Q t) :
    (Procedure.take >>= f).Safe Q s :=
  ⟨hx.passable, hf s.shift (passed_shift hx.passable) (h.shift hx)⟩

theorem accept {e : Expectation} {f : Bool → Procedure β} (h : Reaches s₀ c₀ s c)
    (hx : e.accepts s.next = true → Adds s.next as)
    (hyes : ∀ t, t.passed = s.passed + 1 → Reaches s₀ c₀ t (c ++ as.map .atom) →
      (f true).Safe Q t)
    (hno : (f false).Safe Q s) :
    (Procedure.accept e >>= f).Safe Q s := by
  change ((if e.accepts s.next then .shift (.done true) else .done false : Procedure Bool).bind
    f).Safe Q s
  split
  · next he =>
    have hadds := hx he
    exact ⟨hadds.passable, hyes s.shift (passed_shift hadds.passable) (h.shift hadds)⟩
  · exact hno

/-! ### Marks and names -/

section Marks

variable {k : Kind} (hk : k.isBare = true)
include hk

/-- A symbol that leaves no trace. -/
theorem take_mark {f : Name Nat → Procedure β} (h : Reaches s₀ c₀ s c) (hx : s.next.kind = k)
    (hf : ∀ t, t.passed = s.passed + 1 → Reaches s₀ c₀ t c →
      (f ⟨s.next.lexeme, s.passed⟩).Safe Q t) :
    (Procedure.take >>= f).Safe Q s :=
  h.take (.bare hx hk) fun t ht h' => hf t ht (h'.cast (by simp))

theorem expect_mark {f : Name Nat → Procedure β} (h : Reaches s₀ c₀ s c)
    (hf : ∀ t, t.passed = s.passed + 1 → Reaches s₀ c₀ t c →
      (f ⟨s.next.lexeme, s.passed⟩).Safe Q t) :
    (Procedure.expect [.kind k] >>= f).Safe Q s := by
  refine .expect (by simp) fun hx => ?_
  simp only [List.any_cons, List.any_nil, Bool.or_false, Expectation.accepts,
    decide_eq_true_eq] at hx
  exact h.take_mark hk hx hf

theorem accept_mark {f : Bool → Procedure β} (h : Reaches s₀ c₀ s c)
    (hyes : ∀ t, t.passed = s.passed + 1 → Reaches s₀ c₀ t c → (f true).Safe Q t)
    (hno : (f false).Safe Q s) :
    (Procedure.accept (.kind k) >>= f).Safe Q s := by
  refine h.accept (fun hx => (?_ : Adds s.next [])) (fun t ht h' => hyes t ht (h'.cast (by simp)))
    hno
  simp only [Expectation.accepts, decide_eq_true_eq] at hx
  exact .bare hx hk

/-- A mark that may be missing. -/
theorem orMissing {m : Missing} {f : Unit → Procedure β} (h : Reaches s₀ c₀ s c)
    (hm : ∀ type first, m ≠ .conversion type first)
    (hf : ∀ t, s.passed ≤ t.passed → Reaches s₀ c₀ t c → (f ()).Safe Q t) :
    (Procedure.orMissing k m >>= f).Safe Q s := by
  rw [Procedure.orMissing, bind_assoc]
  refine h.accept_mark hk (fun t ht h' => ?_) ?_
  · exact hf t (by omega) h'
  · exact ⟨fun type first he => absurd he (hm type first),
      hf (s.repair m) (Nat.le_refl _) (h.same (.repair s m []))⟩

end Marks

theorem take_name {f : Name Nat → Procedure β} (h : Reaches s₀ c₀ s c)
    (hx : s.next.kind = .identifier)
    (hf : ∀ n t, t.passed = s.passed + 1 → Reaches s₀ c₀ t (c ++ [n.passage]) → (f n).Safe Q t) :
    (Procedure.take >>= f).Safe Q s :=
  h.take (.identifier hx) fun t ht h' => hf _ t ht h'

theorem expect_name {f : Name Nat → Procedure β} (h : Reaches s₀ c₀ s c)
    (hf : ∀ n t, t.passed = s.passed + 1 → Reaches s₀ c₀ t (c ++ [n.passage]) → (f n).Safe Q t) :
    (Procedure.expect [.kind .identifier] >>= f).Safe Q s := by
  refine .expect (by simp) fun hx => ?_
  simp only [List.any_cons, List.any_nil, Bool.or_false, Expectation.accepts,
    decide_eq_true_eq] at hx
  exact h.take_name hx hf

end Passing

/-- A semicolon that is there is passed. -/
theorem statementEnd_of_semicolon {f : Unit → Procedure β} (h : Reaches s₀ c₀ s c)
    (hx : s.next.kind = .semicolon)
    (hf : ∀ t, s.passed < t.passed → Reaches s₀ c₀ t c → (f ()).Safe Q t) :
    (Procedure.statementEnd >>= f).Safe Q s := by
  change ((if s.next.kind = .semicolon then .skipSemicolons (.done ())
    else note .semicolon : Procedure Unit).bind f).Safe Q s
  rw [if_pos hx]
  refine hf s.skipSemicolons ?_ (h.same (.skipSemicolons s []))
  obtain ⟨more, hrest⟩ := State.rest_of_next rfl (Passable.of_kind hx (by decide)).2
  simp [State.skipSemicolons, hrest, hx]

section Punctuation

variable {f : Unit → Procedure β} (h : Reaches s₀ c₀ s c)
  (hf : ∀ t, s.passed ≤ t.passed → Reaches s₀ c₀ t c → (f ()).Safe Q t)
include h hf

theorem colon : (Procedure.colon >>= f).Safe Q s :=
  h.orMissing (by decide) (fun _ _ hm => nomatch hm) hf

theorem comma : (Procedure.comma >>= f).Safe Q s :=
  h.orMissing (by decide) (fun _ _ hm => nomatch hm) hf

theorem leftParen : (Procedure.leftParen >>= f).Safe Q s :=
  h.orMissing (by decide) (fun _ _ hm => nomatch hm) hf

theorem rightParen : (Procedure.rightParen >>= f).Safe Q s :=
  h.orMissing (by decide) (fun _ _ hm => nomatch hm) hf

theorem clauseEnd : (Procedure.clauseEnd >>= f).Safe Q s :=
  h.orMissing (by decide) (fun _ _ hm => nomatch hm) hf

theorem statementEnd : (Procedure.statementEnd >>= f).Safe Q s := by
  change ((if s.next.kind = .semicolon then .skipSemicolons (.done ())
    else note .semicolon : Procedure Unit).bind f).Safe Q s
  split
  · exact hf s.skipSemicolons (Nat.le_add_right _ _) (h.same (.skipSemicolons s []))
  · exact ⟨fun type first hm => (nomatch hm),
      hf (s.repair .semicolon) (Nat.le_refl _) (h.same (.repair s _ []))⟩

end Punctuation

/-! ### Calls -/

/-- Going on with what a part of a rule makes. -/
theorem use_held {p : Procedure α} {held : Content} {content : α → Content} {f : α → Procedure β}
    (h : Reaches s₀ c₀ s (c ++ held)) (hp : p.Delivers held content)
    (hf : ∀ a t, Carries s t held (content a) → Reaches s₀ c₀ t (c ++ content a) →
      (f a).Safe Q t) :
    (p >>= f).Safe Q s :=
  .bind (hp s (h.carries.holds h.holds).of_append) fun a t ht => hf a t ht (h.step ht)

theorem use {p : Procedure α} {content : α → Content} {f : α → Procedure β}
    (h : Reaches s₀ c₀ s c) (hp : p.Delivers [] content)
    (hf : ∀ a t, Carries s t [] (content a) → Reaches s₀ c₀ t (c ++ content a) → (f a).Safe Q t) :
    (p >>= f).Safe Q s :=
  (h.cast (List.append_nil c).symm).use_held hp hf

theorem use_some {p : Procedure α} {content : α → Content} {f : Option α → Procedure β}
    (h : Reaches s₀ c₀ s c) (hp : p.Delivers [] content)
    (hf : ∀ a t, Carries s t [] (content a) → Reaches s₀ c₀ t (c ++ content a) →
      (f (some a)).Safe Q t) :
    (some <$> p >>= f).Safe Q s := by
  rw [map_eq_pure_bind, bind_assoc]
  exact h.use hp hf

/-- Calling a rule of whose result more is known. -/
theorem call {r : Rule} {f : r.Result → Procedure β} (h : Reaches s₀ c₀ s c) (hr : r.held = [])
    (hf : ∀ a t, r.Post s a t → Reaches s₀ c₀ t (c ++ r.content a) → (f a).Safe Q t) :
    (Procedure.run r >>= f).Safe Q s := by
  refine ⟨hr ▸ Holds.nil s, fun a t ht => hf a t ht ?_⟩
  have hcarries := ht.carries
  rw [hr] at hcarries
  exact (h.cast (List.append_nil c).symm).step hcarries

/-! ### New expressions -/

/-- What has been read are the parts of an expression, which is built of them. -/
theorem build {e : Tree} (h : Reaches s₀ c₀ s e.parts)
    (hlaid : ∀ start, Laid start e.parts s.passed → Laid start c₀ s₀.passed →
      Laid start [.expr e] s.passed) :
    (∃ base, s.pending = e.children.reverse ++ base) ∧ Reaches s₀ c₀ (s.build e) [.expr e] := by
  obtain ⟨base, hb⟩ := h.carries.holds h.holds
  rw [Expr.exprsAll_parts] at hb
  obtain ⟨w, hrest, hpassed, hatoms⟩ := h.carries.words
  refine ⟨⟨base, hb⟩, h.holds, ⟨w, hrest, hpassed, fun hord => ?_⟩, fun base hbase => ?_,
    fun start hl => ?_⟩
  · rw [hatoms hord, Expr.atomsAll_parts]
    simp
  · have hpending := h.carries.pending base hbase
    rw [Expr.exprsAll_parts] at hpending
    simp [State.build, hpending, List.drop_left']
  · exact hlaid start (h.carries.laid start hl) hl

/-- An expression that begins with the first symbol since the start. -/
theorem make {f : Extent Nat → Tree} {k : Tree → Procedure β}
    (h : Reaches s₀ c₀ s (f ⟨s₀.passed, s.passed - 1⟩).parts) (hc : c₀ = [])
    (hnote : ∀ x, (f x).note = x) (hlt : s₀.passed < s.passed)
    (hk : ∀ e t, s.passed ≤ t.passed → Reaches s₀ c₀ t [.expr e] → (k e).Safe Q t) :
    (Procedure.make s₀.passed f >>= k).Safe Q s := by
  subst hc
  have hparts := h.carries.laid s₀.passed (.nil (Nat.le_refl _))
  obtain ⟨hoperands, hreaches⟩ := h.build fun start _ hl =>
    (hparts.expr hlt (hnote _)).mono hl.le (Nat.le_refl _)
  exact ⟨hoperands, hk _ _ (Nat.le_refl _) hreaches⟩

/-- An expression that begins with its left operand. -/
theorem make_left {l : Tree} {more : Content} {f : Extent Nat → Tree} {k : Tree → Procedure β}
    (h : Reaches s₀ c₀ s (f ⟨l.note.first, s.passed - 1⟩).parts)
    (hl : ∀ x, (f x).parts = .expr l :: more) (hnote : ∀ x, (f x).note = x)
    (hk : ∀ e t, s.passed ≤ t.passed → Reaches s₀ c₀ t [.expr e] → (k e).Safe Q t) :
    (Procedure.make l.note.first f >>= k).Safe Q s := by
  obtain ⟨hoperands, hreaches⟩ := h.build fun start hparts _ => by
    rw [hl] at hparts
    obtain ⟨hle, htight⟩ := hparts.tighten
    have hlt : l.note.first < s.passed := htight.row.lt (by simp)
    rw [← hl ⟨l.note.first, s.passed - 1⟩] at htight
    exact (htight.expr hlt (hnote _)).mono hle (Nat.le_refl _)
  exact ⟨hoperands, hk _ _ (Nat.le_refl _) hreaches⟩

/-- Parentheses around an expression. -/
theorem widen {inner : Tree} (h : Reaches s₀ [] s [.expr inner]) :
    Reaches s₀ [] (s.widen (inner.setNote ⟨s₀.passed, s.passed - 1⟩))
      [.expr (inner.setNote ⟨s₀.passed, s.passed - 1⟩)] := by
  refine ⟨h.holds, ⟨?_, fun base hb => ?_, fun start hl => ?_⟩⟩
  · simpa [State.widen] using h.carries.words
  · have hpending := h.carries.pending base hb
    simp [State.widen, hpending]
  · exact (h.carries.laid s₀.passed (.nil (Nat.le_refl _))).setNote.mono hl.le (Nat.le_refl _)

end Reaches

namespace Procedure.Delivers

/-- A rule keeps its contract where it is called. -/
theorem run (r : Rule) : (Procedure.run r).Delivers r.held r.content :=
  fun _ hs => ⟨hs, fun _ _ ht => ht.carries⟩

end Procedure.Delivers

end Grammar

end ShaderRepair

import Mathlib.Data.List.TakeWhile
import ShaderRepair.Proofs.Laid
import ShaderRepair.Proofs.RetraceStatement

/-!
# Contracts of rules

A run of a rule turns the symbols it passes into a tree: what the tree says, read in order, is what
was passed, its expressions are the ones that were built, and its extents are laid out between the
symbols passed. A rule may be called only where what it goes on with is at hand. This file contains:
- `Carries`, which relates what has been read in one state to what has been read in a later one;
- `Rule.held` and `Rule.content`, what a rule is handed and what it makes of it;
- `Procedure.Safe`, the weakest precondition of a procedure: no step of it gets stuck, the rules
  it calls are handed what they need, and if these keep their contracts it ends as it should;
- `Rule.Safe`, which says so of the body of a rule with its contract.
-/

namespace ShaderRepair

namespace Grammar

open Passage

/-! ## What has been read -/

/-- The only operator of a conditional is the question mark, and `shared` is no identifier. So it is
with the symbols of a source. -/
structure Ordinary (x : Symbol) : Prop where
  conditional : x.plays .conditional = true → x.lexeme = Text.ascii "?"
  identifier : x.kind = .identifier → x.lexeme ≠ Text.ascii "shared"

/-- Between the states the content `c` has become `c'`: the atoms of the symbols passed have been
added, the expressions pending are those of the content, and the symbols passed are where new
extents are. -/
structure Carries (s t : State) (c c' : Content) : Prop where
  words : ∃ w, s.rest = w ++ t.rest ∧ t.passed = s.passed + w.length ∧
    ((∀ x ∈ w, Ordinary x) → atomsAll c ++ w.filterMap Symbol.atom? = atomsAll c')
  pending : ∀ base, s.pending = (exprsAll c).reverse ++ base →
    t.pending = (exprsAll c').reverse ++ base
  laid : ∀ start, Laid start c s.passed → Laid start c' t.passed

namespace Carries

variable {s t u : State} {c c' c'' : Content}

theorem refl (s : State) (c : Content) : Carries s s c c :=
  ⟨⟨[], by simp⟩, fun _ h => h, fun _ h => h⟩

theorem trans (h : Carries s t c c') (h' : Carries t u c' c'') : Carries s u c c'' := by
  obtain ⟨w, hrest, hpassed, hatoms⟩ := h.words
  obtain ⟨w', hrest', hpassed', hatoms'⟩ := h'.words
  refine ⟨⟨w ++ w', ?_, ?_, ?_⟩, fun base hb => h'.pending base (h.pending base hb),
    fun start hl => h'.laid start (h.laid start hl)⟩
  · rw [hrest, hrest', List.append_assoc]
  · rw [hpassed', hpassed, List.length_append, Nat.add_assoc]
  · intro hord
    rw [List.filterMap_append, ← List.append_assoc,
      hatoms fun x hx => hord x (List.mem_append_left _ hx),
      hatoms' fun x hx => hord x (List.mem_append_right _ hx)]

/-- What was read before stays in front. -/
theorem frame (c₀ : Content) (h : Carries s t c c') : Carries s t (c₀ ++ c) (c₀ ++ c') := by
  obtain ⟨w, hrest, hpassed, hatoms⟩ := h.words
  refine ⟨⟨w, hrest, hpassed, ?_⟩, ?_, ?_⟩
  · intro hord
    rw [atomsAll_append, List.append_assoc, hatoms hord, atomsAll_append]
  · intro base hb
    rw [exprsAll_append, List.reverse_append, List.append_assoc] at hb ⊢
    exact h.pending _ hb
  · intro start hl
    obtain ⟨mid, hc₀, hc⟩ := Laid.append.1 hl
    exact Laid.append.2 ⟨mid, hc₀, h.laid mid hc⟩

theorem le (h : Carries s t c c') : s.passed ≤ t.passed := by
  obtain ⟨w, -, hpassed, -⟩ := h.words
  omega

/-- Passed symbols and symbols left add up to the same. -/
theorem total (h : Carries s t c c') :
    t.passed + t.rest.length = s.passed + s.rest.length := by
  obtain ⟨w, hrest, hpassed, -⟩ := h.words
  rw [hrest, List.length_append]
  omega

/-- Where something has been read that takes place, symbols have been passed. -/
theorem lt (h : Carries s t [] c) (hc : extents c ≠ []) : s.passed < t.passed :=
  (h.laid s.passed (.nil (Nat.le_refl _))).row.lt hc

/-- So they have where atoms have been read. -/
theorem lt_of_atoms (h : Carries s t [] c) (hc : atomsAll c ≠ []) : s.passed < t.passed := by
  obtain ⟨w, -, hpassed, hatoms⟩ := h.words
  cases w with
  | nil => exact absurd (hatoms (fun _ hx => nomatch hx)).symm hc
  | cons x w =>
    rw [List.length_cons] at hpassed
    omega

/-! ### Single steps -/

/-- Passing a symbol that means these atoms. -/
theorem shift {as : List Atom} (hx : Passable s.next)
    (ha : Ordinary s.next → s.next.atom?.toList = as) :
    Carries s s.shift c (c ++ as.map .atom) := by
  obtain ⟨more, hrest⟩ := State.rest_of_next rfl hx.2
  rw [State.shift_of_rest hrest]
  refine ⟨⟨[s.next], hrest, rfl, ?_⟩, ?_, ?_⟩
  · intro hord
    have hread : [s.next].filterMap Symbol.atom? = as := by
      rw [← ha (hord _ (List.mem_singleton_self _))]
      cases hatom : s.next.atom? <;> simp [hatom]
    rw [hread, atomsAll_append, atomsAll_map_atom]
  · intro base hb
    rw [exprsAll_append, exprsAll_map_atom, List.append_nil]
    exact hb
  · intro start hl
    exact (hl.mono (Nat.le_refl _) (Nat.le_succ _)).atoms as

theorem skipSemicolons (s : State) (c : Content) : Carries s s.skipSemicolons c c := by
  have hmarks : (s.rest.takeWhile fun x => x.kind = .semicolon).filterMap Symbol.atom? = [] := by
    rw [List.filterMap_eq_nil_iff]
    intro x hx
    have hkind : x.kind = .semicolon := by simpa using List.mem_takeWhile_imp hx
    simp [Symbol.atom?, Atom.ofLexeme, hkind]
  refine ⟨⟨s.rest.takeWhile fun x => x.kind = .semicolon, ?_, rfl, ?_⟩, fun _ hb => hb, ?_⟩
  · exact (List.prefix_iff_eq_append.1 (List.takeWhile_prefix _)).symm
  · intro _
    rw [hmarks, List.append_nil]
  · exact fun start hl => hl.mono (Nat.le_refl _) (Nat.le_add_right _ _)

theorem repair (s : State) (m : Missing) (c : Content) : Carries s (s.repair m) c c :=
  ⟨⟨[], by simp [State.repair]⟩, fun _ h => h, fun _ h => h⟩

/-- A span around everything that has been read. -/
theorem span (h : Carries s t [] c) (hlt : s.passed < t.passed) :
    Carries s t [] [.span ⟨s.passed, t.passed - 1⟩ c] := by
  obtain ⟨w, hrest, hpassed, hatoms⟩ := h.words
  refine ⟨⟨w, hrest, hpassed, fun hord => ?_⟩, fun base hb => ?_, fun start hl => ?_⟩
  · simpa using hatoms hord
  · simpa using h.pending base hb
  · have hspan := (h.laid s.passed (.nil (Nat.le_refl _))).span hlt
    exact hspan.mono hl.le (Nat.le_refl _)

end Carries

/-! ## What a rule is handed and what it makes -/

/-- What a rule goes on with. -/
def Rule.held : Rule → Content
  | .qualifiers found => found.passages
  | .vars _ name => [name.passage]
  | .binaryRest _ left => [.expr left]
  | .suffixes object => [.expr object]
  | _ => []

/-- What a rule makes of it. -/
def Rule.content : (r : Rule) → r.Result → Content
  | .item, n => [n.passage]
  | .items _, ns => Node.passagesAll ns
  | .statement, n => [n.passage]
  | .cases, cs => Case.passagesAll cs
  | .qualifiers _, q => q.passages
  | .layoutParams, ps => ps.flatMap LayoutParam.passages
  | .dims, ds => sizes ds
  | .declarators, ds => ds.flatMap Declarator.passages
  | .vars _ _, ds => ds.flatMap Declarator.passages
  | .members, ms => ms.map Member.passage
  | .params, ps => ps.flatMap Param.passages
  | .names, ns => ns.map Name.passage
  | .expression, e => [.expr e]
  | .sequence, es => es.map .expr
  | .assignment, e => [.expr e]
  | .conditional, e => [.expr e]
  | .binary _, e => [.expr e]
  | .binaryRest _ _, e => [.expr e]
  | .unary, e => [.expr e]
  | .suffixes _, e => [.expr e]
  | .arguments, es => es.map .expr
  | .primary, e => [.expr e]
  | .initializer, e => [.expr e]
  | .elements, es => es.map .expr

/-- What else is known of a result: an item or a statement goes from the first symbol passed to the
last one, and there is at least one among names. -/
def Rule.Detail : (r : Rule) → State → r.Result → State → Prop
  | .item, s, n, t => n.extent = ⟨s.passed, t.passed - 1⟩
  | .statement, s, n, t => n.extent = ⟨s.passed, t.passed - 1⟩
  | .names, _, ns, _ => ns ≠ []
  | _, _, _, _ => True

/-- The expressions of some content are the latest ones pending. -/
def Holds (c : Content) (s : State) : Prop :=
  ∃ base, s.pending = (exprsAll c).reverse ++ base

theorem Holds.nil (s : State) : Holds [] s :=
  ⟨s.pending, rfl⟩

theorem Holds.of_append {c c' : Content} {s : State} (h : Holds (c ++ c') s) : Holds c' s := by
  obtain ⟨base, hb⟩ := h
  rw [exprsAll_append, List.reverse_append, List.append_assoc] at hb
  exact ⟨_, hb⟩

theorem Carries.holds {s t : State} {c c' : Content} (h : Carries s t c c') (hc : Holds c s) :
    Holds c' t := by
  obtain ⟨base, hb⟩ := hc
  exact ⟨base, h.pending base hb⟩

/-- What a rule guarantees when it accepts. -/
structure Rule.Post (r : Rule) (s : State) (a : r.Result) (t : State) : Prop where
  carries : Carries s t r.held (r.content a)
  detail : r.Detail s a t

/-! ## Safe procedures -/

namespace Procedure

variable {α β : Type}

/-- No step of the procedure gets stuck: it passes only what can be passed, builds expressions of
the latest ones and widens the latest one, names only symbols that it has come to, and always says
what it expected. The rules it calls are handed what they go on with. If they keep their contracts
the procedure ends with `Q`. -/
def Safe (Q : α → State → Prop) : Procedure α → State → Prop
  | .done a, s => Q a s
  | .look k, s => (k s.next s.second).Safe Q s
  | .ahead k, s => (k (Symbol.startsDeclaration s.rest)).Safe Q s
  | .here k, s => (k s.passed).Safe Q s
  | .shift k, s => Passable s.next ∧ k.Safe Q s.shift
  | .skipSemicolons k, s => k.Safe Q s.skipSemicolons
  | .repair m k, s => (∀ type first, m = .conversion type first → first < s.passed) ∧
      k.Safe Q (s.repair m)
  | .build e k, s => (∃ base, s.pending = e.children.reverse ++ base) ∧ k.Safe Q (s.build e)
  | .widen e k, s => (∃ inner base, s.pending = inner :: base ∧ e = inner.setNote e.note) ∧
      k.Safe Q (s.widen e)
  | .reject index expected, s => index ≤ s.passed ∧ expected ≠ []
  | .call r k, s => Holds r.held s ∧ ∀ a t, r.Post s a t → (k a).Safe Q t

namespace Safe

variable {Q : α → State → Prop} {R : β → State → Prop} {s : State}

theorem bind {p : Procedure α} {f : α → Procedure β} (hp : p.Safe Q s)
    (hf : ∀ a t, Q a t → (f a).Safe R t) : (p >>= f).Safe R s := by
  change (p.bind f).Safe R s
  induction p generalizing s with
  | done a => exact hf a s hp
  | look k ih => exact ih _ _ hp
  | ahead k ih => exact ih _ hp
  | here k ih => exact ih _ hp
  | shift k ih => exact ⟨hp.1, ih hp.2⟩
  | skipSemicolons k ih => exact ih hp
  | repair m k ih => exact ⟨hp.1, ih hp.2⟩
  | build e k ih => exact ⟨hp.1, ih hp.2⟩
  | widen e k ih => exact ⟨hp.1, ih hp.2⟩
  | reject index expected => exact hp
  | call r k ih => exact ⟨hp.1, fun a t ha => ih a (hp.2 a t ha)⟩

theorem mono {Q' : α → State → Prop} {p : Procedure α} (h : p.Safe Q s)
    (hQ : ∀ a t, Q a t → Q' a t) : p.Safe Q' s := by
  have hdone : (p.bind .done).Safe Q' s := h.bind (f := .done) hQ
  rwa [bind_done] at hdone

/-- If the rules called keep their contracts, a safe procedure ends as it should. -/
theorem sound {callee : (r : Rule) → State → Outcome r.Result} {p : Procedure α} (h : p.Safe Q s)
    (hcallee : ∀ r s a t, Holds r.held s → callee r s = .accepted a t → r.Post s a t)
    {a : α} {t : State} (hp : p.exec callee s = .accepted a t) : Q a t := by
  induction p generalizing s with
  | done b =>
    cases hp
    exact h
  | look k ih => exact ih _ _ h hp
  | ahead k ih => exact ih _ h hp
  | here k ih => exact ih _ h hp
  | shift k ih => exact ih h.2 hp
  | skipSemicolons k ih => exact ih h hp
  | repair m k ih => exact ih h.2 hp
  | build e k ih => exact ih h.2 hp
  | widen e k ih => exact ih h.2 hp
  | reject index expected => cases hp
  | call r k ih =>
    rw [exec] at hp
    cases hc : callee r s with
    | accepted b m =>
      rw [hc] at hp
      exact ih b (h.2 b m (hcallee r s b m h.1 hc)) hp
    | rejected why m =>
      rw [hc] at hp
      cases hp

end Safe

end Procedure

/-- A rule is safe if its body keeps the contract wherever it may be called. -/
def Rule.Safe (r : Rule) : Prop :=
  ∀ s, Holds r.held s → r.body.Safe (r.Post s) s

end Grammar

end ShaderRepair

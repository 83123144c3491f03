import ShaderRepair.Proofs.Confine
import ShaderRepair.Proofs.Relocation

/-!
# Runs among the same symbols elsewhere

A procedure does the same among symbols that are met again. Only at the end of these symbols, where
others come behind them the second time, the two runs may part. This file contains:
- `Range`, where a procedure may start and end with regard to the end of the symbols;
- `Relocation.Relocates`, the relation between the two runs of a procedure;
- one rule for each step of a procedure;
- `Starves`, which says that a procedure accepts nothing where no symbols are left;
- `Relocation.RelocatesRules`, what is said of the rules.
-/

namespace ShaderRepair

namespace Grammar

open Procedure

variable {α β γ δ μ : Type}

/-! ## Firm symbols -/

/-- A symbol that can be passed and is no semicolon. -/
structure Firm (x : Symbol) : Prop where
  passable : Passable x
  kind : x.kind ≠ .semicolon

theorem Firm.of_kind {x : Symbol} {k : Kind} (h : x.kind = k)
    (hk : (k ≠ .error ∧ k ≠ .endOfInput) ∧ k ≠ .semicolon) : Firm x :=
  ⟨.of_kind h hk.1, h ▸ hk.2⟩

theorem Firm.of_plays {x : Symbol} {r : Role} (h : x.plays r = true) : Firm x :=
  .of_kind (Symbol.kind_of_plays h) (by decide)

theorem Firm.of_accepts {e : Expectation} {x : Symbol} (h : e.accepts x = true)
    (hk : (e.wants ≠ .error ∧ e.wants ≠ .endOfInput) ∧ e.wants ≠ .semicolon) : Firm x :=
  .of_kind (Expectation.kind_of_accepts h) hk

theorem Firm.of_any {expected : List Expectation} {x : Symbol}
    (h : (expected.any fun e => e.accepts x) = true)
    (hk : ∀ e ∈ expected, (e.wants ≠ .error ∧ e.wants ≠ .endOfInput) ∧ e.wants ≠ .semicolon) :
    Firm x :=
  ⟨.of_any h fun e he => (hk e he).1,
    Expectation.kind_of_any (p := fun k => k ≠ .semicolon) h fun e he => (hk e he).2⟩

/-! ## Ranges -/

/-- Where the runs of a procedure start and end that are compared: `within` for those that start
before the end of the symbols and end before it, `upto` for those that start before it, `beyond`
for all, and `partly` for those that happen to end before it. -/
inductive Range where
  | within
  | upto
  | beyond
  | partly
  deriving DecidableEq

/-- Whether a run from `s` to `t` is compared. -/
def Range.Counts (ρ : Relocation μ) (s t : State) : Range → Prop
  | .within => ρ.Left s
  | .upto => ρ.Left s
  | .beyond => True
  | .partly => ρ.Left t

namespace Relocation

variable {ρ : Relocation μ}

/-- If nothing comes behind the symbols all runs are compared. -/
theorem counts_of_nil (h : ρ.more = []) (g : Range) (s t : State) : g.Counts ρ s t := by
  cases g with
  | beyond => trivial
  | _ => exact .inl h

/-! ## Two runs -/

/-- The numbers of the symbols that do not fit show the same, or both are those behind the last
one. -/
structure Points (ρ : Relocation μ) (why why' : Rejection) : Prop where
  expected : why'.expected = why.expected
  index : ρ.old why.index = ρ.new why'.index ∨
    (why.index = ρ.symbols.length ∧ why'.index = ρ.symbols.length + ρ.offset)

/-- The second run goes the way of the first one to `t`, where at least `high` symbols are
passed. -/
structure Reaches (ρ : Relocation μ) (g : Range) (high : Nat) (R : α → β → Prop) (a : α) (t : State)
    (o' : Outcome β) : Prop where
  accepted : ∃ a' t', o' = .accepted a' t' ∧ R a a' ∧ ρ.Beside t t'
  high : high ≤ t.passed
  left : g = .within → ρ.Left t

/-- How the run from `s` compares with the second run. -/
def Matches (ρ : Relocation μ) (g : Range) (high : Nat) (R : α → β → Prop) (s : State) :
    Outcome α → Outcome β → Prop
  | .accepted a t, o' => g.Counts ρ s t → ρ.Reaches g high R a t o'
  | .rejected why _, o' => ρ.more = [] → ∃ why' t', o' = .rejected why' t' ∧ ρ.Points why why'

/-- From the symbol `x` on, where at least `low` symbols are passed, `p'` does among the symbols
met again what `p` does among those met first. The results are related by `R`. -/
def Relocates (ρ : Relocation μ) (d : Nat) (g : Range) (low high : Nat) (x : Symbol)
    (R : α → β → Prop) (p : Procedure α) (p' : Procedure β) : Prop :=
  ∀ ⦃s s' : State⦄, ρ.Beside s s' → s.next = x → low ≤ s.passed →
    ρ.Matches g high R s (p.exec (Rule.run d) s) (p'.exec (Rule.run d) s')

/-- Names that show the same. -/
abbrev SameName (ρ : Relocation μ) (n n' : Name Nat) : Prop :=
  n.map ρ.old = n'.map ρ.new

/-- Expressions that show the same. -/
abbrev SameTree (ρ : Relocation μ) (e e' : Tree) : Prop :=
  ρ.tree e = ρ.tree' e'

/-- Extents that show the same. -/
abbrev SameExtent (ρ : Relocation μ) (X X' : Extent Nat) : Prop :=
  X.map ρ.old = X'.map ρ.new

/-- Numbers that show the same, or that do so because fewer than `low` symbols come before. -/
def Marks (ρ : Relocation μ) (low i i' : Nat) : Prop :=
  ρ.old i = ρ.new i' ∨ (i < low ∧ i' = i + ρ.offset)

theorem Marks.mono {low low' i i' : Nat} (h : ρ.Marks low i i') (hle : low ≤ low') :
    ρ.Marks low' i i' :=
  h.imp_right fun hi => ⟨Nat.lt_of_lt_of_le hi.1 hle, hi.2⟩

/-- The number of a symbol that has been passed. -/
theorem Marks.passed {low i : Nat} (h : i < low) : ρ.Marks low i (i + ρ.offset) :=
  .inr ⟨h, rfl⟩

theorem Beside.shows {s s' : State} {low i i' : Nat} (h : ρ.Beside s s') (hlow : low ≤ s.passed)
    (hi : ρ.Marks low i i') : ρ.old i = ρ.new i' := by
  rcases hi with hi | ⟨hlt, rfl⟩
  · exact hi
  · exact ρ.agrees i (Nat.lt_of_lt_of_le hlt (Nat.le_trans hlow h.within))

/-- The next symbols have numbers that show the same, if there are any. -/
theorem Beside.points {s s' : State} (h : ρ.Beside s s') (expected : List Expectation) :
    ρ.Points ⟨s.passed, expected⟩ ⟨s'.passed, expected⟩ := by
  refine ⟨rfl, ?_⟩
  rw [h.passed]
  rcases Nat.lt_or_eq_of_le h.within with hlt | heq
  · exact .inl (ρ.agrees _ hlt)
  · exact .inr ⟨heq, by rw [heq]⟩

/-- A run that starts before the end of the symbols is compared. -/
theorem Matches.beyond {high : Nat} {R : α → β → Prop} {s m : State} {o : Outcome α}
    {o' : Outcome β} (h : ρ.Matches .upto high R m o o') (hm : ρ.Left m) :
    ρ.Matches .beyond high R s o o' := by
  cases o with
  | accepted a t =>
    intro _
    obtain ⟨hacc, hhigh, -⟩ := h hm
    exact ⟨hacc, hhigh, nofun⟩
  | rejected why t => exact h

/-- Only runs that start before the end of the symbols have to be compared. -/
theorem Matches.of_left {d : Nat} {g : Range} {high : Nat} {R : α → β → Prop} {s : State}
    {p : Procedure α} {o' : Outcome β} (hg : g ≠ .beyond)
    (h : ρ.Left s → ρ.Matches g high R s (p.exec (Rule.run d) s) o') :
    ρ.Matches g high R s (p.exec (Rule.run d) s) o' := by
  by_cases hs : ρ.Left s
  · exact h hs
  · cases hp : p.exec (Rule.run d) s with
    | accepted a t =>
      intro hcounts
      have hle := (recedes_run d).exec p hp
      cases g with
      | beyond => exact absurd rfl hg
      | within => exact absurd hcounts hs
      | upto => exact absurd hcounts hs
      | partly => exact absurd (Left.of_le hcounts hle) hs
    | rejected why t => exact fun hmore => absurd (.inl hmore) hs

namespace Relocates

section Rules

variable {d : Nat} {g : Range} {low mid high : Nat} {x : Symbol} {R : α → β → Prop}
  {Q : γ → δ → Prop} {p : Procedure α} {p' : Procedure β}

/-! ### Weaker statements -/

theorem mono {high' : Nat} {R' : α → β → Prop} (h : ρ.Relocates d g low high x R p p')
    (hhigh : high' ≤ high) (hR : ∀ a b, R a b → R' a b) :
    ρ.Relocates d g low high' x R' p p' := by
  intro s s' hs hx hlow
  have hrun := h hs hx hlow
  cases hp : p.exec (Rule.run d) s with
  | accepted a t =>
    rw [hp] at hrun
    intro hcounts
    obtain ⟨⟨a', t', hp', ha, ht⟩, hreach, hleft⟩ := hrun hcounts
    exact ⟨⟨a', t', hp', hR a a' ha, ht⟩, Nat.le_trans hhigh hreach, hleft⟩
  | rejected why t =>
    rw [hp] at hrun
    exact hrun

/-- More may have been passed than is asked for. -/
theorem later {low' : Nat} (h : ρ.Relocates d g low high x R p p') (hlow : low ≤ low') :
    ρ.Relocates d g low' high x R p p' :=
  fun _ _ hs hx hlow' => h hs hx (Nat.le_trans hlow hlow')

/-- A statement about more runs is one about fewer of them. -/
theorem narrow {g' : Range} (h : ρ.Relocates d g low high x R p p')
    (hg : ∀ s t a, p.exec (Rule.run d) s = .accepted a t → g'.Counts ρ s t → g.Counts ρ s t)
    (hwithin : g' = .within → g = .within) : ρ.Relocates d g' low high x R p p' := by
  intro s s' hs hx hlow
  have hrun := h hs hx hlow
  cases hp : p.exec (Rule.run d) s with
  | accepted a t =>
    rw [hp] at hrun
    intro hcounts
    obtain ⟨hacc, hreach, hleft⟩ := hrun (hg s t a hp hcounts)
    exact ⟨hacc, hreach, fun hw => hleft (hwithin hw)⟩
  | rejected why t =>
    rw [hp] at hrun
    exact hrun

theorem upto (h : ρ.Relocates d .beyond low high x R p p') :
    ρ.Relocates d .upto low high x R p p' :=
  h.narrow (fun _ _ _ _ _ => trivial) nofun

theorem partly (h : ρ.Relocates d g low high x R p p') :
    ρ.Relocates d .partly low high x R p p' := by
  refine h.narrow (fun s t a hp ht => ?_) nofun
  have hs := Left.of_le ht ((recedes_run d).exec p hp)
  cases g with
  | beyond => trivial
  | partly => exact ht
  | within => exact hs
  | upto => exact hs

/-! ### Results and sequences -/

theorem done {a : α} {b : β} (hR : R a b) (hhigh : high ≤ low) :
    ρ.Relocates d g low high x R (.done a) (.done b) := by
  intro s s' hs _ hlow hcounts
  refine ⟨⟨b, s', rfl, hR, hs⟩, Nat.le_trans hhigh hlow, ?_⟩
  rintro rfl
  exact hcounts

theorem pure {a : α} {b : β} (hR : R a b) (hhigh : high ≤ low) :
    ρ.Relocates d g low high x R (Pure.pure a) (Pure.pure b) :=
  done hR hhigh

/-- One procedure after the other, if the runs that are compared consist of runs that are. -/
theorem seq {g₁ g₂ : Range} {p : Procedure γ} {p' : Procedure δ} {k : γ → Procedure α}
    {k' : δ → Procedure β} (h : ρ.Relocates d g₁ low mid x Q p p')
    (hk : ∀ c c' y, Q c c' → ρ.Relocates d g₂ mid high y R (k c) (k' c'))
    (hcounts : ∀ s m t c a, p.exec (Rule.run d) s = .accepted c m →
      (k c).exec (Rule.run d) m = .accepted a t → g.Counts ρ s t →
      g₁.Counts ρ s m ∧ ((g₁ = .within → ρ.Left m) → g₂.Counts ρ m t))
    (hwithin : g = .within → g₂ = .within) :
    ρ.Relocates d g low high x R (p >>= k) (p' >>= k') := by
  intro s s' hs hx hlow
  have hfirst := h hs hx hlow
  rw [exec_bind]
  -- The first procedure rejects, both accept, or the second one rejects.
  cases hp : p.exec (Rule.run d) s with
  | rejected why m =>
    rw [hp] at hfirst
    intro hmore
    obtain ⟨why', m', hp', hpoints⟩ := hfirst hmore
    exact ⟨why', m', by rw [exec_bind, hp'], hpoints⟩
  | accepted c m =>
    rw [hp] at hfirst
    cases hkc : (k c).exec (Rule.run d) m with
    | accepted a t =>
      simp only [hkc]
      intro hst
      obtain ⟨hsm, hmt⟩ := hcounts s m t c a hp hkc hst
      obtain ⟨⟨c', m', hp', hc, hm⟩, hmid, hleft⟩ := hfirst hsm
      have hsecond := hk c c' m.next hc hm rfl hmid
      rw [hkc] at hsecond
      obtain ⟨⟨a', t', hk', ha, ht⟩, hhigh, hleft'⟩ := hsecond (hmt hleft)
      refine ⟨⟨a', t', ?_, ha, ht⟩, hhigh, fun hw => hleft' (hwithin hw)⟩
      rw [exec_bind, hp']
      exact hk'
    | rejected why t =>
      simp only [hkc]
      intro hmore
      obtain ⟨⟨c', m', hp', hc, hm⟩, hmid, -⟩ := hfirst (counts_of_nil hmore g₁ s m)
      have hsecond := hk c c' m.next hc hm rfl hmid
      rw [hkc] at hsecond
      obtain ⟨why', t', hk', hpoints⟩ := hsecond hmore
      refine ⟨why', t', ?_, hpoints⟩
      rw [exec_bind, hp']
      exact hk'

/-- The first procedure ends before the end of the symbols. -/
theorem bind {p : Procedure γ} {p' : Procedure δ} {k : γ → Procedure α} {k' : δ → Procedure β}
    (hg : g ≠ .beyond) (h : ρ.Relocates d .within low mid x Q p p')
    (hk : ∀ c c' y, Q c c' → ρ.Relocates d g mid high y R (k c) (k' c')) :
    ρ.Relocates d g low high x R (p >>= k) (p' >>= k') := by
  refine seq h hk (fun s m t c a hp hkc hst => ?_) fun hw => hw
  have hsm := (recedes_run d).exec p hp
  have hmt := (recedes_run d).exec (k c) hkc
  cases g with
  | beyond => exact absurd rfl hg
  | within => exact ⟨hst, fun hleft => hleft rfl⟩
  | upto => exact ⟨hst, fun hleft => hleft rfl⟩
  | partly => exact ⟨Left.of_le hst (Nat.le_trans hmt hsm), fun _ => hst⟩

/-- The first procedure may come to the end of the symbols, and the second one starts there too. -/
theorem bind_upto {p : Procedure γ} {p' : Procedure δ} {k : γ → Procedure α}
    {k' : δ → Procedure β} (h : ρ.Relocates d .upto low mid x Q p p')
    (hk : ∀ c c' y, Q c c' → ρ.Relocates d .beyond mid high y R (k c) (k' c')) :
    ρ.Relocates d .upto low high x R (p >>= k) (p' >>= k') :=
  seq h hk (fun _ _ _ _ _ _ _ hst => ⟨hst, fun _ => trivial⟩) nofun

theorem bind_beyond {p : Procedure γ} {p' : Procedure δ} {k : γ → Procedure α}
    {k' : δ → Procedure β} (h : ρ.Relocates d .beyond low mid x Q p p')
    (hk : ∀ c c' y, Q c c' → ρ.Relocates d .beyond mid high y R (k c) (k' c')) :
    ρ.Relocates d .beyond low high x R (p >>= k) (p' >>= k') :=
  seq h hk (fun _ _ _ _ _ _ _ _ => ⟨trivial, fun _ => trivial⟩) nofun

theorem bind_partly {p : Procedure γ} {p' : Procedure δ} {k : γ → Procedure α}
    {k' : δ → Procedure β} (h : ρ.Relocates d .partly low mid x Q p p')
    (hk : ∀ c c' y, Q c c' → ρ.Relocates d .partly mid high y R (k c) (k' c')) :
    ρ.Relocates d .partly low high x R (p >>= k) (p' >>= k') := by
  refine seq h hk (fun s m t c a hp hkc hst => ?_) nofun
  exact ⟨Left.of_le hst ((recedes_run d).exec (k c) hkc), fun _ => hst⟩

theorem map {f : γ → α} {f' : δ → β} {q : Procedure γ} {q' : Procedure δ} (hg : g ≠ .beyond)
    (h : ρ.Relocates d .within low high x Q q q') (hR : ∀ c c', Q c c' → R (f c) (f' c')) :
    ρ.Relocates d g low high x R (f <$> q) (f' <$> q') := by
  rw [map_eq_pure_bind, map_eq_pure_bind]
  exact bind hg h fun c c' _ hc => pure (hR c c' hc) (Nat.le_refl _)

/-- Both runs take the same branch. -/
theorem choose {c : Prop} [Decidable c] {q : Procedure α} {q' : Procedure β}
    (hyes : c → ρ.Relocates d g low high x R p p')
    (hno : ¬c → ρ.Relocates d g low high x R q q') :
    ρ.Relocates d g low high x R (if c then p else q) (if c then p' else q') := by
  by_cases h : c
  · rw [if_pos h, if_pos h]
    exact hyes h
  · rw [if_neg h, if_neg h]
    exact hno h

/-! ### Looking ahead -/

/-- A step that does not ask for a line break before the next symbol. -/
theorem next {k : Symbol → Procedure α} {k' : Symbol → Procedure β} (hg : g ≠ .beyond)
    (h : ρ.Relocates d g low high x R (k x) (k' x))
    (hbroken : ∀ b, k' { x with broken := b } = k' x) :
    ρ.Relocates d g low high x R (Procedure.next >>= k) (Procedure.next >>= k') := by
  intro s s' hs hx hlow
  refine Matches.of_left hg fun hleft => ?_
  obtain ⟨b, hb⟩ := hs.next hleft
  have hsame : k' s'.next = k' x := by rw [hb, hx, hbroken]
  change ρ.Matches g high R s ((k s.next).exec _ s) ((k' s'.next).exec _ s')
  rw [hsame, hx]
  exact h hs hx hlow

/-- Behind the first symbol a step may ask for line breaks. -/
theorem next_late {k : Symbol → Procedure α} {k' : Symbol → Procedure β} (hg : g ≠ .beyond)
    (hpos : 0 < low) (h : ρ.Relocates d g low high x R (k x) (k' x)) :
    ρ.Relocates d g low high x R (Procedure.next >>= k) (Procedure.next >>= k') := by
  intro s s' hs hx hlow
  refine Matches.of_left hg fun hleft => ?_
  have hsame := hs.next_eq hleft (Nat.lt_of_lt_of_le hpos hlow)
  change ρ.Matches g high R s ((k s.next).exec _ s) ((k' s'.next).exec _ s')
  rw [hsame, hx]
  exact h hs hx hlow

theorem second {k : Symbol → Procedure α} {k' : Symbol → Procedure β} (hg : g ≠ .beyond)
    (hx : x.kind ≠ .semicolon) (h : ∀ y, ρ.Relocates d g low high x R (k y) (k' y)) :
    ρ.Relocates d g low high x R (Procedure.second >>= k) (Procedure.second >>= k') := by
  intro s s' hs hsx hlow
  refine Matches.of_left hg fun hleft => ?_
  have hsame := hs.second_eq hleft (by rw [hsx]; exact hx)
  change ρ.Matches g high R s ((k s.second).exec _ s) ((k' s'.second).exec _ s')
  rw [hsame]
  exact h s.second hs hsx hlow

theorem ahead {k : Bool → Procedure α} {k' : Bool → Procedure β} (hg : g ≠ .beyond)
    (h : ∀ b, ρ.Relocates d g low high x R (k b) (k' b)) :
    ρ.Relocates d g low high x R (.ahead .done >>= k) (.ahead .done >>= k') := by
  intro s s' hs hx hlow
  refine Matches.of_left hg fun hleft => ?_
  change ρ.Matches g high R s ((k (Symbol.startsDeclaration s.rest)).exec _ s)
    ((k' (Symbol.startsDeclaration s'.rest)).exec _ s')
  rw [hs.startsDeclaration hleft]
  exact h _ hs hx hlow

/-- The number of the next symbol is kept until a symbol has been passed. -/
theorem position {k : Nat → Procedure α} {k' : Nat → Procedure β}
    (h : ∀ n, low ≤ n → ρ.Relocates d g n high x R (k n) (k' (n + ρ.offset))) :
    ρ.Relocates d g low high x R (Procedure.position >>= k) (Procedure.position >>= k') := by
  intro s s' hs hx hlow
  change ρ.Matches g high R s ((k s.passed).exec _ s) ((k' s'.passed).exec _ s')
  rw [hs.passed]
  exact h s.passed hlow hs hx (Nat.le_refl _)

/-! ### Rejections -/

theorem reject_here {expected : List Expectation} :
    ρ.Relocates d g low high x R (Procedure.position >>= fun n => .reject n expected)
      (Procedure.position >>= fun n => .reject n expected) := by
  intro s s' hs _ _ _
  exact ⟨_, s', rfl, hs.points expected⟩

theorem reject {i i' : Nat} {expected : List Expectation} (hi : ρ.Marks low i i') :
    ρ.Relocates d g low high x R (.reject i expected) (.reject i' expected) := by
  intro s s' hs _ hlow _
  exact ⟨_, s', rfl, rfl, .inl (hs.shows hlow hi)⟩

end Rules

/-! ### Passing symbols -/

section Passing

variable {d : Nat} {g : Range} {low high : Nat} {x : Symbol} {R : α → β → Prop}

/-- The next symbol is passed. Only a semicolon can be the last one. -/
theorem take_of_passable (hx : Passable x) :
    ρ.Relocates d .upto low (low + 1) x (SameName ρ) Procedure.take Procedure.take := by
  intro s s' hs hsx hlow hleft
  have hpass : Passable s.next := hsx ▸ hx
  obtain ⟨more, hmore⟩ := State.rest_of_next rfl hpass.2
  obtain ⟨b, hb⟩ := hs.next hleft
  have hne : s.rest ≠ [] := hmore ▸ List.cons_ne_nil _ _
  refine ⟨⟨_, _, exec_take s', ?_, hs.shift hpass⟩, ?_, nofun⟩
  · have hlexeme : s'.next.lexeme = s.next.lexeme := by rw [hb]
    simp only [SameName, Name.map, hlexeme, hs.passed, ρ.agrees _ (hs.lt hne)]
  · rw [(s.advances_shift hpass).passed]
    exact Nat.succ_le_succ hlow

theorem take (hx : Firm x) :
    ρ.Relocates d .within low (low + 1) x (SameName ρ) Procedure.take Procedure.take := by
  intro s s' hs hsx hlow hleft
  obtain ⟨hacc, hhigh, -⟩ := take_of_passable hx.passable hs hsx hlow hleft
  exact ⟨hacc, hhigh, fun _ => hs.left_shift (hsx ▸ hx.passable) (hsx ▸ hx.kind)⟩

/-- The next symbol is passed if it is acceptable. -/
theorem accept_of_passable {e : Expectation} (he : ∀ y, e.accepts y = true → Passable y) :
    ρ.Relocates d .upto low low x (fun b b' => b' = b) (Procedure.accept e)
      (Procedure.accept e) := by
  intro s s' hs hsx hlow
  refine Matches.of_left nofun fun hleft => ?_
  obtain ⟨b, hb⟩ := hs.next hleft
  have hsame : e.accepts s'.next = e.accepts s.next := by
    rw [hb]
    cases e <;> rfl
  rw [exec_accept, exec_accept, hsame]
  split
  · next hacc =>
    intro _
    refine ⟨⟨_, _, rfl, rfl, hs.shift (he _ hacc)⟩, ?_, nofun⟩
    exact Nat.le_trans hlow (State.passed_le_shift s)
  · intro _
    exact ⟨⟨_, _, rfl, rfl, hs⟩, hlow, nofun⟩

theorem accept {e : Expectation} (he : ∀ y, e.accepts y = true → Firm y) :
    ρ.Relocates d .within low low x (fun b b' => b' = b) (Procedure.accept e)
      (Procedure.accept e) := by
  intro s s' hs hsx hlow
  have hgo : ρ.Matches .upto low (fun b b' => b' = b) s
      ((Procedure.accept e).exec (Rule.run d) s) ((Procedure.accept e).exec (Rule.run d) s') :=
    accept_of_passable (fun y hy => (he y hy).passable) hs hsx hlow
  rw [exec_accept] at hgo ⊢
  by_cases hacc : e.accepts s.next = true
  · rw [if_pos hacc] at hgo ⊢
    intro hleft
    obtain ⟨hb, hhigh, -⟩ := hgo hleft
    have hx := he _ hacc
    exact ⟨hb, hhigh, fun _ => hs.left_shift hx.passable hx.kind⟩
  · rw [if_neg hacc] at hgo ⊢
    intro hleft
    obtain ⟨hb, hhigh, -⟩ := hgo hleft
    exact ⟨hb, hhigh, fun _ => hleft⟩

/-- What comes behind the symbols, and their end, may be unacceptable alike. -/
theorem accept_beyond {e : Expectation} (he : ∀ y, e.accepts y = true → Firm y)
    (hfinish : e.accepts Symbol.finish = false)
    (hmore : ∀ y, ρ.more.head? = some y → e.accepts y = false)
    {k : Bool → Procedure α} {k' : Bool → Procedure β}
    (hyes : ∀ y, ρ.Relocates d .upto low high y R (k true) (k' true))
    (hno : ∀ y, ρ.Relocates d .beyond low high y R (k false) (k' false)) :
    ρ.Relocates d .beyond low high x R (Procedure.accept e >>= k) (Procedure.accept e >>= k') := by
  intro s s' hs hsx hlow
  have hgo : ρ.Matches .within low (fun b b' => b' = b) s
      ((Procedure.accept e).exec (Rule.run d) s) ((Procedure.accept e).exec (Rule.run d) s') :=
    accept he hs hsx hlow
  rw [exec_bind, exec_bind]
  rw [exec_accept] at hgo ⊢
  by_cases hleft : ρ.Left s
  · by_cases hacc : e.accepts s.next = true
    · rw [if_pos hacc] at hgo ⊢
      obtain ⟨⟨b, m', hm', rfl, hm⟩, hhigh, hleft'⟩ := hgo hleft
      rw [hm']
      exact (hyes _ hm rfl hhigh).beyond (hleft' rfl)
    · rw [if_neg hacc] at hgo ⊢
      obtain ⟨⟨b, m', hm', rfl, hm⟩, hhigh, -⟩ := hgo hleft
      rw [hm']
      exact hno _ hm rfl hlow
  · -- At the end of the symbols the two runs see different symbols, but neither is acceptable.
    obtain ⟨hnext, y, hy, hnext'⟩ := hs.next_of_end hleft
    rw [exec_accept, hnext, hnext', if_neg (by simp [hfinish]), if_neg (by simp [hmore y hy])]
    exact hno _ hs rfl hlow

/-- The next symbol has to be acceptable. -/
theorem expect {expected : List Expectation}
    (he : ∀ y, (expected.any fun e => e.accepts y) = true → Firm y) :
    ρ.Relocates d .within low (low + 1) x (SameName ρ) (Procedure.expect expected)
      (Procedure.expect expected) := by
  change ρ.Relocates d .within low (low + 1) x (SameName ρ)
    (Procedure.next >>= fun s => if expected.any fun e => e.accepts s then Procedure.take
      else Procedure.position >>= fun n => .reject n expected)
    (Procedure.next >>= fun s => if expected.any fun e => e.accepts s then Procedure.take
      else Procedure.position >>= fun n => .reject n expected)
  refine next (by decide) (choose (fun hx => take (he x hx)) fun _ => reject_here) fun b => ?_
  have hsame : ∀ e : Expectation, e.accepts { x with broken := b } = e.accepts x := by
    intro e
    cases e <;> rfl
  simp only [hsame]

theorem expect_kind {k : Kind} (hk : (k ≠ .error ∧ k ≠ .endOfInput) ∧ k ≠ .semicolon) :
    ρ.Relocates d .within low (low + 1) x (SameName ρ) (Procedure.expect [.kind k])
      (Procedure.expect [.kind k]) :=
  expect fun _ hy => .of_kind (kind_of_expected hy) hk

/-! ### Punctuation that may be missing -/

theorem note {m m' : Missing}
    (hm : ∀ n, Repair.move ρ.offset ⟨n, m⟩ = ⟨n + ρ.offset, m'⟩) :
    ρ.Relocates d g low low x (fun _ _ => True) (Procedure.note m) (Procedure.note m') := by
  intro s s' hs hsx hlow hcounts
  refine ⟨⟨_, _, rfl, trivial, hs.repair ?_⟩, hlow, ?_⟩
  · rw [hm, hs.passed]
  · rintro rfl
    exact hcounts

/-- A mark other than a semicolon is passed, or else noted. -/
theorem orMissing {k : Kind} {m : Missing}
    (hk : (k ≠ .error ∧ k ≠ .endOfInput) ∧ k ≠ .semicolon)
    (hm : ∀ n, Repair.move ρ.offset ⟨n, m⟩ = ⟨n + ρ.offset, m⟩) :
    ρ.Relocates d .within low low x (fun _ _ => True) (Procedure.orMissing k m)
      (Procedure.orMissing k m) := by
  refine bind (by decide) (accept fun y hy => .of_accepts hy hk) ?_
  rintro _ b y rfl
  cases b with
  | true => exact pure trivial (Nat.le_refl _)
  | false => exact note hm

theorem colon : ρ.Relocates d .within low low x (fun _ _ => True) Procedure.colon
    Procedure.colon :=
  orMissing (by decide) fun _ => rfl

theorem comma : ρ.Relocates d .within low low x (fun _ _ => True) Procedure.comma
    Procedure.comma :=
  orMissing (by decide) fun _ => rfl

theorem leftParen : ρ.Relocates d .within low low x (fun _ _ => True) Procedure.leftParen
    Procedure.leftParen :=
  orMissing (by decide) fun _ => rfl

theorem rightParen : ρ.Relocates d .within low low x (fun _ _ => True) Procedure.rightParen
    Procedure.rightParen :=
  orMissing (by decide) fun _ => rfl

/-- A semicolon is passed, and then nothing may be left, or else noted. -/
theorem clauseEnd : ρ.Relocates d .partly low low x (fun _ _ => True) Procedure.clauseEnd
    Procedure.clauseEnd := by
  intro s s' hs hsx hlow
  refine Matches.of_left nofun fun hleft => ?_
  obtain ⟨b, hb⟩ := hs.next hleft
  have hsame : s'.next.kind = s.next.kind := by rw [hb]
  rw [Procedure.clauseEnd, exec_orMissing, exec_orMissing, hsame]
  intro _
  split
  · next hk =>
    have hx : Passable s.next := .of_kind hk (by decide)
    exact ⟨⟨_, _, rfl, trivial, hs.shift hx⟩, Nat.le_trans hlow (State.passed_le_shift s), nofun⟩
  · refine ⟨⟨_, _, rfl, trivial, hs.repair ?_⟩, hlow, nofun⟩
    rw [hs.passed]
    rfl

/-- Where a statement ends, all semicolons are passed, or else one is noted. Behind the symbols
comes no other semicolon. -/
theorem statementEnd : ρ.Relocates d .beyond low (if x.kind = .semicolon then low + 1 else low) x
    (fun _ _ => True) Procedure.statementEnd Procedure.statementEnd := by
  intro s s' hs hsx hlow
  have hsame : s'.next.kind = .semicolon ↔ s.next.kind = .semicolon := by
    by_cases hleft : ρ.Left s
    · obtain ⟨b, hb⟩ := hs.next hleft
      rw [hb]
    · obtain ⟨hnext, y, hy, hnext'⟩ := hs.next_of_end hleft
      rw [hnext, hnext']
      exact ⟨fun h => absurd h (ρ.begins y hy).1, nofun⟩
  rw [exec_statementEnd, exec_statementEnd, hsx]
  intro _
  by_cases hk : x.kind = .semicolon
  · have hk' : s.next.kind = .semicolon := hsx ▸ hk
    rw [if_pos hk, if_pos (hsame.2 hk'), if_pos hk]
    refine ⟨⟨_, _, rfl, trivial, hs.skipSemicolons⟩, ?_, nofun⟩
    exact Nat.lt_of_le_of_lt hlow (State.lt_skipSemicolons s hk')
  · have hk' : ¬s'.next.kind = .semicolon := fun h => hk (hsx ▸ hsame.1 h)
    rw [if_neg hk, if_neg hk', if_neg hk]
    refine ⟨⟨_, _, rfl, trivial, hs.repair ?_⟩, hlow, nofun⟩
    rw [hs.passed]
    rfl

/-! ### Extents and expressions -/

/-- The extent up to the symbol passed last. -/
theorem extentFrom {i i' : Nat} (hi : ρ.Marks low i i') (hpos : 0 < low) :
    ρ.Relocates d g low low x (SameExtent ρ) (Procedure.extentFrom i)
      (Procedure.extentFrom i') := by
  intro s s' hs _ hlow hcounts
  refine ⟨⟨⟨i', s'.passed - 1⟩, s', rfl, ?_, hs⟩, hlow, ?_⟩
  · have hlt : s.passed - 1 < ρ.symbols.length := by
      have := hs.within
      omega
    have hlast : s'.passed - 1 = s.passed - 1 + ρ.offset := by
      rw [hs.passed]
      omega
    simp only [SameExtent, Extent.map, hs.shows hlow hi, ρ.agrees _ hlt, hlast]
  · rintro rfl
    exact hcounts

theorem build {e e' : Tree} {p : Procedure α} {p' : Procedure β}
    (h : ρ.Relocates d g low high x R p p') :
    ρ.Relocates d g low high x R (.build e p) (.build e' p') :=
  fun _ _ hs hsx hlow => h (hs.build e e') hsx hlow

theorem widen {e e' : Tree} {p : Procedure α} {p' : Procedure β}
    (h : ρ.Relocates d g low high x R p p') :
    ρ.Relocates d g low high x R (.widen e p) (.widen e' p') :=
  fun _ _ hs hsx hlow => h (hs.widen e e') hsx hlow

/-- A completed expression. -/
theorem make {i i' : Nat} {e e' : Extent Nat → Tree} (hg : g ≠ .beyond) (hi : ρ.Marks low i i')
    (hpos : 0 < low) (he : ∀ X X', SameExtent ρ X X' → SameTree ρ (e X) (e' X')) :
    ρ.Relocates d g low low x (SameTree ρ) (Procedure.make i e) (Procedure.make i' e') :=
  bind hg (extentFrom hi hpos) fun X X' _ hX => build (done (he X X' hX) (Nat.le_refl _))

end Passing

end Relocates

end Relocation

/-! ## Where no symbols are left -/

/-- The procedure accepts nothing where no symbols are left. -/
def Starves (d : Nat) (p : Procedure α) : Prop :=
  ∀ ⦃s t : State⦄ ⦃a : α⦄, s.rest = [] → p.exec (Rule.run d) s ≠ .accepted a t

namespace Starves

variable {d : Nat}

theorem bind {p : Procedure α} {k : α → Procedure β} (h : Starves d p) : Starves d (p >>= k) := by
  intro s t b hs hb
  obtain ⟨a, m, ha, -⟩ := exec_bind_accepted.1 hb
  exact h hs ha

theorem expect {k : Kind} (hk : k ≠ .endOfInput) : Starves d (Procedure.expect [.kind k]) := by
  intro s t a hs ha
  have hfinish : s.next = Symbol.finish := by
    rw [State.next, hs]
    rfl
  have hacc := (exec_expect_accepted.1 ha).1
  rw [hfinish] at hacc
  exact hk (kind_of_expected hacc).symm

/-- A rule that passes a symbol needs one. -/
theorem run {r : Rule} (h : r.Progresses) : Starves d (Procedure.run r) := by
  intro s t a hs ha
  rw [exec_run] at ha
  have hlt := h ha
  rw [hs] at hlt
  exact Nat.not_lt_zero _ hlt

theorem accept {e : Expectation} {k : Bool → Procedure α}
    (hfinish : e.accepts Symbol.finish = false) (h : Starves d (k false)) :
    Starves d (Procedure.accept e >>= k) := by
  intro s t a hs ha
  have hnext : s.next = Symbol.finish := by
    rw [State.next, hs]
    rfl
  rw [exec_bind, exec_accept, hnext, if_neg (by simp [hfinish])] at ha
  exact h hs ha

theorem next {k : Symbol → Procedure α} (h : Starves d (k Symbol.finish)) :
    Starves d (Procedure.next >>= k) := by
  intro s t a hs ha
  have hnext : s.next = Symbol.finish := by
    rw [State.next, hs]
    rfl
  rw [exec_bind, exec_next, hnext] at ha
  exact h hs ha

end Starves

/-- A procedure that may come to the end of the symbols, in front of one that accepts nothing
there. -/
theorem Relocation.Relocates.bind_starved {ρ : Relocation μ} {d : Nat} {g : Range}
    {low mid high : Nat} {x : Symbol} {R : α → β → Prop} {Q : γ → δ → Prop} {p : Procedure γ}
    {p' : Procedure δ} {k : γ → Procedure α} {k' : δ → Procedure β}
    (hg : g = .within ∨ g = .upto) (h : ρ.Relocates d .partly low mid x Q p p')
    (hstarves : ∀ c, Starves d (k c))
    (hk : ∀ c c' y, Q c c' → ρ.Relocates d g mid high y R (k c) (k' c')) :
    ρ.Relocates d g low high x R (p >>= k) (p' >>= k') := by
  refine seq h hk (fun s m t c a _ hkc _ => ?_) fun hw => hw
  have hm : ρ.Left m := .inr fun hnil => hstarves c hnil hkc
  refine ⟨hm, fun _ => ?_⟩
  rcases hg with rfl | rfl
  · exact hm
  · exact hm

/-! ## Rules among the symbols met again -/

/-- Where a rule may start and end. Items and statements end with semicolons; lists of items,
labels and members end where the symbols do. -/
def Rule.range : Rule → Range
  | .item | .statement => .upto
  | .items _ | .cases | .members => .partly
  | _ => .within

/-- How many symbols a rule is known to pass. -/
def Rule.gain : Rule → Nat
  | .expression | .assignment | .conditional | .binary _ | .unary | .primary | .names => 1
  | _ => 0

namespace Relocation

section Same

variable (ρ : Relocation μ)

abbrev SameTrees (es es' : List Tree) : Prop :=
  es.map ρ.tree = es'.map ρ.tree'

abbrev SameOption (e e' : Option Tree) : Prop :=
  e.map ρ.tree = e'.map ρ.tree'

abbrev SameDims (ds ds' : List (Option Tree)) : Prop :=
  ds.map (Option.map ρ.tree) = ds'.map (Option.map ρ.tree')

abbrev SameLayout (ps ps' : List (LayoutParam Nat Tree)) : Prop :=
  ps.map (LayoutParam.map ρ.old ρ.tree) = ps'.map (LayoutParam.map ρ.new ρ.tree')

abbrev SameQualifiers (q q' : Qualifiers Nat Tree) : Prop :=
  q.map ρ.old ρ.tree = q'.map ρ.new ρ.tree'

abbrev SameType (t t' : TypeSpec Nat Tree) : Prop :=
  t.map ρ.old ρ.tree = t'.map ρ.new ρ.tree'

abbrev SameDeclarators (ds ds' : List (Declarator Nat Tree)) : Prop :=
  ds.map (Declarator.map ρ.old ρ.tree) = ds'.map (Declarator.map ρ.new ρ.tree')

abbrev SameMembers (ms ms' : List (Member Nat Tree)) : Prop :=
  ms.map (Member.map ρ.old ρ.tree) = ms'.map (Member.map ρ.new ρ.tree')

abbrev SameParams (ps ps' : List (Param Nat Tree)) : Prop :=
  ps.map (Param.map ρ.old ρ.tree) = ps'.map (Param.map ρ.new ρ.tree')

abbrev SameNames (ns ns' : List (Name Nat)) : Prop :=
  ns.map (Name.map ρ.old) = ns'.map (Name.map ρ.new)

abbrev SameItem (n n' : Item) : Prop :=
  n.map ρ.old ρ.tree = n'.map ρ.new ρ.tree'

abbrev SameItems (ns ns' : List Item) : Prop :=
  Node.mapAll ρ.old ρ.tree ns = Node.mapAll ρ.new ρ.tree' ns'

abbrev SameCases (cs cs' : List (Case Nat Tree)) : Prop :=
  Case.mapAll ρ.old ρ.tree cs = Case.mapAll ρ.new ρ.tree' cs'

end Same

/-- The rule of the second run for one of the first run, and how their results are related: all that
they are handed and all that they make shows the same. -/
inductive Moves (ρ : Relocation μ) : (r r' : Rule) → (r.Result → r'.Result → Prop) → Prop where
  | item : Moves ρ .item .item ρ.SameItem
  | items (stop : Stop) : Moves ρ (.items stop) (.items stop) ρ.SameItems
  | statement : Moves ρ .statement .statement ρ.SameItem
  | cases : Moves ρ .cases .cases ρ.SameCases
  | qualifiers {q q' : Qualifiers Nat Tree} (h : ρ.SameQualifiers q q') :
      Moves ρ (.qualifiers q) (.qualifiers q') ρ.SameQualifiers
  | layoutParams : Moves ρ .layoutParams .layoutParams ρ.SameLayout
  | dims : Moves ρ .dims .dims ρ.SameDims
  | declarators : Moves ρ .declarators .declarators ρ.SameDeclarators
  | vars {type type' : TypeSpec Nat Tree} {name name' : Name Nat} (htype : ρ.SameType type type')
      (hname : ρ.SameName name name') :
      Moves ρ (.vars type name) (.vars type' name') ρ.SameDeclarators
  | members : Moves ρ .members .members ρ.SameMembers
  | params : Moves ρ .params .params ρ.SameParams
  | names : Moves ρ .names .names ρ.SameNames
  | expression : Moves ρ .expression .expression ρ.SameTree
  | sequence : Moves ρ .sequence .sequence ρ.SameTrees
  | assignment : Moves ρ .assignment .assignment ρ.SameTree
  | conditional : Moves ρ .conditional .conditional ρ.SameTree
  | binary (level : Level) : Moves ρ (.binary level) (.binary level) ρ.SameTree
  | binaryRest (level : Level) {left left' : Tree} (h : ρ.SameTree left left') :
      Moves ρ (.binaryRest level left) (.binaryRest level left') ρ.SameTree
  | unary : Moves ρ .unary .unary ρ.SameTree
  | suffixes {object object' : Tree} (h : ρ.SameTree object object') :
      Moves ρ (.suffixes object) (.suffixes object') ρ.SameTree
  | arguments : Moves ρ .arguments .arguments ρ.SameTrees
  | primary : Moves ρ .primary .primary ρ.SameTree
  | initializer : Moves ρ .initializer .initializer ρ.SameTree
  | elements : Moves ρ .elements .elements ρ.SameTrees

/-- What is said of the rules. Suffixes ask at once for a line break before the next symbol, so
something has to be passed before them. -/
def RelocatesRules (ρ : Relocation μ) (d : Nat) : Prop :=
  ∀ ⦃r r' : Rule⦄ ⦃Q : r.Result → r'.Result → Prop⦄, ρ.Moves r r' Q → ∀ ⦃low : Nat⦄ ⦃x : Symbol⦄,
    (r.isSuffixes = true → 0 < low) →
      ρ.Relocates d r.range low (low + r.gain) x Q (Procedure.run r) (Procedure.run r')

/-- Other rules may be the first ones. -/
theorem RelocatesRules.free {ρ : Relocation μ} {d low : Nat} {x : Symbol} {r r' : Rule}
    {Q : r.Result → r'.Result → Prop} (h : ρ.RelocatesRules d) (hr : ρ.Moves r r' Q)
    (hother : r.isSuffixes = false) :
    ρ.Relocates d r.range low (low + r.gain) x Q (Procedure.run r) (Procedure.run r') :=
  h hr fun hsuffixes => absurd hsuffixes (Bool.eq_false_iff.1 hother)

end Relocation

end Grammar

end ShaderRepair

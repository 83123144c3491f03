import ShaderRepair.Proofs.Operand

/-!
# Retracing a run

Where a procedure accepts symbols with repairs, it accepts the repaired symbols without any. Both
runs take the same way, although the second one meets symbols that the first one only assumed, and
counts them. This file contains:
- `Follows`, how what is left for the first run compares with what is left for the second one;
- `Tolerates`, which marks a procedure may find where the first run found something else;
- `Retraces`, the relation between the procedure of the first run and the one of the second;
- one rule for each step of a procedure.

The symbols that are read may be followed by a mark that a later repair puts in. A step that looks
at what follows has to decide alike for the mark, and this is what the rules ask for.
-/

namespace ShaderRepair

namespace Grammar

open Piece Procedure

variable {α β γ δ : Type}

/-! ## What follows -/

/-- The marks that repairs put behind a symbol. -/
def allMarks : List Kind :=
  [.semicolon, .colon, .comma, .rightParen]

/-- The first run goes on with `rest` and the second one with `rest'`: the next symbol is the same,
or the second run finds one of the marks `F`. -/
def Follows (F : List Kind) (rest rest' : List Symbol) : Prop :=
  Woven rest rest' ∧
    (rest'.headD Symbol.finish = rest.headD Symbol.finish ∨
      ∃ k ∈ F, ∃ more, rest' = Symbol.mark k :: more)

/-- The next symbol of the second run, which reads the pieces and then something that follows with
one of the marks `F`, is the one of the first run, or else a mark with the property `f`. -/
def Tolerates (f : Symbol → Prop) (F : List Kind) : List Piece → Prop
  | [] => ∀ k ∈ F, f (Symbol.mark k)
  | .kept _ :: _ => True
  | .behind k :: _ => f (Symbol.mark k)
  | .opened _ _ :: _ => False

/-- The mark of one of the given kinds. -/
def Among (F : List Kind) (s : Symbol) : Prop :=
  ∃ k ∈ F, s = Symbol.mark k

theorem head_of_tolerates {f : Symbol → Prop} {F : List Kind} {P : List Piece}
    {rest rest' : List Symbol} (h : Follows F rest rest') (hP : Tolerates f F P) :
    (new P ++ rest').headD Symbol.finish = (old P ++ rest).headD Symbol.finish ∨
      ∃ k more, new P ++ rest' = Symbol.mark k :: more ∧ f (Symbol.mark k) := by
  cases P with
  | nil =>
    rcases h.2 with h | ⟨k, hk, more, h⟩
    · exact .inl h
    · exact .inr ⟨k, more, h, hP k hk⟩
  | cons p P =>
    cases p with
    | kept s => exact .inl rfl
    | behind k => exact .inr ⟨k, new P ++ rest', rfl, hP⟩
    | opened type s => cases hP

theorem Tolerates.mono {f g : Symbol → Prop} (hfg : ∀ y, f y → g y) {F : List Kind}
    {P : List Piece} (h : Tolerates f F P) : Tolerates g F P := by
  cases P with
  | nil => exact fun k hk => hfg _ (h k hk)
  | cons p P =>
    cases p with
    | kept s => trivial
    | behind k => exact hfg _ h
    | opened type s => exact h

/-- What follows a part of the pieces. -/
theorem Follows.of_tolerates {F F' : List Kind} {P : List Piece} {n : Nat} {R : List Repair}
    {rest rest' : List Symbol} (h : Follows F rest rest') (hn : Noted n P R)
    (hP : Tolerates (Among F') F P) : Follows F' (old P ++ rest) (new P ++ rest') := by
  refine ⟨hn.woven h.1, ?_⟩
  rcases head_of_tolerates h hP with h | ⟨k, more, h, k', hk', hkk⟩
  · exact .inl h
  · refine .inr ⟨k', hk', more, ?_⟩
    rw [h, hkk]

theorem Follows.mono {F F' : List Kind} {rest rest' : List Symbol} (hF : ∀ k ∈ F, k ∈ F')
    (h : Follows F rest rest') : Follows F' rest rest' :=
  ⟨h.1, h.2.imp id fun ⟨k, hk, hr⟩ => ⟨k, hF k hk, hr⟩⟩

/-- Where no mark is put in, the next symbol is the same. -/
theorem Follows.head_eq {rest rest' : List Symbol} (h : Follows [] rest rest') :
    rest'.headD Symbol.finish = rest.headD Symbol.finish := by
  rcases h.2 with h | ⟨k, hk, -⟩
  · exact h
  · cases hk

/-! ## Conversions -/

/-- `C` tells, for the symbols of `P` but the first one, which of them begin an initializer that is
converted, and to which type. -/
def Agrees (C : Nat → Text → Bool) (n : Nat) (P : List Piece) (R : List Repair) : Prop :=
  ∀ i T, n < i → i < n + (old P).length →
    (C i T = true ↔ ∃ index, ⟨index, .conversion T i⟩ ∈ R)

theorem Agrees.split {C : Nat → Text → Bool} {n : Nat} {P P' : List Piece} {R R' : List Repair}
    (hP : Noted n P R) (hP' : Noted (n + (old P).length) P' R')
    (h : Agrees C n (P ++ P') (R ++ R')) :
    Agrees C n P R ∧ Agrees C (n + (old P).length) P' R' := by
  simp only [Agrees, old_append, List.length_append, List.mem_append] at h
  refine ⟨?_, ?_⟩
  · intro i T h₁ h₂
    rw [h i T h₁ (by omega)]
    constructor
    · rintro ⟨index, hR | hR⟩
      · exact ⟨index, hR⟩
      · have := ((hP'.stands _ hR).conversion rfl).1
        omega
    · rintro ⟨index, hR⟩
      exact ⟨index, .inl hR⟩
  · intro i T h₁ h₂
    rw [h i T (by omega) (by omega)]
    constructor
    · rintro ⟨index, hR | hR⟩
      · have := ((hP.stands _ hR).conversion rfl).2
        omega
      · exact ⟨index, hR⟩
    · rintro ⟨index, hR⟩
      exact ⟨index, .inr hR⟩

/-! ## How pieces begin -/

/-- A symbol that can be passed. -/
def Passable (s : Symbol) : Prop :=
  s.kind ≠ .error ∧ s.kind ≠ .endOfInput

/-- The pieces begin with a symbol that is kept. -/
def Opens (P : List Piece) : Prop :=
  ∃ y P', P = .kept y :: P'

/-- A mark that is there or put in. -/
def Marked (k : Kind) (P : List Piece) : Prop :=
  (∃ y, y.kind = k ∧ P = [.kept y]) ∨ P = [.behind k]

/-- The pieces begin with a type and a name. -/
def Declares (P : List Piece) : Prop :=
  ∀ rest, Symbol.startsDeclaration (new P ++ rest) = true

/-! ## Retracing -/

section Retrace

/-- Whenever `p`, started before the symbol `x`, accepts, the symbols it passed and the repairs it
noted make pieces with the property `S`, and `p'` reads the new symbols of these pieces without a
repair. What they produce is related by `Q`. What follows may differ by one of the marks `F`. The
calls of the second run nest deeper, but not more than the symbols put in allow for. -/
def Retraces (C : Nat → Text → Bool) (d : Nat) (x : Symbol) (F : List Kind)
    (S : List Piece → Prop) (Q : α → β → Prop) (p : Procedure α) (p' : Procedure β) : Prop :=
  ∀ ⦃s t : State⦄ ⦃a : α⦄, s.next = x → p.exec (Rule.run d) s = .accepted a t →
    (∃ b, Q a b) ∧ ∃ P R, Passes s t P R ∧ S P ∧
      (Agrees C s.passed P R → ∀ ⦃e : Nat⦄ ⦃s' : State⦄ ⦃rest' : List Symbol⦄,
        d + callsPerSymbol * extra P ≤ e → s'.rest = new P ++ rest' → Follows F t.rest rest' →
        ∃ b t', p'.exec (Rule.run e) s' = .accepted b t' ∧ t'.rest = rest' ∧
          t'.repairs = s'.repairs ∧ Q a b)

variable {C : Nat → Text → Bool} {d : Nat} {x : Symbol} {F : List Kind} {S : List Piece → Prop}
  {Q : α → β → Prop}

namespace Retraces

theorem weaken {S' : List Piece → Prop} {Q' : α → β → Prop} {F' : List Kind} {p : Procedure α}
    {p' : Procedure β} (h : Retraces C d x F' S' Q' p p') (hF : ∀ k ∈ F, k ∈ F')
    (hS : ∀ P, S' P → S P) (hQ : ∀ a b, Q' a b → Q a b) : Retraces C d x F S Q p p' := by
  intro s t a hx hp
  obtain ⟨⟨b, hb⟩, P, R, hpass, hSP, hsim⟩ := h hx hp
  refine ⟨⟨b, hQ a b hb⟩, P, R, hpass, hS P hSP, ?_⟩
  intro hC e s' rest' he hs' hrest
  obtain ⟨b, t', hb, ht, hr, hq⟩ := hsim hC he hs' (hrest.mono hF)
  exact ⟨b, t', hb, ht, hr, hQ a b hq⟩

/-! ### Results and sequences -/

theorem done {a : α} {b : β} (hQ : Q a b) (hS : S []) :
    Retraces C d x F S Q (.done a) (.done b) := by
  intro s t a' hx hp
  cases hp
  refine ⟨⟨b, hQ⟩, [], [], Passes.refl s, hS, ?_⟩
  intro _ e s' rest' _ hs' _
  exact ⟨b, s', rfl, hs', rfl, hQ⟩

theorem reject {n n' : Nat} {expected expected' : List Expectation} :
    Retraces C d x F S Q (.reject n expected) (.reject n' expected') := by
  intro s t a hx hp
  cases hp

/-- One procedure after the other. What the second one begins with has to be tolerated by the
first. -/
theorem bind {F' : List Kind} {S' : List Piece → Prop} {Q' : γ → δ → Prop} {p : Procedure γ}
    {p' : Procedure δ} {k : γ → Procedure α} {k' : δ → Procedure β}
    (h : Retraces C d x F' S' Q' p p')
    (hk : ∀ a b P, Q' a b → S' P → (∀ y P', P = .kept y :: P' → y = x) → ∀ y,
      Retraces C d y F (fun P' => S (P ++ P') ∧ Tolerates (Among F') F P') Q (k a) (k' b)) :
    Retraces C d x F S Q (p >>= k) (p' >>= k') := by
  intro s t c hx hp
  obtain ⟨a, m, hpa, hka⟩ := exec_bind_accepted.1 hp
  obtain ⟨⟨b₀, hb₀⟩, P, R, hpass, hS', hsim⟩ := h hx hpa
  have hfirst : ∀ y P', P = .kept y :: P' → y = x := by
    rintro y P' rfl
    rw [← hx]
    exact (hpass.next_eq rfl).symm
  obtain ⟨hc, P', R', hpass', ⟨hS, htol⟩, -⟩ := hk a b₀ P hb₀ hS' hfirst m.next rfl hka
  refine ⟨hc, P ++ P', R ++ R', hpass.trans hpass', hS, ?_⟩
  intro hC e s' rest' he hs' hrest
  have hnoted : Noted (s.passed + (old P).length) P' R' := by
    have := hpass'.noted
    rwa [hpass.passed] at this
  obtain ⟨hC₁, hC₂⟩ := hC.split hpass.noted hnoted
  have hfollows : Follows F' m.rest (new P' ++ rest') := by
    rw [hpass'.rest]
    exact hrest.of_tolerates hpass'.noted htol
  rw [extra_append, Nat.mul_add] at he
  rw [new_append, List.append_assoc] at hs'
  have he₁ : d + callsPerSymbol * extra P ≤ e := by omega
  have he₂ : d + callsPerSymbol * extra P' ≤ e := by omega
  obtain ⟨b, m', hb, hm', hr', hq⟩ := hsim hC₁ he₁ hs' hfollows
  -- The pieces of the second procedure do not depend on what the first one produced.
  obtain ⟨-, P₂, R₂, hpass₂, -, hsim₂⟩ := hk a b P hq hS' hfirst m.next rfl hka
  obtain ⟨rfl, rfl⟩ := hpass'.unique hpass₂
  rw [← hpass.passed] at hC₂
  obtain ⟨c', t', hc', ht', hr'', hq'⟩ := hsim₂ hC₂ he₂ hm' hrest
  refine ⟨c', t', ?_, ht', hr''.trans hr', hq'⟩
  exact exec_bind_accepted.2 ⟨b, m', hb, hc'⟩

/-! ### Looking ahead -/

/-- The next symbol decides, and a mark in its place decides alike. -/
theorem next {k : Symbol → Procedure α} {k' : Symbol → Procedure β}
    (h : Retraces C d x F (fun P => S P ∧ Tolerates (fun y => k' y = k' x) F P) Q (k x) (k' x)) :
    Retraces C d x F S Q (next >>= k) (next >>= k') := by
  intro s t a hx hp
  have hp' : (k x).exec (Rule.run d) s = .accepted a t := by
    rw [← hx]
    exact hp
  obtain ⟨hb, P, R, hpass, ⟨hS, htol⟩, hsim⟩ := h hx hp'
  refine ⟨hb, P, R, hpass, hS, ?_⟩
  intro hC e s' rest' he hs' hrest
  obtain ⟨b, t', hb, ht', hr', hq⟩ := hsim hC he hs' hrest
  have hsame : k' s'.next = k' x := by
    unfold State.next at hx ⊢
    rw [hs']
    rcases head_of_tolerates hrest htol with hh | ⟨y, more, hh, hy⟩
    · rw [hh, ← hpass.rest, hx]
    · rw [hh]
      exact hy
  refine ⟨b, t', ?_, ht', hr', hq⟩
  change (k' s'.next).exec (Rule.run e) s' = .accepted b t'
  rw [hsame]
  exact hb

/-- The symbol after the next one decides; the next one is kept. -/
theorem second {k : Symbol → Procedure α} {k' : Symbol → Procedure β}
    (h : ∀ y, Retraces C d x F
      (fun P => S P ∧ ∃ z P', P = .kept z :: P' ∧ Tolerates (fun w => k' w = k' y) F P') Q
      (k y) (k' y)) :
    Retraces C d x F S Q (second >>= k) (second >>= k') := by
  intro s t a hx hp
  obtain ⟨hb, P, R, hpass, ⟨hS, z, P', rfl, htol⟩, hsim⟩ := h s.second hx hp
  refine ⟨hb, _, R, hpass, hS, ?_⟩
  intro hC e s' rest' he hs' hrest
  obtain ⟨b, t', hb, ht', hr', hq⟩ := hsim hC he hs' hrest
  have hsame : k' s'.second = k' s.second := by
    have hrest' : s'.second = (new P' ++ rest').headD Symbol.finish := by
      simp [State.second, hs']
    have hrest'' : s.second = (old P' ++ t.rest).headD Symbol.finish := by
      simp [State.second, hpass.rest]
    rcases head_of_tolerates hrest htol with hh | ⟨y, more, hh, hy⟩
    · rw [hrest', hrest'', hh]
    · rw [hrest', hh]
      exact hy
  refine ⟨b, t', ?_, ht', hr', hq⟩
  change (k' s'.second).exec (Rule.run e) s' = .accepted b t'
  rw [hsame]
  exact hb

/-- Whether a declaration starts decides. A declaration that was found has to be there still; that
none is found where none was needs nothing. -/
theorem ahead {k : Bool → Procedure α} {k' : Bool → Procedure β}
    (h : ∀ b, (b = true → x.kind = .identifier) →
      Retraces C d x F (fun P => S P ∧ (b = true → Declares P)) Q (k b) (k' b)) :
    Retraces C d x F S Q (.ahead .done >>= k) (.ahead .done >>= k') := by
  intro s t a hx hp
  have hident : Symbol.startsDeclaration s.rest = true → x.kind = .identifier := by
    intro hd
    rw [← hx, State.next]
    cases hr : s.rest with
    | nil =>
      rw [hr] at hd
      cases hd
    | cons y more =>
      rw [hr] at hd
      simp only [Symbol.startsDeclaration, Bool.and_eq_true, decide_eq_true_eq] at hd
      exact hd.1
  obtain ⟨hb, P, R, hpass, ⟨hS, hdecl⟩, hsim⟩ := h (Symbol.startsDeclaration s.rest) hident hx hp
  refine ⟨hb, P, R, hpass, hS, ?_⟩
  intro hC e s' rest' he hs' hrest
  obtain ⟨b, t', hb, ht', hr', hq⟩ := hsim hC he hs' hrest
  have hsame : Symbol.startsDeclaration s'.rest = Symbol.startsDeclaration s.rest := by
    rw [hs']
    cases hd : Symbol.startsDeclaration s.rest with
    | true => exact hdecl hd rest'
    | false =>
      rw [hpass.rest] at hd
      exact (hpass.noted.woven hrest.1).startsDeclaration_eq_false hd
  refine ⟨b, t', ?_, ht', hr', hq⟩
  change (k' (Symbol.startsDeclaration s'.rest)).exec (Rule.run e) s' = .accepted b t'
  rw [hsame]
  exact hb

/-! ### Passing symbols -/

/-- Both runs pass the same symbol. -/
theorem shift (hx : Passable x) {p : Procedure α} {p' : Procedure β}
    (h : ∀ y, Retraces C d y F (fun P => S (.kept x :: P)) Q p p') :
    Retraces C d x F S Q (.shift p) (.shift p') := by
  intro s t a hnext hp
  obtain ⟨more, hrest⟩ := State.rest_of_next hnext hx.2
  have hshift := Passes.shift hrest hx.1
  obtain ⟨hb, P, R, hpass, hS, hsim⟩ := h s.shift.next rfl hp
  refine ⟨hb, .kept x :: P, R, hshift.trans hpass, hS, ?_⟩
  intro hC e s' rest' he hs' hfollows
  have hs'' : s'.shift = { s' with rest := new P ++ rest', passed := s'.passed + 1 } :=
    State.shift_of_rest hs'
  rw [extra_kept] at he
  have hn := hpass.noted
  rw [hshift.passed] at hn
  have hC' := (Agrees.split (Noted.kept s.passed hx.1) hn hC).2
  have hC'' : Agrees C s.shift.passed P R := by
    rw [hshift.passed]
    exact hC'
  have hrest' : s'.shift.rest = new P ++ rest' := by rw [hs'']
  obtain ⟨b, t', hb, ht', hr', hq⟩ := hsim hC'' he hrest' hfollows
  refine ⟨b, t', hb, ht', ?_, hq⟩
  rw [hr', hs'']

theorem position {k : Nat → Procedure α} {k' : Nat → Procedure β}
    (h : ∀ n n', Retraces C d x F S Q (k n) (k' n')) :
    Retraces C d x F S Q (position >>= k) (position >>= k') := by
  intro s t a hx hp
  -- The pieces do not depend on the index that the second run sees.
  obtain ⟨hb, P, R, hpass, hS, -⟩ := h s.passed 0 hx hp
  refine ⟨hb, P, R, hpass, hS, ?_⟩
  intro hC e s' rest' he hs' hfollows
  obtain ⟨-, P', R', hpass', -, hsim⟩ := h s.passed s'.passed hx hp
  obtain ⟨rfl, rfl⟩ := hpass.unique hpass'
  exact hsim hC he hs' hfollows

theorem extentFrom {first first' : Nat} {k : Extent Nat → Procedure α}
    {k' : Extent Nat → Procedure β} (h : ∀ X X', Retraces C d x F S Q (k X) (k' X')) :
    Retraces C d x F S Q (extentFrom first >>= k) (extentFrom first' >>= k') := by
  change Retraces C d x F S Q (Procedure.position >>= fun n => k ⟨first, n - 1⟩)
    (Procedure.position >>= fun n => k' ⟨first', n - 1⟩)
  exact position fun n n' => h _ _

/-- The expressions under way matter to neither run. -/
theorem build {e e' : Tree} {p : Procedure α} {p' : Procedure β}
    (h : Retraces C d x F S Q p p') : Retraces C d x F S Q (.build e p) (.build e' p') := by
  intro s t a hx hp
  obtain ⟨hb, P, R, hpass, hS, hsim⟩ := h (s := s.build e) hx hp
  refine ⟨hb, P, R, ⟨hpass.rest, hpass.passed, hpass.repairs, hpass.noted⟩, hS, ?_⟩
  intro hC e s' rest' he hs' hfollows
  exact hsim hC he (show (s'.build e').rest = new P ++ rest' from hs') hfollows

theorem widen {e e' : Tree} {p : Procedure α} {p' : Procedure β}
    (h : Retraces C d x F S Q p p') : Retraces C d x F S Q (.widen e p) (.widen e' p') := by
  intro s t a hx hp
  obtain ⟨hb, P, R, hpass, hS, hsim⟩ := h (s := s.widen e) hx hp
  refine ⟨hb, P, R, ⟨hpass.rest, hpass.passed, hpass.repairs, hpass.noted⟩, hS, ?_⟩
  intro hC e s' rest' he hs' hfollows
  exact hsim hC he (show (s'.widen e').rest = new P ++ rest' from hs') hfollows

theorem make {first first' : Nat} {e e' : Extent Nat → Tree} {k : Tree → Procedure α}
    {k' : Tree → Procedure β} (h : ∀ X X', Retraces C d x F S Q (k (e X)) (k' (e' X'))) :
    Retraces C d x F S Q (make first e >>= k) (make first' e' >>= k') := by
  change Retraces C d x F S Q
    (Procedure.extentFrom first >>= fun X => .build (e X) (k (e X)))
    (Procedure.extentFrom first' >>= fun X => .build (e' X) (k' (e' X)))
  exact extentFrom fun X X' => build (h X X')

/-- An expression that is made at the end. -/
theorem made {Q : Tree → Tree → Prop} {first first' : Nat} {e e' : Extent Nat → Tree}
    (hQ : ∀ X X', Q (e X) (e' X')) (hS : S []) :
    Retraces C d x F S Q (Procedure.make first e) (Procedure.make first' e') := by
  have h : Retraces C d x F S Q (Procedure.make first e >>= pure)
      (Procedure.make first' e' >>= pure) :=
    make fun X X' => done (hQ X X') hS
  rwa [bind_pure, bind_pure] at h

theorem mapped {f : γ → α} {f' : δ → β} {p : Procedure γ} {p' : Procedure δ}
    (h : Retraces C d x F S (fun a b => Q (f a) (f' b)) p p') :
    Retraces C d x F S Q (f <$> p) (f' <$> p') := by
  rw [map_eq_pure_bind, map_eq_pure_bind]
  intro s t a hx hp
  obtain ⟨c, m, hc, ha⟩ := exec_bind_accepted.1 hp
  cases ha
  obtain ⟨⟨b, hb⟩, P, R, hpass, hS, hsim⟩ := h hx hc
  refine ⟨⟨f' b, hb⟩, P, R, hpass, hS, ?_⟩
  intro hC e s' rest' he hs' hfollows
  obtain ⟨b, t', hb, ht', hr', hq⟩ := hsim hC he hs' hfollows
  exact ⟨f' b, t', exec_bind_accepted.2 ⟨b, t', hb, rfl⟩, ht', hr', hq⟩

theorem take (hx : Passable x) {k : Name Nat → Procedure α} {k' : Name Nat → Procedure β}
    (h : ∀ n n' y, Retraces C d y F (fun P => S (.kept x :: P)) Q (k ⟨x.lexeme, n⟩)
      (k' ⟨x.lexeme, n'⟩)) :
    Retraces C d x F S Q (take >>= k) (take >>= k') := by
  change Retraces C d x F S Q
    (Procedure.next >>= fun s => Procedure.position >>= fun n => .shift (k ⟨s.lexeme, n⟩))
    (Procedure.next >>= fun s => Procedure.position >>= fun n => .shift (k' ⟨s.lexeme, n⟩))
  refine next (position fun n n' => shift hx fun y => ?_)
  exact (h n n' y).weaken (fun _ hk => hk) (fun _ hS => ⟨hS, trivial⟩) fun _ _ hq => hq

/-- Whether the next symbol is acceptable decides; a mark in its place must not be. -/
theorem accept {e : Expectation} (he : ∀ y, e.accepts y = true → Passable y)
    {k : Bool → Procedure α} {k' : Bool → Procedure β}
    (hyes : e.accepts x = true → ∀ y,
      Retraces C d y F (fun P => S (.kept x :: P)) Q (k true) (k' true))
    (hno : e.accepts x = false →
      Retraces C d x F (fun P => S P ∧ Tolerates (fun y => e.accepts y = false) F P) Q
        (k false) (k' false)) :
    Retraces C d x F S Q (accept e >>= k) (accept e >>= k') := by
  change Retraces C d x F S Q
    (Procedure.next >>= fun s =>
      (if e.accepts s then .shift (.done true) else .done false) >>= k)
    (Procedure.next >>= fun s =>
      (if e.accepts s then .shift (.done true) else .done false) >>= k')
  refine next ?_
  by_cases hx : e.accepts x = true
  · simp only [hx, if_true]
    refine shift (he x hx) fun y => ?_
    exact (hyes hx y).weaken (fun _ hk => hk) (fun _ hS => ⟨hS, trivial⟩) fun _ _ hq => hq
  · rw [Bool.not_eq_true] at hx
    simp only [hx, Bool.false_eq_true, if_false]
    refine (hno hx).weaken (fun _ hk => hk) (fun P hS => ⟨hS.1, hS.2.mono ?_⟩) fun _ _ hq => hq
    intro y hy
    simp [hy]

/-- Both runs pass the same expected symbol. -/
theorem expect {expected : List Expectation}
    (he : ∀ y, (expected.any fun e => e.accepts y) = true → Passable y)
    {k : Name Nat → Procedure α} {k' : Name Nat → Procedure β}
    (h : (expected.any fun e => e.accepts x) = true → ∀ n n' y,
      Retraces C d y F (fun P => S (.kept x :: P)) Q (k ⟨x.lexeme, n⟩) (k' ⟨x.lexeme, n'⟩)) :
    Retraces C d x F S Q (expect expected >>= k) (expect expected >>= k') := by
  change Retraces C d x F S Q
    (Procedure.next >>= fun s =>
      (if expected.any fun e => e.accepts s then Procedure.take
        else .here fun n => .reject n expected) >>= k)
    (Procedure.next >>= fun s =>
      (if expected.any fun e => e.accepts s then Procedure.take
        else .here fun n => .reject n expected) >>= k')
  refine next ?_
  by_cases hx : (expected.any fun e => e.accepts x) = true
  · rw [if_pos hx]
    refine take (he x hx) fun n n' y => ?_
    exact (h hx n n' y).weaken (fun _ hk => hk) (fun _ hS => ⟨hS, trivial⟩) fun _ _ hq => hq
  · rw [if_neg hx]
    exact position fun n n' => reject

/-! ### Punctuation that may be missing -/

/-- The mark is there, or it is put in and then there. -/
theorem orMissing {m : Missing} {k : Kind} (hm : m.kind? = some k) :
    Retraces C d x allMarks (Marked k) (fun _ _ => True) (orMissing k m) (orMissing k m) := by
  have hk : k ≠ .error ∧ k ≠ .endOfInput := by
    cases m <;> cases hm <;> exact ⟨Kind.noConfusion, Kind.noConfusion⟩
  intro s t a hx hp
  rw [exec_orMissing] at hp
  refine ⟨⟨(), trivial⟩, ?_⟩
  by_cases hxk : x.kind = k
  · rw [hx, if_pos hxk] at hp
    cases hp
    obtain ⟨more, hrest⟩ := State.rest_of_next hx (hxk ▸ hk.2)
    refine ⟨[.kept x], [], Passes.shift hrest (hxk ▸ hk.1), .inl ⟨x, hxk, rfl⟩, ?_⟩
    intro _ e s' rest' _ hs' _
    refine ⟨(), s'.shift, ?_, ?_, ?_, trivial⟩
    · rw [exec_orMissing, if_pos]
      simp [State.next, hs', hxk]
    · rw [State.shift_of_rest hs']
      rfl
    · rw [State.shift_of_rest hs']
  · rw [hx, if_neg hxk] at hp
    cases hp
    refine ⟨[.behind k], _, Passes.repair s hm, .inr rfl, ?_⟩
    intro _ e s' rest' _ hs' _
    refine ⟨(), s'.shift, ?_, ?_, ?_, trivial⟩
    · rw [exec_orMissing, if_pos]
      simp [State.next, hs']
    · rw [State.shift_of_rest hs']
      rfl
    · rw [State.shift_of_rest hs']

/-- A run of semicolons ends where the symbols that follow do not begin with one. -/
theorem takeWhile_semicolons {w rest : List Symbol}
    (hw : ∀ s ∈ w, s.kind = .semicolon) (hrest : (rest.headD Symbol.finish).kind ≠ .semicolon) :
    (w ++ rest).takeWhile (fun s => s.kind = .semicolon) = w := by
  induction w with
  | nil =>
    cases rest with
    | nil => rfl
    | cons y more =>
      have hy : y.kind ≠ .semicolon := hrest
      simp [hy]
  | cons s w ih =>
    have hs : s.kind = .semicolon := hw s List.mem_cons_self
    simp [hs, ih fun y hy => hw y (List.mem_cons_of_mem s hy)]

theorem head_dropWhile_semicolons (rest : List Symbol) :
    ((rest.dropWhile fun s => s.kind = .semicolon).headD Symbol.finish).kind ≠ .semicolon := by
  induction rest with
  | nil => exact Kind.noConfusion
  | cons y more ih =>
    by_cases hy : y.kind = .semicolon
    · simpa [hy] using ih
    · simp [hy]

/-- Semicolons in a row are all kept, and no further one follows. -/
theorem passes_semicolons {s : State} (h : s.next.kind = .semicolon) :
    ∃ w, (∀ y ∈ s.next :: w, y.kind = .semicolon) ∧
      Passes s s.skipSemicolons ((s.next :: w).map .kept) [] ∧
      (s.skipSemicolons.rest.headD Symbol.finish).kind ≠ .semicolon := by
  obtain ⟨more, hrest⟩ := State.rest_of_next (s := s) rfl (by rw [h]; exact Kind.noConfusion)
  have hw : s.rest.takeWhile (fun y => y.kind = .semicolon) =
      s.next :: more.takeWhile (fun y => y.kind = .semicolon) := by
    rw [hrest]
    exact List.takeWhile_cons_of_pos (by simpa using h)
  have hrun : (s.next :: more.takeWhile (fun y => y.kind = .semicolon)) ++
      s.rest.dropWhile (fun y => y.kind = .semicolon) = s.rest := by
    rw [← hw]
    exact List.takeWhile_append_dropWhile
  have hall : ∀ y ∈ s.next :: more.takeWhile (fun y => y.kind = .semicolon),
      y.kind = .semicolon := by
    intro y hy
    rw [← hw] at hy
    simpa using List.all_eq_true.1 List.all_takeWhile y hy
  have hskip : s.skipSemicolons.rest = s.rest.dropWhile (fun y => y.kind = .semicolon) := by
    rw [State.skipSemicolons, hw]
    nth_rewrite 1 [← hrun]
    exact List.drop_left
  refine ⟨_, hall, ⟨?_, ?_, rfl, ?_⟩, ?_⟩
  · rw [old_map_kept, hskip, hrun]
  · rw [old_map_kept, State.skipSemicolons, hw]
  · exact Noted.keptAll _ fun y hy => by
      rw [hall y hy]
      exact Kind.noConfusion
  · rw [hskip]
    exact head_dropWhile_semicolons s.rest

/-- The end of a statement takes semicolons in a row as a whole. -/
theorem exec_statementEnd_of_semicolons {callee : (r : Rule) → State → Outcome r.Result}
    {s : State} {y : Symbol} {w rest : List Symbol} (hs : s.rest = (y :: w) ++ rest)
    (hw : ∀ z ∈ y :: w, z.kind = .semicolon)
    (hrest : (rest.headD Symbol.finish).kind ≠ .semicolon) :
    Procedure.statementEnd.exec callee s = .accepted () s.skipSemicolons ∧
      s.skipSemicolons.rest = rest := by
  have hnext : s.next.kind = .semicolon := by
    rw [State.next, hs]
    exact hw y List.mem_cons_self
  constructor
  · rw [exec_statementEnd, if_pos hnext]
  · rw [State.skipSemicolons, hs, takeWhile_semicolons hw hrest]
    exact List.drop_left

/-- A statement ends with all semicolons there are, or with the one that is put in. No other
semicolon may follow. -/
theorem statementEnd :
    Retraces C d x []
      (fun P => (Opens P ∨ P = [.behind .semicolon]) ∧ (x.kind = .semicolon → Opens P))
      (fun _ _ => True) statementEnd statementEnd := by
  intro s t a hx hp
  subst hx
  rw [exec_statementEnd] at hp
  refine ⟨⟨(), trivial⟩, ?_⟩
  by_cases hk : s.next.kind = .semicolon
  · rw [if_pos hk] at hp
    cases hp
    obtain ⟨w, hall, hpass, hstop⟩ := passes_semicolons hk
    have hopens : Opens ((s.next :: w).map .kept) := ⟨s.next, _, rfl⟩
    refine ⟨_, [], hpass, ⟨.inl hopens, fun _ => hopens⟩, ?_⟩
    intro _ e s' rest' _ hs' hfollows
    rw [new_map_kept] at hs'
    rw [← hfollows.head_eq] at hstop
    obtain ⟨hend, hrest'⟩ := exec_statementEnd_of_semicolons hs' hall hstop
    exact ⟨(), s'.skipSemicolons, hend, hrest', rfl, trivial⟩
  · rw [if_neg hk] at hp
    cases hp
    refine ⟨[.behind .semicolon], _, Passes.repair s rfl, ⟨.inr rfl, fun h => absurd h hk⟩, ?_⟩
    intro _ e s' rest' _ hs' hfollows
    -- The second run finds the semicolon that was put in, and nothing more in the row.
    have hstop : (rest'.headD Symbol.finish).kind ≠ .semicolon := by
      rw [hfollows.head_eq]
      exact hk
    obtain ⟨hend, hrest'⟩ := exec_statementEnd_of_semicolons (w := []) hs'
      (fun y hy => by rw [List.mem_singleton.1 hy]; rfl) hstop
    exact ⟨(), s'.skipSemicolons, hend, hrest', rfl, trivial⟩

/-- A parenthesis that is missed opens before the next symbol. -/
theorem passes_leftParen {s t : State} {y : Symbol} {P : List Piece} {R : List Repair}
    (h : Passes (s.repair .leftParen) t (.kept y :: P) R) :
    Passes s t (.opened none y :: P) (⟨s.passed, .leftParen⟩ :: R) := by
  refine ⟨h.rest, h.passed, ?_, .paren h.noted⟩
  rw [h.repairs, List.reverse_cons, List.append_assoc]
  rfl

/-- A parenthesis that is there is passed. -/
theorem leftParen_there {p : Procedure α} {p' : Procedure β} (hS : ∀ P, S P)
    (hparen : x.kind = .leftParen) (h : ∀ y, Retraces C d y F Opens Q p p') :
    Retraces C d x F S Q (leftParen >>= fun _ => p) (leftParen >>= fun _ => p') := by
  intro s t a hx hp
  rw [Procedure.leftParen, exec_orMissing_bind, hx, if_pos hparen] at hp
  have hpass : Passable x := by
    rw [Passable, hparen]
    exact ⟨Kind.noConfusion, Kind.noConfusion⟩
  have hshift : Retraces C d x F Opens Q (.shift p) (.shift p') :=
    shift hpass fun y =>
      (h y).weaken (fun _ hk => hk) (fun P _ => ⟨x, P, rfl⟩) fun _ _ hq => hq
  obtain ⟨hb, P, R, hpasses, ⟨y, P', rfl⟩, hsim⟩ := hshift hx hp
  refine ⟨hb, _, R, hpasses, hS _, ?_⟩
  intro hC e s' rest' he hs' hfollows
  have hnext : s'.next.kind = .leftParen := by
    rw [← hparen, ← hx, hpasses.next_eq rfl, State.next, hs']
    rfl
  obtain ⟨b, t', hb, ht', hr', hq⟩ := hsim hC he hs' hfollows
  refine ⟨b, t', ?_, ht', hr', hq⟩
  rw [Procedure.leftParen, exec_orMissing_bind, if_pos hnext]
  exact hb

/-- A parenthesis that is put in stands before the next symbol, which loses its line break to it. -/
theorem leftParen_missed {p : Procedure α} {p' : Procedure β} (hS : ∀ P, S P)
    (hparen : x.kind ≠ .leftParen) (hblind : ∀ e y, Blind (Rule.run e) y p')
    (h : Retraces C d x F Opens Q p p') :
    Retraces C d x F S Q (leftParen >>= fun _ => p) (leftParen >>= fun _ => p') := by
  intro s t a hx hp
  rw [Procedure.leftParen, exec_orMissing_bind, hx, if_neg hparen] at hp
  obtain ⟨hb, P, R, hpasses, ⟨y, P', rfl⟩, hsim⟩ := h (s := s.repair .leftParen) hx hp
  obtain rfl : y = x := (hpasses.next_eq rfl).symm.trans hx
  refine ⟨hb, .opened none y :: P', ⟨s.passed, .leftParen⟩ :: R, passes_leftParen hpasses,
    hS _, ?_⟩
  intro hC e s' rest' he hs' hfollows
  have hC' : Agrees C s.passed (.kept y :: P') R := by
    intro i T hi hi'
    rw [hC i T hi hi']
    simp
  have he' : d + callsPerSymbol * extra (.kept y :: P') ≤ e := by
    rw [extra_opened] at he
    rw [extra_kept]
    have := Nat.mul_le_mul_left callsPerSymbol
      (Nat.le_add_right (extra P') (opening none y.broken).length)
    omega
  -- The second run passes the parenthesis and goes on where no line break is left.
  have hrest : s'.rest = { Symbol.mark .leftParen with broken := y.broken } ::
      y.joined :: (new P' ++ rest') := by
    rw [hs', new_opened]
    rfl
  have hshift := State.shift_of_rest hrest
  have hrest' : ({ s'.shift with rest := y :: (new P' ++ rest') } : State).rest =
      new (.kept y :: P') ++ rest' := rfl
  obtain ⟨b, t', hb, ht', hr', hq⟩ := hsim hC' he' hrest' hfollows
  refine ⟨b, t', ?_, ht', ?_, hq⟩
  · rw [Procedure.leftParen, exec_orMissing_bind, if_pos]
    · have := hblind e y rfl hb
      rw [hshift] at this ⊢
      exact this
    · rw [State.next, hs', new_opened]
      rfl
  · rw [hr', hshift]

theorem leftParen {p : Procedure α} {p' : Procedure β} (hS : ∀ P, S P)
    (hblind : ∀ e y, Blind (Rule.run e) y p') (h : ∀ y, Retraces C d y F Opens Q p p') :
    Retraces C d x F S Q (leftParen >>= fun _ => p) (leftParen >>= fun _ => p') := by
  by_cases hparen : x.kind = .leftParen
  · exact leftParen_there hS hparen h
  · exact leftParen_missed hS hparen hblind (h x)

/-- The mark that is put in may lead the second run to another branch, which does the same as the
first run's one. -/
theorem instead {k : Kind} {p : Procedure α} {p' : Procedure β} (q : Procedure α)
    (q' : Procedure β) (hp : ∀ s, s.next = x → p.exec (Rule.run d) s = q.exec (Rule.run d) s)
    (hp' : ∀ e s, s.next = Symbol.mark k → p'.exec (Rule.run e) s = q'.exec (Rule.run e) s)
    (h : Retraces C d x F (fun P => S P ∧ ∃ P', P = .behind k :: P') Q q q') :
    Retraces C d x F S Q p p' := by
  intro s t a hx hpa
  rw [hp s hx] at hpa
  obtain ⟨hb, P, R, hpass, ⟨hS, P', rfl⟩, hsim⟩ := h hx hpa
  refine ⟨hb, _, R, hpass, hS, ?_⟩
  intro hC e s' rest' he hs' hfollows
  rw [hp' e s' (by rw [State.next, hs']; rfl)]
  exact hsim hC he hs' hfollows

/-- A rule is as good as its body. -/
theorem call (r r' : Rule) {Q : r.Result → r'.Result → Prop}
    (h : Retraces C d x F S Q r.body r'.body) : Retraces C (d + 1) x F S Q (run r) (run r') := by
  intro s t a hx hp
  rw [exec_run_succ] at hp
  obtain ⟨hb, P, R, hpass, hS, hsim⟩ := h hx hp
  refine ⟨hb, P, R, hpass, hS, ?_⟩
  intro hC e s' rest' he hs' hfollows
  cases e with
  | zero => omega
  | succ e =>
    rw [exec_run_succ]
    exact hsim hC (by omega) hs' hfollows

/-- A rule that reads a list calls itself for the rest of it. -/
theorem recursive (r : Rule) {Q : r.Result → r.Result → Prop}
    (h : ∀ d, (∀ x, Retraces C d x F S Q (run r) (run r)) →
      ∀ x, Retraces C d x F S Q r.body r.body) (d : Nat) (x : Symbol) :
    Retraces C d x F S Q (run r) (run r) := by
  induction d generalizing x with
  | zero =>
    intro s t a hx hp
    cases hp
  | succ d ih => exact call r r (h d ih x)

end Retraces

end Retrace

end Grammar

end ShaderRepair

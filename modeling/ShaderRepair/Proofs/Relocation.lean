import ShaderRepair.Proofs.Depth
import ShaderRepair.Proofs.Omission

/-!
# The same symbols elsewhere

A run may meet the same symbols twice: the second time they have other numbers, more symbols come
behind them, and a line break may have come or gone in front of the first one. This file contains:
- `Relabels`, the same symbols but for a line break in front of the first one;
- `Relocation`, symbols that are met twice, and what is shown for their numbers;
- `Relocation.Beside`, which says that two states stand at the same place, one in each list;
- what the steps of a procedure do to such states.
-/

namespace ShaderRepair

/-! ## A line break in front of the first symbol -/

/-- The same symbols, but a line break may have come or gone in front of the first one. -/
inductive Relabels : List Symbol → List Symbol → Prop where
  | nil : Relabels [] []
  | cons (x : Symbol) (broken : Bool) (more : List Symbol) :
      Relabels (x :: more) ({ x with broken := broken } :: more)

namespace Relabels

variable {xs ys : List Symbol}

theorem refl (xs : List Symbol) : Relabels xs xs := by
  cases xs with
  | nil => exact .nil
  | cons x more => exact .cons x x.broken more

/-- Behind the first symbol they are the same. -/
theorem drop_eq (h : Relabels xs ys) {n : Nat} (hn : 0 < n) : ys.drop n = xs.drop n := by
  obtain ⟨n, rfl⟩ : ∃ k, n = k + 1 := ⟨n - 1, by omega⟩
  cases h with
  | nil => rfl
  | cons x broken more => rfl

theorem drop (h : Relabels xs ys) (n : Nat) : Relabels (xs.drop n) (ys.drop n) := by
  rcases Nat.eq_zero_or_pos n with rfl | hn
  · exact h
  · rw [h.drop_eq hn]
    exact refl _

theorem length_eq (h : Relabels xs ys) : ys.length = xs.length := by
  cases h <;> rfl

theorem tail_eq (h : Relabels xs ys) : ys.tail = xs.tail := by
  cases h <;> rfl

theorem headD (h : Relabels xs ys) :
    ∃ b, ys.headD Symbol.finish = { xs.headD Symbol.finish with broken := b } := by
  cases h with
  | nil => exact ⟨false, rfl⟩
  | cons x broken more => exact ⟨broken, rfl⟩

/-- The lookahead for declarations does not see line breaks. -/
theorem startsDeclaration (h : Relabels xs ys) (more : List Symbol) :
    Symbol.startsDeclaration (ys ++ more) = Symbol.startsDeclaration (xs ++ more) := by
  cases h <;> rfl

end Relabels

/-! ## More symbols behind a semicolon -/

/-- The lookahead for declarations does not go beyond a semicolon. -/
theorem Symbol.nameAfterDims_of_semicolon (depth : Nat) {xs : List Symbol} {x : Symbol}
    (hx : xs.getLast? = some x) (hk : x.kind = .semicolon) (more : List Symbol) :
    nameAfterDims depth (xs ++ more) = nameAfterDims depth xs := by
  induction xs generalizing depth with
  | nil => cases hx
  | cons y ys ih =>
    -- Either the semicolon comes behind `y`, or it is `y`.
    cases ys with
    | nil =>
      obtain rfl : y = x := by simpa using hx
      cases depth <;> simp [nameAfterDims, hk]
    | cons z zs =>
      have hmore : ∀ depth, nameAfterDims depth (z :: zs ++ more) = nameAfterDims depth (z :: zs) :=
        fun depth => ih depth (by simpa using hx)
      generalize z :: zs = rest at hmore
      cases depth <;> simp only [List.cons_append, nameAfterDims, hmore]

theorem Symbol.startsDeclaration_of_semicolon {xs : List Symbol} {x : Symbol}
    (hx : xs.getLast? = some x) (hk : x.kind = .semicolon) (more : List Symbol) :
    startsDeclaration (xs ++ more) = startsDeclaration xs := by
  cases xs with
  | nil => cases hx
  | cons y ys =>
    cases ys with
    | nil =>
      obtain rfl : y = x := by simpa using hx
      simp [startsDeclaration, hk]
    | cons z zs =>
      have hmore : nameAfterDims 0 (z :: (zs ++ more)) = nameAfterDims 0 (z :: zs) :=
        nameAfterDims_of_semicolon 0 (by simpa using hx) hk more
      simp only [List.cons_append, startsDeclaration, hmore]

namespace Grammar

/-! ## Relocations -/

/-- The repair with other numbers. -/
def Repair.move (offset : Nat) (r : Repair) : Repair :=
  ⟨r.index + offset, match r.missing with
    | .conversion type first => .conversion type (first + offset)
    | m => m⟩

/-- Symbols that are met twice. The second time their numbers are larger by `offset`, `base` has
been noted already, and `more` symbols come behind them. What is shown for a number the first time
is shown for the new number the second time. -/
structure Relocation (μ : Type) where
  symbols : List Symbol
  symbols' : List Symbol
  more : List Symbol
  offset : Nat
  base : List Repair
  old : Nat → μ
  new : Nat → μ
  relabels : Relabels symbols symbols'
  agrees : ∀ i < symbols.length, old i = new (i + offset)
  /-- More symbols come behind a semicolon only. -/
  ends : more ≠ [] → ∀ x, symbols.getLast? = some x → x.kind = .semicolon
  /-- They go on with no other semicolon, and with no other branch. -/
  begins : ∀ x, more.head? = some x → x.kind ≠ .semicolon ∧ x.kind ≠ .else

namespace Relocation

variable {μ : Type} (ρ : Relocation μ)

/-- What is shown for an expression the first time. -/
def tree (e : Tree) : Expr (Extent μ) :=
  e.map (Extent.map ρ.old)

/-- What is shown for an expression the second time. -/
def tree' (e : Tree) : Expr (Extent μ) :=
  e.map (Extent.map ρ.new)

/-- The state `s` among the symbols met first and the state `s'` among those met later stand at the
same place and have noted the same. -/
structure Beside (s s' : State) : Prop where
  rest : s.rest = ρ.symbols.drop s.passed
  rest' : s'.rest = ρ.symbols'.drop s.passed ++ ρ.more
  passed : s'.passed = s.passed + ρ.offset
  repairs : s'.repairs = s.repairs.map (Repair.move ρ.offset) ++ ρ.base
  within : s.passed ≤ ρ.symbols.length

/-- The state is not at the end of its symbols, unless this is where all symbols end. -/
def Left (s : State) : Prop :=
  ρ.more = [] ∨ s.rest ≠ []

variable {ρ} {s s' t : State}

/-- A state that a run comes to leaves something only if the states before do. -/
theorem Left.of_le (h : ρ.Left t) (hle : t.rest.length ≤ s.rest.length) : ρ.Left s := by
  refine h.imp_right fun hne hs => hne ?_
  rw [hs] at hle
  exact List.length_eq_zero_iff.1 (Nat.le_zero.1 hle)

namespace Beside

theorem lt (h : ρ.Beside s s') (hs : s.rest ≠ []) : s.passed < ρ.symbols.length := by
  have hlen := List.length_pos_iff.2 hs
  rw [h.rest, List.length_drop] at hlen
  omega

/-- The symbols left are relabelled only before any has been passed. -/
theorem relabels (h : ρ.Beside s s') : ∃ ys, s'.rest = ys ++ ρ.more ∧ Relabels s.rest ys := by
  refine ⟨_, h.rest', ?_⟩
  rw [h.rest]
  exact ρ.relabels.drop s.passed

theorem rest'_eq (h : ρ.Beside s s') (hpos : 0 < s.passed) : s'.rest = s.rest ++ ρ.more := by
  rw [h.rest', h.rest, ρ.relabels.drop_eq hpos]

/-- If more symbols come behind, the last one of those left is a semicolon. -/
theorem ends (h : ρ.Beside s s') (hmore : ρ.more ≠ []) {x : Symbol}
    (hx : s.rest.getLast? = some x) : x.kind = .semicolon := by
  refine ρ.ends hmore x ?_
  rw [h.rest, List.getLast?_drop] at hx
  split at hx
  · cases hx
  · exact hx

/-! ### What is seen -/

/-- The next symbol is the same, but for a line break before it. -/
theorem next (h : ρ.Beside s s') (hs : ρ.Left s) : ∃ b, s'.next = { s.next with broken := b } := by
  obtain ⟨ys, hys, hrelabels⟩ := h.relabels
  obtain ⟨b, hb⟩ := hrelabels.headD
  refine ⟨b, ?_⟩
  rw [State.next, State.next, hys, ← hb]
  rcases hs with hnil | hne
  · rw [hnil, List.append_nil]
  · have hlen := List.length_pos_iff.2 hne
    rw [← hrelabels.length_eq] at hlen
    obtain ⟨y, ys, rfl⟩ := List.exists_cons_of_length_pos hlen
    rfl

/-- Behind the first symbol there is no difference. -/
theorem next_eq (h : ρ.Beside s s') (hs : ρ.Left s) (hpos : 0 < s.passed) : s'.next = s.next := by
  rw [State.next, State.next, h.rest'_eq hpos]
  rcases hs with hnil | hne
  · rw [hnil, List.append_nil]
  · obtain ⟨y, ys, hys⟩ := List.exists_cons_of_ne_nil hne
    rw [hys]
    rfl

/-- At the end of the symbols one run sees the end of input, the other one what comes behind. -/
theorem next_of_end (h : ρ.Beside s s') (hs : ¬ρ.Left s) :
    s.next = Symbol.finish ∧ ∃ y, ρ.more.head? = some y ∧ s'.next = y := by
  obtain ⟨hmore, hnil⟩ := not_or.1 hs
  have hnil : s.rest = [] := not_not.1 hnil
  obtain ⟨y, ys, hy⟩ := List.exists_cons_of_ne_nil hmore
  obtain ⟨zs, hzs, hrelabels⟩ := h.relabels
  rw [hnil] at hrelabels
  cases hrelabels
  refine ⟨?_, y, ?_, ?_⟩
  · rw [State.next, hnil]
    rfl
  · rw [hy]
    rfl
  · rw [State.next, hzs, hy]
    rfl

/-- Behind a symbol that is no semicolon comes the same one. -/
theorem second_eq (h : ρ.Beside s s') (hs : ρ.Left s) (hk : s.next.kind ≠ .semicolon) :
    s'.second = s.second := by
  obtain ⟨ys, hys, hrelabels⟩ := h.relabels
  have htail := hrelabels.tail_eq
  rw [State.second, State.second, hys, ← htail]
  rcases hs with hnil | hne
  · rw [hnil, List.append_nil]
  · obtain ⟨x, xs, hx⟩ := List.exists_cons_of_ne_nil hne
    cases xs with
    | nil =>
      -- The last symbol would be a semicolon if more came behind it.
      by_cases hmore : ρ.more = []
      · rw [hmore, List.append_nil]
      · have hlast : x.kind = .semicolon := h.ends hmore (by rw [hx]; rfl)
        rw [State.next, hx] at hk
        exact absurd hlast hk
    | cons z zs =>
      rw [hx] at htail
      cases ys with
      | nil => cases htail
      | cons y ys =>
        have hys : ys = z :: zs := htail
        rw [hys]
        rfl

theorem startsDeclaration (h : ρ.Beside s s') (hs : ρ.Left s) :
    Symbol.startsDeclaration s'.rest = Symbol.startsDeclaration s.rest := by
  obtain ⟨ys, hys, hrelabels⟩ := h.relabels
  rw [hys, hrelabels.startsDeclaration]
  by_cases hmore : ρ.more = []
  · rw [hmore, List.append_nil]
  · have hne := hs.resolve_left hmore
    have hx := List.getLast?_eq_some_getLast hne
    exact Symbol.startsDeclaration_of_semicolon hx (h.ends hmore hx) ρ.more

/-! ### What the steps do -/

theorem repair (h : ρ.Beside s s') {m m' : Missing}
    (hm : (⟨s'.passed, m'⟩ : Repair) = Repair.move ρ.offset ⟨s.passed, m⟩) :
    ρ.Beside (s.repair m) (s'.repair m') := by
  refine ⟨h.rest, h.rest', h.passed, ?_, h.within⟩
  simp only [State.repair, List.map_cons, List.cons_append, hm, h.repairs]

theorem build (h : ρ.Beside s s') (e e' : Tree) : ρ.Beside (s.build e) (s'.build e') :=
  ⟨h.rest, h.rest', h.passed, h.repairs, h.within⟩

theorem widen (h : ρ.Beside s s') (e e' : Tree) : ρ.Beside (s.widen e) (s'.widen e') :=
  ⟨h.rest, h.rest', h.passed, h.repairs, h.within⟩

/-- Both runs pass the next symbol. -/
theorem shift (h : ρ.Beside s s') (hx : Passable s.next) : ρ.Beside s.shift s'.shift := by
  obtain ⟨xs, hxs⟩ := State.rest_of_next rfl hx.2
  have hne : s.rest ≠ [] := by
    rw [hxs]
    exact List.cons_ne_nil _ _
  obtain ⟨b, hb⟩ := h.next (.inr hne)
  have hx' : Passable s'.next := by
    rw [hb]
    exact hx
  obtain ⟨ys, hys⟩ := State.rest_of_next rfl hx'.2
  have hlt := h.lt hne
  have hdrop : s'.rest.tail = ρ.symbols'.drop (s.passed + 1) ++ ρ.more := by
    have hlen : s.passed < ρ.symbols'.length := by
      rw [ρ.relabels.length_eq]
      exact hlt
    rw [h.rest', List.drop_eq_getElem_cons hlen]
    rfl
  rw [State.shift_of_rest hxs, State.shift_of_rest hys]
  refine ⟨?_, ?_, ?_, h.repairs, hlt⟩
  · rw [← List.drop_drop, ← h.rest, hxs]
    rfl
  · rw [← hdrop, hys]
    rfl
  · rw [h.passed]
    exact Nat.add_right_comm _ _ _

/-- Both runs pass the same semicolons, since no other one comes behind. -/
theorem skipSemicolons (h : ρ.Beside s s') : ρ.Beside s.skipSemicolons s'.skipSemicolons := by
  have hkinds : ∀ {xs ys : List Symbol}, Relabels xs ys →
      (ys.takeWhile fun x => decide (x.kind = .semicolon)).length =
        (xs.takeWhile fun x => decide (x.kind = .semicolon)).length := by
    intro xs ys hxs
    cases hxs with
    | nil => rfl
    | cons x broken more => by_cases hx : x.kind = .semicolon <;> simp [hx]
  -- What comes behind does not begin with a semicolon, so the runs stop where the first list does.
  have hmore : ρ.more.takeWhile (fun x => decide (x.kind = .semicolon)) = [] := by
    cases hm : ρ.more with
    | nil => rfl
    | cons y ys => simp [(ρ.begins y (by rw [hm]; rfl)).1]
  obtain ⟨ys, hys, hrelabels⟩ := h.relabels
  have hsame : (s'.rest.takeWhile fun x => decide (x.kind = .semicolon)).length =
      (s.rest.takeWhile fun x => decide (x.kind = .semicolon)).length := by
    rw [hys, List.takeWhile_append, hmore, List.append_nil, ← hkinds hrelabels]
    split
    · next heq => rw [heq]
    · rfl
  have hle : (s.rest.takeWhile fun x => decide (x.kind = .semicolon)).length ≤ s.rest.length :=
    (List.takeWhile_prefix _).length_le
  simp only [State.skipSemicolons, hsame]
  generalize (s.rest.takeWhile fun x => decide (x.kind = .semicolon)).length = n at hle
  have hlen : s.rest.length = ρ.symbols.length - s.passed := by rw [h.rest, List.length_drop]
  refine ⟨?_, ?_, ?_, h.repairs, ?_⟩
  · change s.rest.drop n = ρ.symbols.drop (s.passed + n)
    rw [h.rest, List.drop_drop]
  · change s'.rest.drop n = ρ.symbols'.drop (s.passed + n) ++ ρ.more
    rw [h.rest', List.drop_append_of_le_length, List.drop_drop]
    rw [List.length_drop, ρ.relabels.length_eq, ← hlen]
    exact hle
  · change s'.passed + n = s.passed + n + ρ.offset
    rw [h.passed]
    exact Nat.add_right_comm _ _ _
  · change s.passed + n ≤ ρ.symbols.length
    have := h.within
    omega

/-- Passing a symbol that is no semicolon does not lead to the end if more symbols come behind. -/
theorem left_shift (h : ρ.Beside s s') (hx : Passable s.next) (hk : s.next.kind ≠ .semicolon) :
    ρ.Left s.shift := by
  by_cases hmore : ρ.more = []
  · exact .inl hmore
  · obtain ⟨xs, hxs⟩ := State.rest_of_next rfl hx.2
    rw [Left, State.shift_of_rest hxs]
    refine .inr fun hnil => hk ?_
    have hnil : xs = [] := hnil
    exact h.ends hmore (by rw [hxs, hnil]; rfl)

end Beside

end Relocation

end Grammar

end ShaderRepair

import ShaderRepair.Correction
import ShaderRepair.Proofs.Piece

/-!
# What repairs put in

A repair puts marks behind symbols and openings before them. Each of these stands at a boundary, the
number of the symbol before which it is. This file contains:
- `Put`, what is put in at one boundary, and `Repair.puts`, what a repair puts in and where;
- `Put.edit`, the edit that does so, and that these are the edits of a correction;
- `Piece.gap`, what pieces have at a boundary;
- `Noted.putsAt_eq`, which says that the repairs of a run put in what its pieces have, in the order
  of the pieces, although a conversion opens before the repairs inside it are noted.
-/

namespace ShaderRepair

namespace Grammar

open Piece

/-! ## Marks and openings -/

/-- A mark behind the symbol before, or an opening before the symbol behind. -/
inductive Put where
  | behind (k : Kind)
  | before (type : Option Text)
  deriving DecidableEq, Repr

def Put.text : Put → Text
  | .behind k => k.name
  | .before none => Text.ascii "("
  | .before (some T) => T ++ Text.ascii "("

/-- What a repair puts in, each at its boundary. -/
def Repair.puts (r : Repair) : List (Nat × Put) :=
  match r.missing with
  | .semicolon => [(r.index, .behind .semicolon)]
  | .colon => [(r.index, .behind .colon)]
  | .comma => [(r.index, .behind .comma)]
  | .rightParen => [(r.index, .behind .rightParen)]
  | .leftParen => [(r.index, .before none)]
  | .conversion T first => [(first, .before (some T)), (r.index, .behind .rightParen)]

theorem Repair.puts_of_kind? {m : Missing} {k : Kind} (h : m.kind? = some k) (n : Nat) :
    Repair.puts ⟨n, m⟩ = [(n, .behind k)] := by
  cases m <;> simp_all [Missing.kind?, Repair.puts]

/-- The edit that puts something in at a boundary. -/
def Put.edit (stream : Stream) : Nat × Put → Edit
  | (n, .behind k) => Correction.after (stream.token (n - 1)) (Put.behind k).text
  | (n, .before type) => Correction.before (stream.token n) (Put.before type).text

@[simp] theorem Put.text_edit (stream : Stream) (x : Nat × Put) :
    (Put.edit stream x).text = x.2.text := by
  obtain ⟨m, x⟩ := x
  cases x <;> rfl

theorem edits_ofRepair (stream : Stream) (r : Repair) :
    (Correction.ofRepair stream r).edits = r.puts.map (Put.edit stream) := by
  obtain ⟨index, missing⟩ := r
  cases missing <;> rfl

/-- What repairs put in at one boundary. -/
def putsAt (R : List Repair) (n : Nat) : List Put :=
  (R.flatMap Repair.puts).filterMap fun x => if x.1 = n then some x.2 else none

@[simp] theorem putsAt_nil (n : Nat) : putsAt [] n = [] := rfl

theorem putsAt_append (R R' : List Repair) (n : Nat) :
    putsAt (R ++ R') n = putsAt R n ++ putsAt R' n := by
  rw [putsAt, List.flatMap_append, List.filterMap_append]
  rfl

theorem mem_putsAt {R : List Repair} {n : Nat} {x : Put} :
    x ∈ putsAt R n ↔ (n, x) ∈ R.flatMap Repair.puts := by
  simp only [putsAt, List.mem_filterMap, Option.ite_none_right_eq_some, Option.some.injEq]
  constructor
  · rintro ⟨⟨m, y⟩, hy, rfl, rfl⟩
    exact hy
  · exact fun hx => ⟨(n, x), hx, rfl, rfl⟩

theorem putsAt_eq_nil {R : List Repair} {n : Nat} (h : ∀ x ∈ R.flatMap Repair.puts, x.1 ≠ n) :
    putsAt R n = [] := by
  rw [List.eq_nil_iff_forall_not_mem]
  intro x hx
  exact h _ (mem_putsAt.1 hx) rfl

/-! ## Where things are put in -/

/-- A mark stands at one of the symbols `w` or behind them, an opening before one of them, and the
opening of a call behind the sign of an initializer. The first symbol has the number `n`. -/
def Proper (n : Nat) (w : List Symbol) : Nat × Put → Prop
  | (m, .behind k) => n ≤ m ∧ m ≤ n + w.length ∧ isMark k = true
  | (m, .before none) => n ≤ m ∧ m < n + w.length
  | (m, .before (some T)) => (ValueType.lookup T).isSome = true ∧
      ∃ i sign, m = n + i + 1 ∧ i + 1 < w.length ∧ w[i]? = some sign ∧ equals.accepts sign = true

theorem Proper.append_left {n : Nat} {w : List Symbol} {x : Nat × Put} (h : Proper n w x)
    (w' : List Symbol) : Proper n (w ++ w') x := by
  match x, h with
  | (m, .behind k), ⟨h₁, h₂, h₃⟩ =>
    exact ⟨h₁, by rw [List.length_append]; omega, h₃⟩
  | (m, .before none), ⟨h₁, h₂⟩ =>
    exact ⟨h₁, by rw [List.length_append]; omega⟩
  | (m, .before (some T)), ⟨hT, i, sign, hm, hi, hw, hsign⟩ =>
    refine ⟨hT, i, sign, hm, by rw [List.length_append]; omega, ?_, hsign⟩
    rw [List.getElem?_append_left (by omega)]
    exact hw

theorem Proper.append_right {n : Nat} {w : List Symbol} {w' : List Symbol} {x : Nat × Put}
    (h : Proper (n + w'.length) w x) : Proper n (w' ++ w) x := by
  match x, h with
  | (m, .behind k), ⟨h₁, h₂, h₃⟩ =>
    exact ⟨by omega, by rw [List.length_append]; omega, h₃⟩
  | (m, .before none), ⟨h₁, h₂⟩ =>
    exact ⟨by omega, by rw [List.length_append]; omega⟩
  | (m, .before (some T)), ⟨hT, i, sign, hm, hi, hw, hsign⟩ =>
    refine ⟨hT, w'.length + i, sign, by omega, by rw [List.length_append]; omega, ?_, hsign⟩
    rw [List.getElem?_append_right (Nat.le_add_right _ _), Nat.add_sub_cancel_left]
    exact hw

theorem Proper.le {n : Nat} {w : List Symbol} {x : Nat × Put} (h : Proper n w x) :
    n ≤ x.1 ∧ x.1 ≤ n + w.length := by
  match x, h with
  | (m, .behind k), ⟨h₁, h₂, h₃⟩ => exact ⟨h₁, h₂⟩
  | (m, .before none), ⟨h₁, h₂⟩ => exact ⟨h₁, Nat.le_of_lt h₂⟩
  | (m, .before (some T)), ⟨hT, i, sign, hm, hi, hw, hsign⟩ =>
    simp only [hm]
    omega

/-- Whatever a run puts in is proper. -/
theorem Noted.proper {n : Nat} {P : List Piece} {R : List Repair} (h : Noted n P R) :
    ∀ x ∈ R.flatMap Repair.puts, Proper n (old P) x := by
  -- Pieces behind a run only add symbols: what was proper stays so.
  induction h with
  | nil n => simp
  | kept n hs => simp
  | behind n hm =>
    rename_i m k
    intro x hx
    rw [List.flatMap_singleton, Repair.puts_of_kind? hm, List.mem_singleton] at hx
    subst hx
    exact ⟨Nat.le_refl _, Nat.le_add_right _ _, Missing.isMark_of_kind? hm⟩
  | append h₁ h₂ ih₁ ih₂ =>
    intro x hx
    rw [List.flatMap_append, List.mem_append] at hx
    rw [old_append]
    rcases hx with hx | hx
    · exact (ih₁ x hx).append_left _
    · exact (ih₂ x hx).append_right
  | paren h ih =>
    rename_i n s P R
    intro x hx
    rw [List.flatMap_cons, List.mem_append] at hx
    rcases hx with hx | hx
    · rw [Repair.puts, List.mem_singleton] at hx
      subst hx
      exact ⟨Nat.le_refl _, by simp⟩
    · exact ih x hx
  | conversion hs hT h ih =>
    rename_i n sign s T P R
    intro x hx
    have hold : old (.kept sign :: .opened (some T) s :: (P ++ [.behind .rightParen])) =
        [sign] ++ old (.kept s :: P) := by simp
    rw [hold]
    rw [List.flatMap_append, List.mem_append] at hx
    rcases hx with hx | hx
    · exact Proper.append_right (ih x hx)
    · rw [List.flatMap_singleton, Repair.puts, List.mem_cons, List.mem_singleton] at hx
      rcases hx with rfl | rfl
      · exact ⟨hT, 0, sign, rfl, by simp, rfl, hs⟩
      · refine ⟨?_, ?_, rfl⟩
        · simp only
          omega
        · simp only [List.length_append, List.length_singleton]
          omega

/-- What pieces put behind symbols are marks. -/
theorem Noted.isMark_of_mem {n : Nat} {P : List Piece} {R : List Repair} (h : Noted n P R) :
    ∀ k, .behind k ∈ P → isMark k = true := by
  induction h with
  | nil n => simp
  | kept n hs => simp
  | behind n hm =>
    intro k hk
    cases List.mem_singleton.1 hk
    exact Missing.isMark_of_kind? hm
  | append h₁ h₂ ih₁ ih₂ =>
    intro k hk
    exact (List.mem_append.1 hk).elim (ih₁ k) (ih₂ k)
  | paren h ih =>
    intro k hk
    simp only [List.mem_cons, reduceCtorEq, false_or] at hk
    exact ih k (List.mem_cons_of_mem _ hk)
  | conversion hs hT h ih =>
    intro k hk
    simp only [List.mem_cons, List.mem_append, List.not_mem_nil, or_false, reduceCtorEq, false_or,
      Piece.behind.injEq] at hk
    rcases hk with hk | rfl
    · exact ih k (List.mem_cons_of_mem _ hk)
    · rfl

/-! ## What pieces have at a boundary -/

/-- Marks behind the symbol before a boundary, and then what opens before the symbol behind it. -/
def Piece.gap : List Piece → Nat → List Put
  | [], _ => []
  | .kept _ :: _, 0 => []
  | .kept _ :: P, j + 1 => Piece.gap P j
  | .behind k :: P, 0 => .behind k :: Piece.gap P 0
  | .behind _ :: P, j + 1 => Piece.gap P (j + 1)
  | .opened type _ :: _, 0 => [.before type]
  | .opened _ _ :: P, j + 1 => Piece.gap P j

theorem Piece.gap_append (P P' : List Piece) (j : Nat) :
    Piece.gap (P ++ P') j =
      Piece.gap P j ++ if (old P).length ≤ j then Piece.gap P' (j - (old P).length) else [] := by
  induction P generalizing j with
  | nil => cases j <;> simp [Piece.gap]
  | cons p P ih =>
    cases p with
    | kept s =>
      cases j with
      | zero => simp [Piece.gap]
      | succ j => simp [Piece.gap, ih]
    | behind k =>
      cases j with
      | zero => simp [Piece.gap, ih]
      | succ j => exact ih (j + 1)
    | opened type s =>
      cases j with
      | zero => simp [Piece.gap]
      | succ j => simp [Piece.gap, ih]

/-- A mark at the end of pieces stands at their last boundary. -/
theorem Piece.gap_concat_behind (P : List Piece) (k : Kind) (j : Nat) :
    Piece.gap (P ++ [.behind k]) j =
      Piece.gap P j ++ if j = (old P).length then [.behind k] else [] := by
  rw [Piece.gap_append]
  congr 1
  rcases Nat.lt_trichotomy j (old P).length with hj | rfl | hj
  · rw [if_neg (by omega), if_neg (by omega)]
  · rw [if_pos (Nat.le_refl _), if_pos rfl, Nat.sub_self]
    rfl
  · obtain ⟨i, hi⟩ : ∃ i, j - (old P).length = i + 1 := ⟨j - (old P).length - 1, by omega⟩
    rw [if_pos (Nat.le_of_lt hj), if_neg (by omega), hi]
    rfl

/-- Repairs put in nothing before the symbols that they were noted at. -/
theorem Noted.putsAt_of_lt {n m : Nat} {P : List Piece} {R : List Repair} (h : Noted n P R)
    (hm : m < n) : putsAt R m = [] := by
  refine putsAt_eq_nil ?_
  intro x hx
  have := (h.proper x hx).le.1
  omega

theorem putsAt_conversion (index : Nat) (T : Text) (first n : Nat) :
    putsAt [⟨index, .conversion T first⟩] n =
      (if first = n then [.before (some T)] else []) ++
        if index = n then [.behind .rightParen] else [] := by
  by_cases hfirst : first = n <;> by_cases hindex : index = n <;>
    simp [putsAt, Repair.puts, hfirst, hindex]

/-- At every boundary the repairs of a run put in what its pieces have there. -/
theorem Noted.putsAt_eq {n : Nat} {P : List Piece} {R : List Repair} (h : Noted n P R) (j : Nat) :
    putsAt R (n + j) = Piece.gap P j := by
  induction h generalizing j with
  | nil n => cases j <;> rfl
  | kept n hs => cases j <;> rfl
  | behind n hm =>
    rename_i m k
    rw [putsAt, List.flatMap_singleton, Repair.puts_of_kind? hm]
    cases j with
    | zero => simp [Piece.gap]
    | succ j => simp [Piece.gap]
  | append h₁ h₂ ih₁ ih₂ =>
    rename_i n P P' R R'
    rw [putsAt_append, ih₁, Piece.gap_append]
    congr 1
    split
    · next hle =>
      have hj : n + j = n + (old P).length + (j - (old P).length) := by omega
      rw [hj, ih₂]
    · next hlt => exact h₂.putsAt_of_lt (by omega)
  | paren h ih =>
    rename_i n s P R
    have hR := ih j
    have happ : putsAt (⟨n, .leftParen⟩ :: R) (n + j) =
        putsAt [⟨n, .leftParen⟩] (n + j) ++ putsAt R (n + j) := putsAt_append [_] R _
    rw [happ, hR]
    cases j with
    | zero => simp [putsAt, Repair.puts, Piece.gap]
    | succ j => simp [putsAt, Repair.puts, Piece.gap]
  | conversion hs hT h ih =>
    rename_i n sign s T P R
    have hlen : (old (.kept s :: P)).length = (old P).length + 1 := rfl
    rw [putsAt_append, putsAt_conversion, hlen]
    match j with
    | 0 =>
      rw [Nat.add_zero, h.putsAt_of_lt (Nat.lt_succ_self n), if_neg (by omega), if_neg (by omega)]
      rfl
    | 1 =>
      have hfirst : putsAt R (n + 1) = [] := ih 0
      rw [hfirst, if_pos rfl, if_neg (by omega)]
      rfl
    | i + 2 =>
      have hR : putsAt R (n + (i + 2)) = Piece.gap P i := by
        rw [show n + (i + 2) = n + 1 + (i + 1) by omega]
        exact ih (i + 1)
      have hgap : Piece.gap (.kept sign :: .opened (some T) s :: (P ++ [.behind .rightParen]))
          (i + 2) = Piece.gap (P ++ [.behind .rightParen]) i := rfl
      rw [hR, hgap, Piece.gap_concat_behind, if_neg (by omega), List.nil_append]
      -- The closing parenthesis stands behind the last symbol of the initializer.
      congr 1
      exact if_congr (by omega) rfl rfl

end Grammar

end ShaderRepair

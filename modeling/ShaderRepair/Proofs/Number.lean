import Mathlib.Data.List.TakeWhile
import ShaderRepair.Token.Number

/-!
# Number literals

The number literals as texts, and how far each form reaches at the front of a text: over the longest
literal of its form that stands there. What a literal reaches over, it reaches over whatever the
text goes on with, or farther. This file contains:
- `Spans`, which says so of a reach, and names the bytes that it reaches over;
- `Number.IsInteger`, `IsUnsigned`, `IsExponent`, `IsBody`, `IsFloat` and `IsDouble`, the texts of
  each form;
- `Number.Matches`, which ties a reach to the texts of a form, with one lemma for each form;
- `Number.eq_zero_of_not_start`, what number literals begin with.
-/

namespace ShaderRepair

/-- At the front of any text, `reach` covers bytes of a class only, and it covers them again
whatever follows them. -/
def Spans (reach : Text → Nat) (member : UInt8 → Bool) : Prop :=
  ∀ s, ∃ u x, s = u ++ x ∧ reach s = u.length ∧ (∀ b ∈ u, member b = true) ∧
    ∀ y, u.length ≤ reach (u ++ y)

theorem Spans.mono {reach : Text → Nat} {member member' : UInt8 → Bool} (h : Spans reach member)
    (hm : ∀ b, member b = true → member' b = true) : Spans reach member' := by
  intro s
  obtain ⟨u, x, hs, hu, hb, hy⟩ := h s
  exact ⟨u, x, hs, hu, fun b hbu => hm b (hb b hbu), hy⟩

/-- A byte outside the class ends what is covered. -/
theorem Spans.le_of_stop {reach : Text → Nat} {member : UInt8 → Bool} (h : Spans reach member)
    {u x : Text} {c : UInt8} (hc : member c = false) : reach (u ++ c :: x) ≤ u.length := by
  obtain ⟨w, y, hs, hw, hb, -⟩ := h (u ++ c :: x)
  rw [hw]
  by_contra hlt
  have hmem : c ∈ w := by
    have hget : (u ++ c :: x)[u.length]? = some c := by simp
    rw [hs, List.getElem?_append_left (by omega)] at hget
    exact List.mem_of_getElem? hget
  rw [hb c hmem] at hc
  cases hc

namespace Number

/-! ## Runs -/

section Run

variable {member : UInt8 → Bool} {u x : Text}

theorem run_append (h : ∀ b ∈ u, member b = true) :
    run member (u ++ x) = u.length + run member x := by
  rw [run, run, List.takeWhile_append_of_pos h, List.length_append]

/-- The run at the front of a text, and what does not belong to it. -/
theorem exists_run (member : UInt8 → Bool) (s : Text) :
    ∃ u x, s = u ++ x ∧ run member s = u.length ∧ (∀ b ∈ u, member b = true) ∧
      run member x = 0 := by
  refine ⟨s.takeWhile member, s.dropWhile member, List.takeWhile_append_dropWhile.symm, rfl, ?_, ?_⟩
  · exact fun b hb => List.mem_takeWhile_imp hb
  · have hlen : run member (s.takeWhile member ++ s.dropWhile member) =
        (s.takeWhile member).length + run member (s.dropWhile member) :=
      run_append fun b hb => List.mem_takeWhile_imp hb
    rw [List.takeWhile_append_dropWhile, run] at hlen
    omega

theorem run_spans (member : UInt8 → Bool) : Spans (run member) member := by
  intro s
  obtain ⟨u, x, hs, hu, hb, -⟩ := exists_run member s
  refine ⟨u, x, hs, hu, hb, ?_⟩
  intro y
  rw [run_append hb]
  exact Nat.le_add_right _ _

end Run

theorem startsWith_cons (a b : Char) (c : UInt8) (s : Text) :
    startsWith a b (c :: s) = (c = byte a || c = byte b) := rfl

/-- What a text goes on with is its first byte. -/
theorem exists_of_startsWith {a b : Char} {s : Text} (h : startsWith a b s = true) :
    ∃ c x, s = c :: x ∧ (c = byte a ∨ c = byte b) := by
  cases s with
  | nil => cases h
  | cons c x =>
    rw [startsWith_cons, Bool.or_eq_true, decide_eq_true_eq, decide_eq_true_eq] at h
    exact ⟨c, x, rfl, h⟩

/-! ## Forms of literals -/

/-- The function `reach` covers a text of the form at the front of a text, if there is one, and what
it covers is at least as long as any text of the form there. -/
structure Matches (reach : Text → Nat) (form : Text → Prop) : Prop where
  sound : ∀ s, reach s ≠ 0 → ∃ u x, s = u ++ x ∧ reach s = u.length ∧ form u
  complete : ∀ u, form u → ∀ y, u.length ≤ reach (u ++ y)

namespace Matches

variable {reach : Text → Nat} {form : Text → Prop} {member : UInt8 → Bool}

/-- What stands at the front of a text, with nothing if there is no text of the form. -/
theorem exists_front (h : Matches reach form) (s : Text) :
    ∃ u x, s = u ++ x ∧ reach s = u.length ∧ (u = [] ∨ form u) := by
  by_cases hzero : reach s = 0
  · exact ⟨[], s, rfl, hzero, .inl rfl⟩
  · obtain ⟨u, x, hs, hu, hform⟩ := h.sound s hzero
    exact ⟨u, x, hs, hu, .inr hform⟩

theorem spans (h : Matches reach form) (hm : ∀ u, form u → ∀ b ∈ u, member b = true) :
    Spans reach member := by
  intro s
  obtain ⟨u, x, hs, hu, rfl | hform⟩ := h.exists_front s
  · exact ⟨[], x, hs, hu, by simp, fun y => Nat.zero_le _⟩
  · exact ⟨u, x, hs, hu, hm u hform, h.complete u hform⟩

/-- A text of the form is covered and no more, if what follows begins with no byte of the form. -/
theorem eq_of_stop (h : Matches reach form) (hm : Spans reach member) {u : Text} (hu : form u)
    {c : UInt8} (hc : member c = false) (y : Text) : reach (u ++ c :: y) = u.length :=
  Nat.le_antisymm (hm.le_of_stop hc) (h.complete u hu (c :: y))

/-- An ending of one byte behind a text of the form. -/
theorem exists_ending (h : Matches reach form) {a b : Char} {s : Text}
    (hs : (reach s > 0 && startsWith a b (s.drop (reach s))) = true) :
    ∃ u c x, s = u ++ c :: x ∧ reach s = u.length ∧ form u ∧ (c = byte a ∨ c = byte b) := by
  simp only [Bool.and_eq_true, decide_eq_true_eq] at hs
  obtain ⟨hpos, hend⟩ := hs
  obtain ⟨u, x, rfl, hu, hform⟩ := h.sound s (Nat.ne_of_gt hpos)
  rw [hu, List.drop_left] at hend
  obtain ⟨c, x, rfl, hc⟩ := exists_of_startsWith hend
  exact ⟨u, c, x, rfl, hu, hform, hc⟩

end Matches

/-- Bytes of a class, at least one. -/
def IsRun (member : UInt8 → Bool) (u : Text) : Prop :=
  u ≠ [] ∧ ∀ b ∈ u, member b = true

/-! ## Integers -/

/-- An integer literal. -/
inductive IsInteger : Text → Prop where
  | hex {c : UInt8} {u : Text} (hc : c = byte 'x' ∨ c = byte 'X') (hu : IsRun isHexDigit u) :
      IsInteger (byte '0' :: c :: u)
  | digits {u : Text} (hu : IsRun isDigit u) : IsInteger u

/-- The bytes of an integer literal. -/
def isIntegerByte (b : UInt8) : Bool :=
  isHexDigit b || b = byte 'x' || b = byte 'X'

theorem isHexDigit_of_isDigit {b : UInt8} (h : isDigit b = true) : isHexDigit b = true := by
  simp [isHexDigit, h]

theorem run_isDigit_le_integer (s : Text) : run isDigit s ≤ integer s := by
  unfold integer
  split
  · next h =>
    simp only [Bool.and_eq_true, decide_eq_true_eq, List.take_one] at h
    obtain ⟨c, x, hx, hc⟩ := exists_of_startsWith h.1.2
    have hs : s = byte '0' :: c :: x := by
      cases s with
      | nil => cases hx
      | cons b s =>
        simp only [List.head?_cons, Option.toList_some, List.cons.injEq, and_true] at h
        simp only [List.drop_succ_cons, List.drop_zero] at hx
        rw [h.1.1, hx]
    have hc' : isDigit c = false := by
      rcases hc with rfl | rfl <;> rfl
    have hrun : run isDigit s = 1 := by
      rw [hs]
      simp [run, hc', show isDigit (byte '0') = true from rfl]
    omega
  · exact Nat.le_refl _

theorem integer_hex {c : UInt8} {u : Text} (x : Text) (hc : c = byte 'x' ∨ c = byte 'X')
    (hu : ∀ b ∈ u, isHexDigit b = true) (hne : u ≠ []) :
    integer (byte '0' :: c :: (u ++ x)) = run isHexDigit (u ++ x) + 2 := by
  have hpos : 0 < run isHexDigit (u ++ x) := by
    rw [run_append hu]
    have := List.length_pos_iff.2 hne
    omega
  have hstart : startsWith 'x' 'X' (c :: (u ++ x)) = true := by
    rw [startsWith_cons]
    rcases hc with rfl | rfl <;> rfl
  simp [integer, hstart, hpos]

theorem integer_matches : Matches integer IsInteger where
  sound := by
    intro s hne
    by_cases h : s.take 1 = [byte '0'] && startsWith 'x' 'X' (s.drop 1) &&
        run isHexDigit (s.drop 2) > 0
    · -- A hexadecimal prefix counts only with digits behind it.
      have hint : integer s = run isHexDigit (s.drop 2) + 2 := if_pos h
      simp only [Bool.and_eq_true, decide_eq_true_eq] at h
      obtain ⟨⟨h0, hx⟩, hpos⟩ := h
      obtain ⟨c, x, hcx, hc⟩ := exists_of_startsWith hx
      obtain ⟨u, y, hu, hrun, hb, -⟩ := exists_run isHexDigit x
      have hs : s = byte '0' :: c :: (u ++ y) := by
        cases s with
        | nil => cases h0
        | cons b s =>
          simp only [List.take_succ_cons, List.take_zero, List.cons.injEq, and_true] at h0
          simp only [List.drop_succ_cons, List.drop_zero] at hcx
          rw [h0, hcx, hu]
      have hdrop : s.drop 2 = x := by rw [hs, hu]; rfl
      rw [hdrop, hrun] at hint hpos
      exact ⟨byte '0' :: c :: u, y, hs, hint, .hex hc ⟨List.ne_nil_of_length_pos hpos, hb⟩⟩
    · have hint : integer s = run isDigit s := if_neg h
      obtain ⟨u, x, hs, hu, hb, -⟩ := exists_run isDigit s
      rw [hint, hu] at hne
      exact ⟨u, x, hs, hint.trans hu, .digits ⟨List.ne_nil_of_length_pos (by omega), hb⟩⟩
  complete := by
    intro u hu y
    cases hu with
    | hex hc hu =>
      rw [List.cons_append, List.cons_append, integer_hex y hc hu.2 hu.1, run_append hu.2]
      simp only [List.length_cons]
      omega
    | digits hu =>
      have hle := run_isDigit_le_integer (u ++ y)
      rw [run_append hu.2] at hle
      omega

theorem integer_bytes (u : Text) (h : IsInteger u) : ∀ b ∈ u, isIntegerByte b = true := by
  intro b hb
  cases h with
  | hex hc hu =>
    simp only [List.mem_cons] at hb
    rcases hb with rfl | rfl | hb
    · rfl
    · rcases hc with rfl | rfl <;> rfl
    · simp [isIntegerByte, hu.2 b hb]
  | digits hu => simp [isIntegerByte, isHexDigit_of_isDigit (hu.2 b hb)]

theorem integer_spans : Spans integer isIntegerByte :=
  integer_matches.spans integer_bytes

theorem integer_ne_nil {u : Text} (h : IsInteger u) : u ≠ [] := by
  cases h with
  | hex => exact List.cons_ne_nil _ _
  | digits hu => exact hu.1

/-- An integer literal with its ending. -/
inductive IsUnsigned : Text → Prop where
  | mk {u : Text} {c : UInt8} (hu : IsInteger u) (hc : c = byte 'u' ∨ c = byte 'U') :
      IsUnsigned (u ++ [c])

/-- The bytes of an integer literal with an ending. -/
def isUnsignedByte (b : UInt8) : Bool :=
  isIntegerByte b || b = byte 'u' || b = byte 'U'

theorem unsigned_matches : Matches unsigned IsUnsigned where
  sound := by
    intro s hne
    by_cases h : integer s > 0 && startsWith 'u' 'U' (s.drop (integer s))
    · have huns : unsigned s = integer s + 1 := if_pos h
      obtain ⟨w, c, x, hs, hw, hform, hc⟩ := integer_matches.exists_ending h
      exact ⟨w ++ [c], x, by simp [hs], by simp [huns, hw], .mk hform hc⟩
    · exact absurd (if_neg h) hne
  complete := by
    intro u hu y
    cases hu with
    | @mk u c hu hc =>
      have hcm : isIntegerByte c = false := by rcases hc with rfl | rfl <;> rfl
      have hstart : startsWith 'u' 'U' (c :: y) = true := by rcases hc with rfl | rfl <;> rfl
      have hpos := List.length_pos_iff.2 (integer_ne_nil hu)
      have hagain := integer_matches.eq_of_stop integer_spans hu hcm y
      simp [unsigned, hagain, hpos, hstart]

theorem unsigned_bytes (u : Text) (h : IsUnsigned u) : ∀ b ∈ u, isUnsignedByte b = true := by
  obtain ⟨hu, hc⟩ := h
  intro b hb
  rcases List.mem_append.1 hb with hb | hb
  · simp [isUnsignedByte, integer_bytes _ hu b hb]
  · rw [List.mem_singleton.1 hb]
    rcases hc with rfl | rfl <;> rfl

theorem unsigned_spans : Spans unsigned isUnsignedByte :=
  unsigned_matches.spans unsigned_bytes

/-! ## Floats -/

/-- The bytes of a float without its ending. -/
def isBodyByte (b : UInt8) : Bool :=
  isDigit b || b = byte '.' || b = byte 'e' || b = byte 'E' || b = byte '+' || b = byte '-'

theorem isBodyByte_of_isDigit {b : UInt8} (h : isDigit b = true) : isBodyByte b = true := by
  simp [isBodyByte, h]

/-- A sign of an exponent, or none. -/
def IsSign (u : Text) : Prop :=
  u = [] ∨ u = [byte '+'] ∨ u = [byte '-']

/-- An exponent. -/
inductive IsExponent : Text → Prop where
  | mk {c : UInt8} {sign u : Text} (hc : c = byte 'e' ∨ c = byte 'E') (hsign : IsSign sign)
      (hu : IsRun isDigit u) : IsExponent (c :: (sign ++ u))

theorem exponent_digits {c : UInt8} {sign u : Text} (x : Text) (hc : c = byte 'e' ∨ c = byte 'E')
    (hsign : IsSign sign) (hu : ∀ b ∈ u, isDigit b = true) (hne : u ≠ []) :
    exponent (c :: (sign ++ (u ++ x))) = 1 + sign.length + run isDigit (u ++ x) := by
  have hstart : startsWith 'e' 'E' (c :: (sign ++ (u ++ x))) = true := by
    rcases hc with rfl | rfl <;> rfl
  have hpos : run isDigit (u ++ x) ≠ 0 := by
    rw [run_append hu]
    have := List.length_pos_iff.2 hne
    omega
  obtain ⟨d, u', rfl⟩ := List.exists_cons_of_ne_nil hne
  have hd := hu d List.mem_cons_self
  rcases hsign with rfl | rfl | rfl
  · have hnone : startsWith '+' '-' (d :: u' ++ x) = false := by
      rw [List.cons_append, startsWith_cons, Bool.or_eq_false_iff, decide_eq_false_iff_not,
        decide_eq_false_iff_not]
      constructor
      · rintro rfl
        cases hd
      · rintro rfl
        cases hd
    simp only [List.cons_append, List.nil_append] at hstart hnone hpos ⊢
    simp [exponent, hstart, hnone, hpos]
  · have hsome : startsWith '+' '-' (byte '+' :: (d :: u' ++ x)) = true := rfl
    simp only [List.cons_append, List.nil_append] at hstart hsome hpos ⊢
    simp [exponent, hstart, hsome, hpos]
  · have hsome : startsWith '+' '-' (byte '-' :: (d :: u' ++ x)) = true := rfl
    simp only [List.cons_append, List.nil_append] at hstart hsome hpos ⊢
    simp [exponent, hstart, hsome, hpos]

/-- A text begins with a sign, which may be empty. -/
theorem exists_sign (x : Text) : ∃ sign y, x = sign ++ y ∧ IsSign sign ∧
    sign.length = if startsWith '+' '-' x then 1 else 0 := by
  by_cases hx : startsWith '+' '-' x
  · obtain ⟨d, y, rfl, hd⟩ := exists_of_startsWith hx
    refine ⟨[d], y, rfl, ?_, by simp [hx]⟩
    rcases hd with rfl | rfl
    · exact .inr (.inl rfl)
    · exact .inr (.inr rfl)
  · exact ⟨[], x, rfl, .inl rfl, by simp [hx]⟩

theorem exponent_matches : Matches exponent IsExponent where
  sound := by
    intro s h
    by_cases hstart : startsWith 'e' 'E' s
    · obtain ⟨c, x, rfl, hc⟩ := exists_of_startsWith hstart
      obtain ⟨sign, y, rfl, hsign, hlen⟩ := exists_sign x
      obtain ⟨u, z, rfl, hu, hb, -⟩ := exists_run isDigit y
      have hne : u ≠ [] := by
        rintro rfl
        apply h
        simp only [List.nil_append, List.length_nil] at hlen hu ⊢
        simp [exponent, ← hlen, Nat.add_comm 1, hu]
      refine ⟨c :: (sign ++ u), z, by simp, ?_, .mk hc hsign ⟨hne, hb⟩⟩
      rw [exponent_digits z hc hsign hb hne, hu]
      simp only [List.length_cons, List.length_append]
      omega
    · exact absurd (if_neg hstart) h
  complete := by
    intro u hu y
    cases hu with
    | @mk c sign u hc hsign hu =>
      have happ : c :: (sign ++ u) ++ y = c :: (sign ++ (u ++ y)) := by simp
      rw [happ, exponent_digits y hc hsign hu.2 hu.1, run_append hu.2]
      simp only [List.length_cons, List.length_append]
      omega

theorem exponent_bytes (u : Text) (h : IsExponent u) : ∀ b ∈ u, isBodyByte b = true := by
  obtain ⟨hc, hsign, hu⟩ := h
  intro b hb
  simp only [List.mem_cons, List.mem_append] at hb
  rcases hb with rfl | hb | hb
  · rcases hc with rfl | rfl <;> rfl
  · rcases hsign with rfl | rfl | rfl
    · cases hb
    · rw [List.mem_singleton.1 hb]
      rfl
    · rw [List.mem_singleton.1 hb]
      rfl
  · exact isBodyByte_of_isDigit (hu.2 b hb)

/-- An exponent does not begin with a digit. -/
theorem run_isDigit_of_exponent {u : Text} (h : IsExponent u) (y : Text) :
    run isDigit (u ++ y) = 0 ∧ startsWith '.' '.' (u ++ y) = false := by
  obtain ⟨rfl | rfl, -, -⟩ := h <;> exact ⟨rfl, rfl⟩

/-- A float without its ending. -/
inductive IsBody : Text → Prop where
  | fraction {w u e : Text} (hw : ∀ b ∈ w, isDigit b = true) (hu : ∀ b ∈ u, isDigit b = true)
      (hne : w ≠ [] ∨ u ≠ []) (he : e = [] ∨ IsExponent e) : IsBody (w ++ byte '.' :: (u ++ e))
  | whole {w e : Text} (hw : IsRun isDigit w) (he : IsExponent e) : IsBody (w ++ e)

theorem body_fraction {w u e : Text} (hw : ∀ b ∈ w, isDigit b = true)
    (hu : run isDigit e = 0) (hu' : ∀ b ∈ u, isDigit b = true) (hne : w ≠ [] ∨ u ≠ []) :
    body (w ++ byte '.' :: (u ++ e)) = w.length + 1 + u.length + exponent e := by
  have hrun : run isDigit (w ++ byte '.' :: (u ++ e)) = w.length := by
    rw [run_append hw]
    rfl
  have hrun' : run isDigit (u ++ e) = u.length := by
    rw [run_append hu', hu]
    rfl
  have hdrop : (w ++ byte '.' :: (u ++ e)).drop (w.length + 1) = u ++ e := by
    rw [← List.drop_drop, List.drop_left]
    rfl
  have hdrop' : (w ++ byte '.' :: (u ++ e)).drop (w.length + 1 + u.length) = e := by
    rw [← List.drop_drop, hdrop, List.drop_left]
  have hstart : startsWith '.' '.' (byte '.' :: (u ++ e)) = true := rfl
  have hzero : ¬(w.length = 0 ∧ u.length = 0) := by
    rw [List.length_eq_zero_iff, List.length_eq_zero_iff]
    rintro ⟨hw, hu⟩
    rcases hne with hne | hne
    · exact hne hw
    · exact hne hu
  simp only [body, hrun, List.drop_left, hstart, hdrop, hrun', hdrop', if_true, Bool.and_eq_true,
    decide_eq_true_eq, if_neg hzero]

theorem body_whole {w e : Text} (hw : ∀ b ∈ w, isDigit b = true) (he : run isDigit e = 0)
    (hdot : startsWith '.' '.' e = false) (hne : w ≠ []) (hpos : exponent e ≠ 0) :
    body (w ++ e) = w.length + exponent e := by
  have hrun : run isDigit (w ++ e) = w.length := by
    rw [run_append hw, he]
    rfl
  have hzero : ¬(w.length = 0 ∨ exponent e = 0) := by
    rw [List.length_eq_zero_iff]
    rintro (h | h)
    · exact hne h
    · exact hpos h
  simp only [body, hrun, List.drop_left, hdot, Bool.false_eq_true, if_false, Bool.or_eq_true,
    decide_eq_true_eq, if_neg hzero]

/-- What is covered is a float without its ending. -/
theorem exists_body {s : Text} (h : body s ≠ 0) :
    ∃ u x, s = u ++ x ∧ body s = u.length ∧ IsBody u := by
  obtain ⟨w, x, rfl, hw, hwb, hx⟩ := exists_run isDigit s
  by_cases hdot : startsWith '.' '.' x
  · obtain ⟨c, x, rfl, hc⟩ := exists_of_startsWith hdot
    obtain rfl : c = byte '.' := by rcases hc with rfl | rfl <;> rfl
    obtain ⟨u, x, rfl, hu, hub, hx'⟩ := exists_run isDigit x
    obtain ⟨e, x, rfl, he, hform⟩ := exponent_matches.exists_front x
    have hne : w ≠ [] ∨ u ≠ [] := by
      by_contra hnone
      simp only [not_or, not_not] at hnone
      obtain ⟨rfl, rfl⟩ := hnone
      simp only [List.nil_append] at h hw hu
      simp [body, hw, hu] at h
    refine ⟨w ++ byte '.' :: (u ++ e), x, by simp, ?_, .fraction hwb hub hne hform⟩
    rw [body_fraction hwb hx' hub hne, he]
    simp only [List.length_append, List.length_cons]
    omega
  · -- Without a fraction there is an exponent.
    obtain ⟨e, x, rfl, he, hform⟩ := exponent_matches.exists_front x
    rw [Bool.not_eq_true] at hdot
    have hwne : w ≠ [] := by
      rintro rfl
      rw [List.nil_append] at hw h
      simp [body, hw, hdot] at h
    have hene : e ≠ [] := by
      rintro rfl
      rw [List.nil_append] at he hdot hw h
      simp [body, hw, hdot, he] at h
    have hexp : IsExponent e := hform.resolve_left hene
    have hepos := List.length_pos_iff.2 hene
    refine ⟨w ++ e, x, by simp, ?_, .whole ⟨hwne, hwb⟩ hexp⟩
    rw [body_whole hwb hx hdot hwne (by omega), he, List.length_append]

/-- A float without its ending is covered, whatever follows. -/
theorem length_le_body {u : Text} (h : IsBody u) (y : Text) : u.length ≤ body (u ++ y) := by
  cases h with
  | @fraction w u e hw hu hne he =>
    rcases he with rfl | he
    · -- What follows may go on with digits of the fraction.
      obtain ⟨v, z, rfl, -, hv, hz⟩ := exists_run isDigit y
      have happ : w ++ byte '.' :: (u ++ []) ++ (v ++ z) = w ++ byte '.' :: ((u ++ v) ++ z) := by
        simp
      have hdigits : ∀ b ∈ u ++ v, isDigit b = true := List.forall_mem_append.2 ⟨hu, hv⟩
      have hne' : w ≠ [] ∨ u ++ v ≠ [] :=
        hne.imp id fun hu => List.append_ne_nil_of_left_ne_nil hu v
      rw [happ, body_fraction hw hz hdigits hne']
      simp only [List.length_append, List.length_cons, List.append_nil]
      omega
    · have happ : w ++ byte '.' :: (u ++ e) ++ y = w ++ byte '.' :: (u ++ (e ++ y)) := by simp
      have hle := exponent_matches.complete e he y
      rw [happ, body_fraction hw (run_isDigit_of_exponent he y).1 hu hne]
      simp only [List.length_append, List.length_cons]
      omega
  | @whole w e hw he =>
    have hle := exponent_matches.complete e he y
    have hpos : 0 < e.length := by
      obtain ⟨-, -, -⟩ := he
      exact Nat.succ_pos _
    obtain ⟨hdigit, hdot⟩ := run_isDigit_of_exponent he y
    rw [List.append_assoc, body_whole hw.2 hdigit hdot hw.1 (by omega), List.length_append]
    omega

theorem body_matches : Matches body IsBody where
  sound _ h := exists_body h
  complete _ h y := length_le_body h y

theorem body_bytes (u : Text) (h : IsBody u) : ∀ b ∈ u, isBodyByte b = true := by
  intro b hb
  cases h with
  | fraction hw hu hne he =>
    simp only [List.mem_append, List.mem_cons] at hb
    rcases hb with hb | rfl | hb | hb
    · exact isBodyByte_of_isDigit (hw b hb)
    · rfl
    · exact isBodyByte_of_isDigit (hu b hb)
    · rcases he with rfl | he
      · cases hb
      · exact exponent_bytes _ he b hb
  | whole hw he =>
    rcases List.mem_append.1 hb with hb | hb
    · exact isBodyByte_of_isDigit (hw.2 b hb)
    · exact exponent_bytes _ he b hb

theorem body_spans : Spans body isBodyByte :=
  body_matches.spans body_bytes

theorem body_ne_nil {u : Text} (h : IsBody u) : u ≠ [] := by
  cases h with
  | fraction => simp
  | whole hw => exact List.append_ne_nil_of_left_ne_nil hw.1 _

/-- The bytes of a float or double literal. -/
def isFloatByte (b : UInt8) : Bool :=
  isBodyByte b || b = byte 'f' || b = byte 'F' || b = byte 'l' || b = byte 'L'

theorem isFloatByte_of_isBodyByte {b : UInt8} (h : isBodyByte b = true) : isFloatByte b = true := by
  simp [isFloatByte, h]

/-- A float literal, with or without its ending. -/
inductive IsFloat : Text → Prop where
  | plain {u : Text} (hu : IsBody u) : IsFloat u
  | ending {u : Text} {c : UInt8} (hu : IsBody u) (hc : c = byte 'f' ∨ c = byte 'F') :
      IsFloat (u ++ [c])

theorem body_le_float (s : Text) : body s ≤ float s := by
  simp only [float]
  split <;> omega

theorem float_matches : Matches float IsFloat where
  sound := by
    intro s hne
    by_cases h : body s > 0 && startsWith 'f' 'F' (s.drop (body s))
    · have hfloat : float s = body s + 1 := if_pos h
      obtain ⟨w, c, x, hs, hw, hform, hc⟩ := body_matches.exists_ending h
      exact ⟨w ++ [c], x, by simp [hs], by simp [hfloat, hw], .ending hform hc⟩
    · have hfloat : float s = body s := if_neg h
      rw [hfloat] at hne ⊢
      obtain ⟨w, x, hs, hw, hform⟩ := body_matches.sound s hne
      exact ⟨w, x, hs, hw, .plain hform⟩
  complete := by
    intro u hu y
    cases hu with
    | plain hu => exact Nat.le_trans (body_matches.complete u hu y) (body_le_float _)
    | @ending u c hu hc =>
      have hcm : isBodyByte c = false := by rcases hc with rfl | rfl <;> rfl
      have hstart : startsWith 'f' 'F' (c :: y) = true := by rcases hc with rfl | rfl <;> rfl
      have hpos := List.length_pos_iff.2 (body_ne_nil hu)
      have hagain := body_matches.eq_of_stop body_spans hu hcm y
      simp [float, hagain, hpos, hstart]

theorem float_bytes (u : Text) (h : IsFloat u) : ∀ b ∈ u, isFloatByte b = true := by
  intro b hb
  cases h with
  | plain hu => exact isFloatByte_of_isBodyByte (body_bytes u hu b hb)
  | ending hu hc =>
    rcases List.mem_append.1 hb with hb | hb
    · exact isFloatByte_of_isBodyByte (body_bytes _ hu b hb)
    · rw [List.mem_singleton.1 hb]
      rcases hc with rfl | rfl <;> rfl

theorem float_spans : Spans float isFloatByte :=
  float_matches.spans float_bytes

/-- A double literal. -/
inductive IsDouble : Text → Prop where
  | mk {u : Text} {c d : UInt8} (hu : IsBody u)
      (hcd : (c = byte 'l' ∧ d = byte 'f') ∨ (c = byte 'L' ∧ d = byte 'F')) :
      IsDouble (u ++ [c, d])

theorem double_matches : Matches double IsDouble where
  sound := by
    intro s hne
    by_cases h : body s > 0 && ((Text.ascii "lf").isPrefixOf (s.drop (body s)) ||
        (Text.ascii "LF").isPrefixOf (s.drop (body s)))
    · have hdouble : double s = body s + 2 := if_pos h
      simp only [Bool.and_eq_true, decide_eq_true_eq, Bool.or_eq_true,
        List.isPrefixOf_iff_prefix] at h
      obtain ⟨w, x, hs, hw, hform⟩ := body_matches.sound s (by omega)
      rw [hw, hs, List.drop_left] at h
      obtain ⟨c, d, x, rfl, hcd⟩ : ∃ c d y, x = c :: d :: y ∧
          ((c = byte 'l' ∧ d = byte 'f') ∨ (c = byte 'L' ∧ d = byte 'F')) := by
        rcases h.2 with ⟨y, hy⟩ | ⟨y, hy⟩
        · exact ⟨_, _, y, hy.symm, .inl ⟨rfl, rfl⟩⟩
        · exact ⟨_, _, y, hy.symm, .inr ⟨rfl, rfl⟩⟩
      exact ⟨w ++ [c, d], x, by simp [hs], by simp [hdouble, hw], .mk hform hcd⟩
    · exact absurd (if_neg h) hne
  complete := by
    intro u hu y
    cases hu with
    | @mk u c d hu hcd =>
      have hcm : isBodyByte c = false := by rcases hcd with ⟨rfl, rfl⟩ | ⟨rfl, rfl⟩ <;> rfl
      have hstart : ((Text.ascii "lf").isPrefixOf (c :: d :: y) ||
          (Text.ascii "LF").isPrefixOf (c :: d :: y)) = true := by
        rcases hcd with ⟨rfl, rfl⟩ | ⟨rfl, rfl⟩ <;> rfl
      have hpos := List.length_pos_iff.2 (body_ne_nil hu)
      have hagain := body_matches.eq_of_stop body_spans hu hcm (d :: y)
      have happ : u ++ [c, d] ++ y = u ++ c :: (d :: y) := by simp
      have hdouble : double (u ++ c :: (d :: y)) = u.length + 2 := by
        simp only [double, hagain, List.drop_left, hstart, Bool.and_true]
        exact if_pos (decide_eq_true hpos)
      rw [happ, hdouble]
      simp

theorem double_bytes (u : Text) (h : IsDouble u) : ∀ b ∈ u, isFloatByte b = true := by
  obtain ⟨hu, hcd⟩ := h
  intro b hb
  rcases List.mem_append.1 hb with hb | hb
  · exact isFloatByte_of_isBodyByte (body_bytes _ hu b hb)
  · simp only [List.mem_cons, List.not_mem_nil, or_false] at hb
    rcases hcd with ⟨rfl, rfl⟩ | ⟨rfl, rfl⟩ <;> rcases hb with rfl | rfl <;> rfl

theorem double_spans : Spans double isFloatByte :=
  double_matches.spans double_bytes

/-! ## What number literals begin with -/

/-- The bytes that a number literal begins with. -/
def isNumberStart (b : UInt8) : Bool :=
  isDigit b || b = byte '.'

/-- Where no number literal can begin, there is none. -/
theorem eq_zero_of_not_start {b : UInt8} (h : isNumberStart b = false) (s : Text) :
    integer (b :: s) = 0 ∧ unsigned (b :: s) = 0 ∧ float (b :: s) = 0 ∧ double (b :: s) = 0 := by
  obtain ⟨hdigit, hdot⟩ : isDigit b = false ∧ b ≠ byte '.' := by
    simpa [isNumberStart] using h
  have hrun : run isDigit (b :: s) = 0 := by simp [run, hdigit]
  have hinteger : integer (b :: s) = 0 := by
    have hzero : b ≠ byte '0' := by
      rintro rfl
      cases hdigit
    simp [integer, hzero, hrun]
  have hbody : body (b :: s) = 0 := by
    simp [body, hrun, startsWith_cons, hdot]
  exact ⟨hinteger, by simp [unsigned, hinteger], by simp [float, hbody], by simp [double, hbody]⟩

end Number

end ShaderRepair

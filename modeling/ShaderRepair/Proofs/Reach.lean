import ShaderRepair.Proofs.Number
import ShaderRepair.Token.Pattern

/-!
# How far patterns reach when the text goes on differently

A lexeme ends where no pattern reaches farther. If a text is changed behind a lexeme, the lexeme
stays as it is unless some pattern now reaches into the change. This file contains:
- `Apart`, bytes of which no word, number or operator has one right behind the other;
- `Fits s s'`, which says that whatever is without bytes apart and begins `s'` begins `s` too;
- `Settled`, which says of a pattern that its reach does not change under `Fits`, and that this is
  so for all patterns but those for directives, comments and blanks.
-/

namespace ShaderRepair

namespace Reach

open Number (byte run)

/-! ## Bytes -/

/-- The punctuation marks that are put in. -/
def isMarkByte (b : UInt8) : Bool :=
  b = byte ';' || b = byte ':' || b = byte ',' || b = byte '(' || b = byte ')'

/-- The bytes of words and numbers. -/
def isNumberByte (b : UInt8) : Bool :=
  isWordByte b || b = byte '.' || b = byte '+' || b = byte '-'

def isOperatorByte (b : UInt8) : Bool :=
  (Text.ascii "~!*/%+-<>=&^|?").contains b

def isBreakByte (b : UInt8) : Bool :=
  b = Text.lineFeed || b = Text.carriageReturn

/-- Right behind `z`, the byte `c` begins something new: it is a mark, or it begins a word and `z`
belongs to no word and no number. -/
def Apart (z c : UInt8) : Prop :=
  isMarkByte c = true ∨ (isWordStart c = true ∧ isNumberByte z = false)

/-- No neighbours in the text are apart. -/
def Joined (u : Text) : Prop :=
  ∀ w z c x, u = w ++ z :: c :: x → ¬Apart z c

theorem isWordByte_of_isHexDigit {b : UInt8} (h : Number.isHexDigit b = true) :
    isWordByte b = true := by
  have h0 : (byte '0').toNat = 48 := rfl
  have h9 : (byte '9').toNat = 57 := rfl
  have ha : (byte 'a').toNat = 97 := rfl
  have hf : (byte 'f').toNat = 102 := rfl
  have hz : (byte 'z').toNat = 122 := rfl
  have hA : (byte 'A').toNat = 65 := rfl
  have hF : (byte 'F').toNat = 70 := rfl
  have hZ : (byte 'Z').toNat = 90 := rfl
  simp only [Number.isHexDigit, Number.isDigit, isWordByte, isWordStart, Bool.or_eq_true,
    Bool.and_eq_true, decide_eq_true_eq, UInt8.le_iff_toNat_le] at h ⊢
  omega

theorem isNumberByte_of_isWordByte {b : UInt8} (h : isWordByte b = true) :
    isNumberByte b = true := by
  simp [isNumberByte, h]

theorem isMarkByte_of_isNumberByte {b : UInt8} (h : isNumberByte b = true) :
    isMarkByte b = false := by
  by_contra hmark
  simp only [Bool.not_eq_false, isMarkByte, Bool.or_eq_true, decide_eq_true_eq] at hmark
  rcases hmark with (((rfl | rfl) | rfl) | rfl) | rfl <;> cases h

theorem joined_of_numberBytes {u : Text} (h : ∀ b ∈ u, isNumberByte b = true) : Joined u := by
  rintro w z c x rfl (hc | ⟨-, hz⟩)
  · rw [isMarkByte_of_isNumberByte (h c (by simp))] at hc
    cases hc
  · rw [h z (by simp)] at hz
    cases hz

/-- Bytes that neither are marks nor begin words. -/
theorem joined_of_plainBytes {u : Text}
    (h : ∀ b ∈ u, isMarkByte b = false ∧ isWordStart b = false) : Joined u := by
  rintro w z c x rfl (hc | ⟨hc, -⟩)
  · rw [(h c (by simp)).1] at hc
    cases hc
  · rw [(h c (by simp)).2] at hc
    cases hc

/-! ## Changed texts -/

/-- Whatever begins `s'` and has no neighbours apart begins `s`. -/
def Fits (s s' : Text) : Prop :=
  ∀ u, Joined u → u <+: s' → u <+: s

/-- The reach of a pattern stays as it is when a text is changed behind what is reached. The longest
word is the same too, on which the patterns for given words depend. -/
def Settled (reach : Text → Nat) : Prop :=
  ∀ ⦃a v v' : Text⦄, a ≠ [] → Fits (a ++ v) (a ++ v') → word (a ++ v) ≤ a.length →
    reach (a ++ v) ≤ a.length → reach (a ++ v') = reach (a ++ v)

theorem settled_of_spans {reach : Text → Nat} {member : UInt8 → Bool} (h : Spans reach member)
    (hm : ∀ u : Text, (∀ b ∈ u, member b = true) → Joined u) : Settled reach := by
  intro a v v' ha hfits _ hle
  apply Nat.le_antisymm
  · obtain ⟨u, x, hs, hu, hb, hy⟩ := h (a ++ v')
    obtain ⟨y, hy'⟩ := hfits u (hm u hb) ⟨x, hs.symm⟩
    rw [hu, ← hy']
    exact hy y
  · obtain ⟨u, x, hs, hu, hb, hy⟩ := h (a ++ v)
    have hua : u <+: a :=
      List.prefix_of_prefix_length_le ⟨x, hs.symm⟩ (List.prefix_append a v) (by omega)
    obtain ⟨y, rfl⟩ := hua
    rw [hu, List.append_assoc]
    exact hy (y ++ v')

/-! ## Words -/

theorem word_spans : Spans word isWordByte := by
  intro s
  by_cases h : ∃ b x, s = b :: x ∧ isWordStart b = true
  · obtain ⟨b, x, rfl, hb⟩ := h
    obtain ⟨u, y, rfl, hu, hub, hy⟩ := Number.run_spans isWordByte x
    refine ⟨b :: u, y, rfl, ?_, ?_, ?_⟩
    · simp [word, hb, hu]
    · intro c hc
      rcases List.mem_cons.1 hc with rfl | hc
      · simp [isWordByte, hb]
      · exact hub c hc
    · intro z
      simp [word, hb, hy z]
  · have hword : word s = 0 := by
      cases s with
      | nil => rfl
      | cons b x =>
        have hb : isWordStart b = false := by
          by_contra hb
          exact h ⟨b, x, rfl, by simpa using hb⟩
        simp [word, hb]
    exact ⟨[], s, rfl, hword, by simp, fun y => Nat.zero_le _⟩

theorem word_settled : Settled word :=
  settled_of_spans word_spans fun _ h =>
    joined_of_numberBytes fun b hb => isNumberByte_of_isWordByte (h b hb)

/-- The front part of a text does not depend on what is changed behind it. -/
theorem take_append_congr {a v v' : Text} {n : Nat} (h : n ≤ a.length) :
    (a ++ v').take n = (a ++ v).take n := by
  rw [List.take_append_of_le_length h, List.take_append_of_le_length h]

theorem exactWord_eq (w s : Text) :
    exactWord w s = if word s = w.length ∧ s.take (word s) = w then w.length else 0 := by
  unfold exactWord
  congr 1
  simp only [Bool.and_eq_true, decide_eq_true_eq, List.isPrefixOf_iff_prefix, eq_iff_iff]
  refine and_congr_right fun hlen => ?_
  rw [List.prefix_iff_eq_take, hlen]
  exact eq_comm

theorem exactWord_settled (w : Text) : Settled (exactWord w) := by
  intro a v v' ha hfits hword hle
  have hsame := word_settled ha hfits hword hword
  rw [exactWord_eq, exactWord_eq, hsame, take_append_congr hword]

theorem wordOf_settled {α : Type} (table : Lexicon.Table α) : Settled (wordOf table) := by
  intro a v v' ha hfits hword hle
  have hsame := word_settled ha hfits hword hword
  have htake : (a ++ v').take (word (a ++ v)) = (a ++ v).take (word (a ++ v)) :=
    take_append_congr hword
  simp only [wordOf, hsame, htake]

/-! ## Operators, punctuation, line breaks -/

theorem operators_bytes : ∀ e ∈ Lexicon.operators,
    0 < e.1.length ∧ e.1.length ≤ 3 ∧ e.1.all isOperatorByte = true := by
  decide

theorem exists_operator {w : Text} (h : (Lexicon.operators.find w).isSome = true) :
    ∃ e ∈ Lexicon.operators, e.1 = w := by
  rw [Lexicon.Table.find, List.lookup_isSome_iff] at h
  obtain ⟨e, he, hw⟩ := h
  exact ⟨e, he, (eq_of_beq hw).symm⟩

/-- An operator is a front part that the table has. -/
theorem operator_eq_zero_or (s : Text) :
    operator s = 0 ∨ ∃ n, operator s = (s.take n).length ∧
      (Lexicon.operators.find (s.take n)).isSome = true := by
  unfold operator
  split
  · next n hn =>
    have hsome := List.find?_some hn
    exact .inr ⟨n, rfl, hsome⟩
  · exact .inl rfl

/-- The lengths of operators are tried in descending order. -/
theorem le_of_find_descending {p : Nat → Bool} {m n : Nat} (h : [3, 2, 1].find? p = some n)
    (hm : m ∈ [3, 2, 1]) (hp : p m = true) : m ≤ n := by
  simp only [List.mem_cons, List.not_mem_nil, or_false] at hm
  have hn := List.mem_of_find?_eq_some h
  simp only [List.mem_cons, List.not_mem_nil, or_false] at hn
  rcases hm with rfl | rfl | rfl
  · rw [List.find?_cons_of_pos hp, Option.some.injEq] at h
    omega
  · cases h3 : p 3 with
    | true =>
      rw [List.find?_cons_of_pos h3, Option.some.injEq] at h
      omega
    | false =>
      rw [List.find?_cons_of_neg (by simp [h3]), List.find?_cons_of_pos hp, Option.some.injEq] at h
      omega
  · omega

theorem le_operator {u : Text} (x : Text) (h : (Lexicon.operators.find u).isSome = true) :
    u.length ≤ operator (u ++ x) := by
  obtain ⟨e, he, rfl⟩ := exists_operator h
  obtain ⟨hpos, hle, -⟩ := operators_bytes e he
  have htake : (e.1 ++ x).take e.1.length = e.1 := List.take_left
  have hmem : e.1.length ∈ [3, 2, 1] := by
    simp only [List.mem_cons, List.not_mem_nil, or_false]
    omega
  unfold operator
  split
  · next n hn =>
    have hn' : e.1.length ≤ n := le_of_find_descending hn hmem (by rw [htake]; exact h)
    rw [List.length_take, List.length_append]
    omega
  · next hn =>
    rw [List.find?_eq_none] at hn
    have hnone := hn _ hmem
    rw [htake] at hnone
    exact absurd h hnone

theorem operator_spans : Spans operator isOperatorByte := by
  intro s
  rcases operator_eq_zero_or s with h | ⟨n, h, hsome⟩
  · exact ⟨[], s, rfl, h, by simp, fun y => Nat.zero_le _⟩
  · refine ⟨s.take n, s.drop n, (List.take_append_drop n s).symm, h, ?_, ?_⟩
    · obtain ⟨e, he, hw⟩ := exists_operator hsome
      rw [← hw]
      exact List.all_eq_true.1 (operators_bytes e he).2.2
    · exact fun y => le_operator y hsome

theorem isOperatorByte_plain {b : UInt8} (h : isOperatorByte b = true) :
    isMarkByte b = false ∧ isWordStart b = false := by
  have hall : (Text.ascii "~!*/%+-<>=&^|?").all (fun b => !isMarkByte b && !isWordStart b) :=
    by decide
  simpa using List.all_eq_true.1 hall b (List.contains_iff_mem.1 h)

theorem operator_settled : Settled operator :=
  settled_of_spans operator_spans fun _ h =>
    joined_of_plainBytes fun b hb => isOperatorByte_plain (h b hb)

theorem exact_settled {w : Text} (hw : w.length = 1) : Settled (exact w) := by
  intro a v v' ha _ _ _
  obtain ⟨b, a, rfl⟩ := List.exists_cons_of_ne_nil ha
  obtain ⟨c, rfl⟩ := List.length_eq_one_iff.1 hw
  simp [exact, List.isPrefixOf]

theorem lineBreaks_spans : Spans lineBreaks isBreakByte := by
  intro s
  fun_induction lineBreaks s with
  | case1 s ih =>
    obtain ⟨u, x, rfl, hu, hb, hy⟩ := ih
    refine ⟨10 :: u, x, rfl, by simp [hu], ?_, ?_⟩
    · simpa [isBreakByte] using hb
    · intro y
      simp [lineBreaks, hy y]
  | case2 s ih =>
    obtain ⟨u, x, rfl, hu, hb, hy⟩ := ih
    refine ⟨13 :: 10 :: u, x, rfl, by simp [hu], ?_, ?_⟩
    · simpa [isBreakByte] using hb
    · intro y
      simp [lineBreaks, hy y]
  | case3 s => exact ⟨[], s, rfl, rfl, by simp, fun y => Nat.zero_le _⟩

theorem lineBreaks_settled : Settled lineBreaks := by
  refine settled_of_spans lineBreaks_spans fun _ h => joined_of_plainBytes fun b hb => ?_
  have hbreak := h b hb
  simp only [isBreakByte, Bool.or_eq_true, decide_eq_true_eq] at hbreak
  rcases hbreak with rfl | rfl
  · exact ⟨rfl, rfl⟩
  · exact ⟨rfl, rfl⟩

end Reach

end ShaderRepair

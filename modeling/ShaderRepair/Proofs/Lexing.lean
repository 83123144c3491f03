import ShaderRepair.Proofs.Ignored
import ShaderRepair.Token.Lexer

/-!
# Tokens in a changed text

The token at the front of a text stays what it is when the text is changed behind it, under the
conditions that the patterns ask for. This file contains:
- `Token.content`, what a token says apart from its place, and `Lexer.contents`;
- what all patterns have in common: `Pattern.Tame`;
- `Lexer.first_congr`, the front token of a changed text;
- `Lexer.first_mark`, the token of a mark;
- what a token begins and ends with.
-/

namespace ShaderRepair

open Number (byte)
open Reach

/-! ## The longest pattern -/

namespace Pattern

variable {s s' : Text} {patterns : List Pattern}

theorem longest_eq_none (h : longest s patterns = none) : ∀ q ∈ patterns, q.reach s = 0 := by
  induction patterns with
  | nil => simp
  | cons q more ih =>
    simp only [longest] at h
    cases hmore : longest s more with
    | none =>
      simp only [hmore, ite_eq_right_iff, reduceCtorEq, imp_false, not_lt, Nat.le_zero] at h
      intro r hr
      rcases List.mem_cons.1 hr with rfl | hr
      · exact h
      · exact ih hmore r hr
    | some found =>
      simp only [hmore] at h
      split at h <;> cases h

theorem longest_eq_some {p : Pattern} {n : Nat} (h : longest s patterns = some (p, n)) :
    p ∈ patterns ∧ p.reach s = n ∧ 0 < n ∧ ∀ q ∈ patterns, q.reach s ≤ n := by
  induction patterns generalizing p n with
  | nil => cases h
  | cons q more ih =>
    simp only [longest] at h
    cases hmore : longest s more with
    | none =>
      simp only [hmore, Option.ite_none_right_eq_some, Option.some.injEq, Prod.mk.injEq] at h
      obtain ⟨hpos, rfl, rfl⟩ := h
      refine ⟨List.mem_cons_self, rfl, hpos, ?_⟩
      intro r hr
      rcases List.mem_cons.1 hr with rfl | hr
      · exact Nat.le_refl _
      · rw [longest_eq_none hmore r hr]
        exact Nat.zero_le _
    | some found =>
      obtain ⟨r, m⟩ := found
      obtain ⟨hr, hreach, hpos, hmax⟩ := ih hmore
      simp only [hmore] at h
      split at h
      · next hle =>
        obtain ⟨rfl, rfl⟩ := Prod.mk.inj (Option.some.inj h)
        refine ⟨List.mem_cons_self, rfl, Nat.lt_of_lt_of_le hpos hle, ?_⟩
        intro r' hr'
        rcases List.mem_cons.1 hr' with rfl | hr'
        · exact Nat.le_refl _
        · exact Nat.le_trans (hmax r' hr') hle
      · next hle =>
        obtain ⟨rfl, rfl⟩ := Prod.mk.inj (Option.some.inj h)
        refine ⟨List.mem_cons_of_mem q hr, hreach, hpos, ?_⟩
        intro r' hr'
        rcases List.mem_cons.1 hr' with rfl | hr'
        · exact Nat.le_of_not_le hle
        · exact hmax r' hr'

theorem longest_congr (h : ∀ q ∈ patterns, q.reach s' = q.reach s) :
    longest s' patterns = longest s patterns := by
  induction patterns with
  | nil => rfl
  | cons q more ih =>
    have hmore := ih fun r hr => h r (List.mem_cons_of_mem q hr)
    simp only [longest, h q List.mem_cons_self, hmore]

/-- Where an earlier pattern reaches as far as the longest one, the longest one is early too. -/
theorem mem_of_longest {front back : List Pattern} {p q : Pattern} {n : Nat}
    (h : longest s (front ++ back) = some (p, n)) (hq : q ∈ front) (hreach : n ≤ q.reach s) :
    p ∈ front := by
  induction front with
  | nil => cases hq
  | cons r front ih =>
    simp only [List.cons_append, longest] at h
    cases hmore : longest s (front ++ back) with
    | none =>
      simp only [hmore, Option.ite_none_right_eq_some, Option.some.injEq, Prod.mk.injEq] at h
      exact h.2.1 ▸ List.mem_cons_self
    | some found =>
      simp only [hmore] at h
      split at h
      · obtain ⟨rfl, -⟩ := Prod.mk.inj (Option.some.inj h)
        exact List.mem_cons_self
      · next hle =>
        obtain ⟨hfound, hn⟩ := Prod.mk.inj (Option.some.inj h)
        refine List.mem_cons_of_mem r (ih ?_ ?_)
        · rw [hmore, ← hfound, ← hn]
        · rcases List.mem_cons.1 hq with rfl | hq
          · omega
          · exact hq

/-- A pattern that does not reach over anything may be left out. -/
theorem longest_filter (s : Text) (patterns : List Pattern) :
    longest s (patterns.filter fun p => 0 < p.reach s) = longest s patterns := by
  induction patterns with
  | nil => rfl
  | cons p more ih =>
    rw [List.filter_cons]
    split
    · rw [longest, longest, ih]
    · next hreach =>
      have hzero : p.reach s = 0 := by simpa using hreach
      rw [ih, longest, hzero]
      cases hmore : longest s more with
      | none => rfl
      | some found =>
        have hpos : 0 < found.2 := (longest_eq_some (p := found.1) hmore).2.2.1
        exact (if_neg (Nat.not_le.2 hpos)).symm

/-! ## The patterns for significant tokens -/

/-- The bytes that a significant token can begin with. -/
def isTokenByte (b : UInt8) : Bool :=
  isNumberByte b || isOperatorByte b || (Text.ascii ":;,()[]\x7b\x7d").contains b

/-- What the patterns for significant tokens have in common. A text that begins with a mark or with
a comment has no token of theirs longer than one byte. -/
structure Tame (p : Pattern) : Prop where
  significant : p.kind.isSignificant = true
  le : ∀ s, p.reach s ≤ s.length
  settled : Settled p.reach
  opens : ∀ b s, 0 < p.reach (b :: s) → isTokenByte b = true
  short : ∀ b s, isMarkByte b = true ∨ comment (b :: s) ≠ 0 → p.reach (b :: s) ≤ 1

theorem le_of_spans {reach : Text → Nat} {member : UInt8 → Bool} (h : Spans reach member)
    (s : Text) : reach s ≤ s.length := by
  obtain ⟨u, x, rfl, hu, -, -⟩ := h s
  rw [hu, List.length_append]
  exact Nat.le_add_right _ _

/-- What is reached begins with a byte of the class. -/
theorem first_of_spans {reach : Text → Nat} {member : UInt8 → Bool} (h : Spans reach member)
    {b : UInt8} {s : Text} (hpos : 0 < reach (b :: s)) : member b = true := by
  by_contra hb
  have hle : reach ([] ++ b :: s) ≤ 0 := h.le_of_stop (by simpa using hb)
  exact absurd hpos (Nat.not_lt.2 hle)

theorem slash_of_comment {b : UInt8} {s : Text} (h : comment (b :: s) ≠ 0) :
    b = byte '/' ∧ ∃ c x, s = c :: x ∧ (c = byte '/' ∨ c = byte '*') := by
  have hcases : (Text.ascii "//").isPrefixOf (b :: s) = true ∨
      (Text.ascii "/*").isPrefixOf (b :: s) = true := by
    by_contra hnot
    rw [not_or] at hnot
    exact h (by rw [comment, if_neg hnot.1, if_neg hnot.2])
  rw [List.isPrefixOf_iff_prefix, List.isPrefixOf_iff_prefix] at hcases
  rcases hcases with ⟨x, hx⟩ | ⟨x, hx⟩
  · obtain ⟨rfl, rfl⟩ := List.cons.inj hx
    exact ⟨rfl, _, x, rfl, .inl rfl⟩
  · obtain ⟨rfl, rfl⟩ := List.cons.inj hx
    exact ⟨rfl, _, x, rfl, .inr rfl⟩

/-- The pattern of numbers or words. -/
theorem tame_of_numberBytes {p : Pattern} (hkind : p.kind.isSignificant = true)
    (h : Spans p.reach isNumberByte) : Tame p := by
  refine ⟨hkind, le_of_spans h, settled_of_spans h fun _ => joined_of_numberBytes, ?_, ?_⟩
  · intro b s hpos
    simp [isTokenByte, first_of_spans h hpos]
  · intro b s hb
    have hnot : isNumberByte b = false := by
      by_contra hnum
      rw [Bool.not_eq_false] at hnum
      rcases hb with hb | hb
      · rw [isMarkByte_of_isNumberByte hnum] at hb
        cases hb
      · rw [(slash_of_comment hb).1] at hnum
        cases hnum
    by_contra hlt
    have hpos : 0 < p.reach (b :: s) := by omega
    rw [first_of_spans h hpos] at hnot
    cases hnot

/-- A pattern that reaches over a word if at all. -/
theorem tame_of_le_word {p : Pattern} (hkind : p.kind.isSignificant = true)
    (hsettled : Settled p.reach) (h : ∀ s, p.reach s ≤ word s) : Tame p := by
  have hspans : Spans word isNumberByte := word_spans.mono fun _ => isNumberByte_of_isWordByte
  refine ⟨hkind, fun s => Nat.le_trans (h s) (le_of_spans hspans s), hsettled, ?_, ?_⟩
  · intro b s hpos
    simp [isTokenByte, first_of_spans hspans (Nat.lt_of_lt_of_le hpos (h _))]
  · intro b s hb
    have hword : Tame (plain .identifier word) := tame_of_numberBytes rfl hspans
    exact Nat.le_trans (h _) (hword.short b s hb)

theorem exactWord_le (w s : Text) : exactWord w s ≤ word s := by
  unfold exactWord
  split
  · next h =>
    simp only [Bool.and_eq_true, decide_eq_true_eq] at h
    exact Nat.le_of_eq h.1.symm
  · exact Nat.zero_le _

theorem wordOf_le {α : Type} (table : Lexicon.Table α) (s : Text) : wordOf table s ≤ word s := by
  simp only [wordOf]
  split
  · exact Nat.le_refl _
  · exact Nat.zero_le _

theorem tame_exact {k : Kind} {c : UInt8} (hkind : k.isSignificant = true) (hname : k.name = [c])
    (hc : isTokenByte c = true) : Tame (plain k (exact k.name)) := by
  have hexact : ∀ b s, exact k.name (b :: s) = if c = b then 1 else 0 := by
    intro b s
    rw [hname]
    simp [exact, List.isPrefixOf]
  refine ⟨hkind, ?_, ?_, ?_, ?_⟩
  · intro s
    cases s with
    | nil =>
      change exact k.name [] ≤ 0
      rw [hname]
      simp [exact, List.isPrefixOf]
    | cons b s =>
      change exact k.name (b :: s) ≤ _
      rw [hexact, List.length_cons]
      split <;> omega
  · exact exact_settled (by rw [hname]; rfl)
  · intro b s hpos
    change 0 < exact k.name (b :: s) at hpos
    rw [hexact] at hpos
    split at hpos
    · next hcb => rwa [← hcb]
    · omega
  · intro b s _
    change exact k.name (b :: s) ≤ 1
    rw [hexact]
    split <;> omega

theorem operators_noComment : ∀ e ∈ Lexicon.operators,
    ¬(Text.ascii "//").isPrefixOf e.1 ∧ ¬(Text.ascii "/*").isPrefixOf e.1 := by
  decide

theorem tame_operator : Tame operator := by
  refine ⟨rfl, le_of_spans operator_spans, operator_settled, ?_, ?_⟩
  · intro b s hpos
    have hb : isOperatorByte b = true := first_of_spans operator_spans hpos
    simp [isTokenByte, hb]
  · intro b s hb
    rcases hb with hb | hb
    · by_contra hlt
      have hpos : 0 < Reach.operator (b :: s) := by
        change ¬Reach.operator (b :: s) ≤ 1 at hlt
        omega
      have hop := first_of_spans operator_spans hpos
      rw [(isOperatorByte_plain hop).1] at hb
      cases hb
    · -- No operator begins like a comment.
      obtain ⟨rfl, c, x, rfl, hc⟩ := slash_of_comment hb
      by_contra hlt
      change ¬Reach.operator _ ≤ 1 at hlt
      rcases operator_eq_zero_or (byte '/' :: c :: x) with hzero | ⟨n, hn, hsome⟩
      · omega
      · obtain ⟨e, he, hw⟩ := exists_operator hsome
        have hn' : 2 ≤ n := by
          rw [hn, List.length_take] at hlt
          omega
        obtain ⟨m, rfl⟩ : ∃ m, n = m + 2 := ⟨n - 2, by omega⟩
        have hnot := operators_noComment e he
        rw [hw] at hnot
        rcases hc with rfl | rfl
        · exact hnot.1 (by simp [Text.ascii, byte, List.isPrefixOf])
        · exact hnot.2 (by simp [Text.ascii, byte, List.isPrefixOf])

theorem isNumberByte_of_isUnsignedByte {b : UInt8} (h : Number.isUnsignedByte b = true) :
    isNumberByte b = true := by
  simp only [Number.isUnsignedByte, Number.isIntegerByte, Bool.or_eq_true, decide_eq_true_eq] at h
  rcases h with (((h | rfl) | rfl) | rfl) | rfl
  · exact isNumberByte_of_isWordByte (isWordByte_of_isHexDigit h)
  all_goals rfl

theorem isNumberByte_of_isFloatByte {b : UInt8} (h : Number.isFloatByte b = true) :
    isNumberByte b = true := by
  simp only [Number.isFloatByte, Number.isBodyByte, Bool.or_eq_true, decide_eq_true_eq] at h
  rcases h with (((((((((h | rfl) | rfl) | rfl) | rfl) | rfl) | rfl) | rfl) | rfl) | rfl)
  · exact isNumberByte_of_isWordByte (by simp [isWordByte, h])
  all_goals rfl

theorem lineBreaks_mem_list : plain .lineBreak lineBreaks ∈ list := by
  simp [list, listWith]

theorem blanks_mem_list : plain .blank blanks ∈ list := by
  simp [list, listWith]

theorem word_mem_list : plain .identifier word ∈ list := by
  simp [list, listWith]

/-- Every pattern is tame but those for white space, comments and directives. -/
theorem cases_of_mem_list {p : Pattern} (h : p ∈ list) :
    p = plain .directive directive ∨ p = plain .comment comment ∨
      p = plain .lineBreak lineBreaks ∨ p = plain .blank blanks ∨ Tame p := by
  have hfloat : ∀ b, Number.isFloatByte b = true → isNumberByte b = true :=
    fun _ => isNumberByte_of_isFloatByte
  have huint : ∀ b, Number.isUnsignedByte b = true → isNumberByte b = true :=
    fun _ => isNumberByte_of_isUnsignedByte
  have hint : ∀ b, Number.isIntegerByte b = true → isNumberByte b = true :=
    fun b hb => huint b (by simp [Number.isUnsignedByte, hb])
  -- The sections of the list: white space and literals, keywords, names, punctuation, operators.
  simp only [list, listWith, List.mem_append, List.mem_cons, List.not_mem_nil, or_false] at h
  rcases h with (((h | h) | h) | h) | h
  · rcases h with rfl | rfl | rfl | rfl | rfl | rfl | rfl | rfl | rfl | rfl | rfl
    · exact .inl rfl
    · exact .inr (.inl rfl)
    · exact .inr (.inr (.inl rfl))
    · exact .inr (.inr (.inr (.inl rfl)))
    all_goals refine .inr (.inr (.inr (.inr ?_)))
    · exact tame_of_numberBytes rfl (Number.double_spans.mono hfloat)
    · exact tame_of_numberBytes rfl (Number.float_spans.mono hfloat)
    · exact tame_of_numberBytes rfl (Number.unsigned_spans.mono huint)
    · exact tame_of_numberBytes rfl (Number.integer_spans.mono hint)
    · exact tame_of_le_word rfl (exactWord_settled _) (exactWord_le _)
    · exact tame_of_le_word rfl (exactWord_settled _) (exactWord_le _)
    · exact tame_of_le_word rfl (wordOf_settled _) (wordOf_le _)
  all_goals refine .inr (.inr (.inr (.inr ?_)))
  · obtain ⟨⟨w, k⟩, hwk, rfl⟩ := List.mem_map.1 h
    have hkind : ∀ e ∈ Lexicon.keywords, e.2.isSignificant = true := by decide
    exact tame_of_le_word (hkind _ hwk) (exactWord_settled w) (exactWord_le w)
  · rw [h]
    exact tame_of_le_word rfl word_settled fun s => Nat.le_refl _
  · obtain ⟨k, hk, rfl⟩ := List.mem_map.1 h
    have hpunct : ∀ k ∈ [Kind.colon, .semicolon, .comma, .dot, .leftParen, .rightParen, .leftBrace,
        .rightBrace, .leftBracket, .rightBracket],
        k.isSignificant = true ∧ ∃ c ∈ Text.ascii ":;,.()[]\x7b\x7d",
          k.name = [c] ∧ isTokenByte c = true := by decide
    obtain ⟨hkind, c, -, hname, hc⟩ := hpunct k hk
    exact tame_exact hkind hname hc
  · rw [h]
    exact tame_operator

end Pattern

/-! ## The remaining patterns -/

namespace Reach

open Text

theorem blanks_le (s : Text) : blanks s ≤ s.length :=
  Nat.le_trans (blanks_le_blankRun s) (blankAfter_le 0 s)

theorem length_chomp_le (line : Text) : (chomp line).length ≤ line.length := by
  rcases chomp_cases line with h | h
  · exact Nat.le_of_eq (congrArg List.length h)
  · have hlen := congrArg List.length h
    rw [List.length_append] at hlen
    omega

theorem comment_le (s : Text) : comment s ≤ s.length := by
  unfold comment
  split
  · rcases exists_line s with h | ⟨line, x, rfl, h⟩
    · exact Nat.le_of_eq (lineComment_of_last h)
    · have hle := length_chomp_le line
      rw [lineComment_of_line x h, List.length_append]
      omega
  · split
    · simp only [blockComment]
      split
      · next n hn =>
        have hle := (prefix_of_find? hn).length_le
        rw [List.length_drop, List.length_drop, show (ascii "*/").length = 2 from rfl] at hle
        omega
      · exact Nat.le_refl _
    · exact Nat.zero_le _

/-- A comment has the two bytes that open it. -/
theorem two_le_comment {c : UInt8} (x : Text) (hc : c = byte '/' ∨ c = byte '*') :
    2 ≤ comment (byte '/' :: c :: x) := by
  rcases hc with rfl | rfl
  · have hopen : (ascii "//").isPrefixOf (byte '/' :: byte '/' :: x) = true :=
      List.isPrefixOf_iff_prefix.2 ⟨x, rfl⟩
    rw [comment, if_pos hopen]
    rcases exists_line (byte '/' :: byte '/' :: x) with h | ⟨line, y, hline, h⟩
    · rw [lineComment_of_last h, List.length_cons, List.length_cons]
      omega
    · rw [hline, lineComment_of_line y h]
      -- The two bytes belong to the line, and they are no carriage return.
      rcases line with _ | ⟨d, _ | ⟨e, line⟩⟩
      · exact absurd (List.cons.inj hline).1 (by decide)
      · exact absurd (List.cons.inj (List.cons.inj hline).2).1 (by decide)
      · obtain ⟨rfl, hline'⟩ := List.cons.inj hline
        obtain ⟨rfl, -⟩ := List.cons.inj hline'
        rcases chomp_cases (byte '/' :: byte '/' :: line) with hchomp | hchomp
        · rw [hchomp, List.length_cons, List.length_cons]
          omega
        · by_contra hlt
          have hlen := congrArg List.length hchomp
          rw [List.length_append, List.length_cons, List.length_cons, List.length_singleton] at hlen
          have hnil : line = [] := List.length_eq_zero_iff.1 (by omega)
          subst hnil
          have hlast := congrArg List.getLast? hchomp
          rw [List.getLast?_concat] at hlast
          exact absurd (Option.some.inj hlast) (by decide)
  · have hopen : (ascii "/*").isPrefixOf (byte '/' :: byte '*' :: x) = true :=
      List.isPrefixOf_iff_prefix.2 ⟨x, rfl⟩
    have hnot : ¬(ascii "//").isPrefixOf (byte '/' :: byte '*' :: x) = true := by
      rw [List.isPrefixOf_iff_prefix]
      rintro ⟨y, hy⟩
      exact absurd (List.cons.inj (List.cons.inj hy).2).1 (by decide)
    rw [comment, if_neg hnot, if_pos hopen]
    simp only [blockComment]
    split
    · omega
    · rw [List.length_cons, List.length_cons]
      omega

theorem directiveLines_le (s : Text) : directiveLines (lines s) ≤ s.length := by
  induction hn : s.length using Nat.strongRecOn generalizing s with
  | ind n ih =>
    subst hn
    rcases exists_line s with h | ⟨line, x, rfl, h⟩
    · exact Nat.le_of_eq (directiveLines_of_last h)
    · rw [directiveLines_of_line x h]
      have hlen : (line ++ lineFeed :: x).length = line.length + 1 + x.length := by
        simp only [List.length_append, List.length_cons]
        omega
      rw [hlen] at ih ⊢
      split
      · have := ih x.length (by omega) x rfl
        omega
      · have := length_chomp_le line
        omega

theorem directive_le (s : Text) : directive s ≤ s.length := by
  unfold directive
  split
  · exact directiveLines_le s
  · exact Nat.zero_le _

theorem directive_of_ne {b : UInt8} (h : b ≠ byte '#') (s : Text) : directive (b :: s) = 0 := by
  have hnot : (ascii "#").isPrefixOf (b :: s) = false := by
    change ([byte '#'] : Text).isPrefixOf (b :: s) = false
    rw [List.isPrefixOf_cons_cons, beq_false_of_ne (Ne.symm h), Bool.false_and]
  rw [directive, hnot]
  rfl

theorem comment_of_ne {b : UInt8} (h : b ≠ byte '/') (s : Text) : comment (b :: s) = 0 := by
  by_contra hne
  exact h (Pattern.slash_of_comment hne).1

theorem directive_pos {b : UInt8} {s : Text} (h : 0 < directive (b :: s)) : b = byte '#' := by
  by_contra hb
  rw [directive_of_ne hb] at h
  cases h

theorem comment_pos {b : UInt8} {s : Text} (h : 0 < comment (b :: s)) : b = byte '/' := by
  by_contra hb
  rw [comment_of_ne hb] at h
  cases h

theorem blanks_of_not_blank {b : UInt8} (h : isBlankByte b = false) (s : Text) :
    blanks (b :: s) = 0 :=
  Nat.le_zero.1 (Nat.le_trans (blanks_le_blankRun _) (Nat.le_of_eq (blankRun_of_not_blank h s)))

theorem blanks_pos {b : UInt8} {s : Text} (h : 0 < blanks (b :: s)) : isBlankByte b = true := by
  by_contra hb
  rw [blanks_of_not_blank (by simpa using hb)] at h
  cases h

theorem blanks_feed (s : Text) : blanks (lineFeed :: s) = 0 :=
  Nat.le_zero.1 (Nat.le_trans (blanks_le_blankRun _) (Nat.le_of_eq (blankRun_feed s)))

/-- A line break begins with a line feed or with both bytes. -/
theorem exists_of_lineBreaks {s : Text} (h : 0 < lineBreaks s) :
    (∃ x, s = lineFeed :: x) ∨ ∃ x, s = carriageReturn :: lineFeed :: x ∧ 2 ≤ lineBreaks s := by
  unfold lineBreaks at h
  split at h
  · next x => exact .inl ⟨x, rfl⟩
  · next x => exact .inr ⟨x, rfl, by simp [lineBreaks]⟩
  · exact absurd h (Nat.lt_irrefl 0)

theorem isSolid_of_isNumberByte {b : UInt8} (h : isNumberByte b = true) : isSolid b = true := by
  have h0 : (byte '0').toNat = 48 := rfl
  have h9 : (byte '9').toNat = 57 := rfl
  have ha : (byte 'a').toNat = 97 := rfl
  have hz : (byte 'z').toNat = 122 := rfl
  have hA : (byte 'A').toNat = 65 := rfl
  have hZ : (byte 'Z').toNat = 90 := rfl
  have hlow : (0x21 : UInt8).toNat = 33 := rfl
  have hhigh : (0x7E : UInt8).toNat = 126 := rfl
  simp only [isNumberByte, isWordByte, isWordStart, Number.isDigit, Bool.or_eq_true,
    Bool.and_eq_true, decide_eq_true_eq] at h
  rcases h with ((((( rfl | h) | h) | h) | rfl) | rfl) | rfl
  · rfl
  all_goals first | rfl | skip
  all_goals
    simp only [isSolid, Bool.and_eq_true, decide_eq_true_eq, UInt8.le_iff_toNat_le] at h ⊢
    omega

theorem isSolid_of_isTokenByte {b : UInt8} (h : Pattern.isTokenByte b = true) :
    isSolid b = true := by
  have hop : (Text.ascii "~!*/%+-<>=&^|?").all isSolid = true := by decide
  have hpunct : (Text.ascii ":;,()[]\x7b\x7d").all isSolid = true := by decide
  simp only [Pattern.isTokenByte, Bool.or_eq_true] at h
  rcases h with (h | h) | h
  · exact isSolid_of_isNumberByte h
  · exact List.all_eq_true.1 hop b (List.contains_iff_mem.1 h)
  · exact List.all_eq_true.1 hpunct b (List.contains_iff_mem.1 h)

end Reach

/-! ## The front token -/

/-- What a token says apart from its place. -/
def Token.content (t : Token) : Kind × Text × Tags :=
  (t.kind, t.lexeme, t.tags)

namespace Lexer

/-- The content of the front token; the empty text has the end of input. -/
def first : Text → Kind × Text × Tags
  | [] => (Token.endAt Position.start).content
  | b :: s => (front Pattern.list Position.start b s).content

theorem first_of_longest {s : Text} {p : Pattern} {n : Nat} (hs : s ≠ [])
    (h : Pattern.longest s Pattern.list = some (p, n)) :
    first s = (p.kind, s.take n, p.tags (s.take n)) := by
  obtain ⟨b, s, rfl⟩ := List.exists_cons_of_ne_nil hs
  rw [first, front, h]
  rfl

theorem first_of_none {b : UInt8} {s : Text} (h : Pattern.longest (b :: s) Pattern.list = none) :
    (first (b :: s)).1 = .error := by
  rw [first, front, h]
  rfl

/-- No pattern reaches beyond the text. -/
theorem reach_le {p : Pattern} (h : p ∈ Pattern.list) (s : Text) : p.reach s ≤ s.length := by
  rcases Pattern.cases_of_mem_list h with rfl | rfl | rfl | rfl | h
  · exact directive_le s
  · exact comment_le s
  · exact Pattern.le_of_spans lineBreaks_spans s
  · exact blanks_le s
  · exact h.le s

/-- A front token that is no error comes from a pattern that reaches farthest. -/
theorem exists_pattern {a v : Text} {k : Kind} {tags : Tags} (ha : a ≠ [])
    (h : first (a ++ v) = (k, a, tags)) (hk : k ≠ .error) :
    ∃ p ∈ Pattern.list, Pattern.longest (a ++ v) Pattern.list = some (p, a.length) ∧
      p.kind = k ∧ p.tags a = tags ∧ p.reach (a ++ v) = a.length ∧
      ∀ q ∈ Pattern.list, q.reach (a ++ v) ≤ a.length := by
  have hne : a ++ v ≠ [] := List.append_ne_nil_of_left_ne_nil ha v
  cases hlong : Pattern.longest (a ++ v) Pattern.list with
  | none =>
    obtain ⟨b, s, hs⟩ := List.exists_cons_of_ne_nil hne
    rw [hs] at hlong h
    have herror := first_of_none hlong
    rw [h] at herror
    exact absurd herror hk
  | some found =>
    obtain ⟨p, n⟩ := found
    obtain ⟨hp, hreach, hpos, hmax⟩ := Pattern.longest_eq_some hlong
    rw [first_of_longest hne hlong, Prod.mk.injEq, Prod.mk.injEq] at h
    obtain ⟨hkind, hlex, htags⟩ := h
    have hle := reach_le hp (a ++ v)
    have hn : n = a.length := by
      have hlen := congrArg List.length hlex
      rw [List.length_take] at hlen
      omega
    subst hn
    rw [hlex] at htags
    exact ⟨p, hp, rfl, hkind, htags, hreach, hmax⟩

section Congr

variable {a v v' : Text} {p : Pattern} (ha : a ≠ []) (hp : p ∈ Pattern.list)
  (hreach : p.reach (a ++ v) = a.length)
include ha hp hreach

/-- Nothing but a directive begins with its sign. -/
theorem directive_reach_congr (hcont : p.kind.isIgnored = true → Continues v v') :
    directive (a ++ v') = directive (a ++ v) := by
  obtain ⟨b, a, rfl⟩ := List.exists_cons_of_ne_nil ha
  by_cases hb : b = byte '#'
  · subst hb
    have hpos : 0 < p.reach (byte '#' :: (a ++ v)) := by
      rw [← List.cons_append, hreach]
      exact Nat.succ_pos _
    rcases Pattern.cases_of_mem_list hp with rfl | rfl | rfl | rfl | htame
    · have hdir : directive (byte '#' :: a ++ v) = (byte '#' :: a).length := hreach
      rw [(directive_congr ha hdir (hcont rfl)).2, hdir]
    · have hpos' : 0 < comment (byte '#' :: (a ++ v)) := hpos
      exact absurd (comment_pos hpos') (by decide)
    · exact absurd (Pattern.first_of_spans lineBreaks_spans hpos) (by decide)
    · have hpos' : 0 < blanks (byte '#' :: (a ++ v)) := hpos
      exact absurd (blanks_pos hpos') (by decide)
    · exact absurd (htame.opens _ _ hpos) (by decide)
  · rw [List.cons_append, List.cons_append, directive_of_ne hb, directive_of_ne hb]

/-- A comment is longer than any other token that begins like it. -/
theorem comment_reach_congr (hfits : Fits (a ++ v) (a ++ v'))
    (hmax : comment (a ++ v) ≤ a.length) (hcont : p.kind.isIgnored = true → Continues v v') :
    comment (a ++ v') = comment (a ++ v) := by
  obtain ⟨b, a, rfl⟩ := List.exists_cons_of_ne_nil ha
  have hpos : 0 < p.reach (b :: (a ++ v)) := by
    rw [← List.cons_append, hreach]
    exact Nat.succ_pos _
  by_cases hzero : comment (b :: a ++ v) = 0
  · -- The two bytes that open a comment would have been there before.
    by_contra hne
    rw [hzero] at hne
    obtain ⟨rfl, c, x, hx, hc⟩ := Pattern.slash_of_comment hne
    change a ++ v' = c :: x at hx
    have hjoined : Joined [byte '/', c] := by
      refine joined_of_plainBytes ?_
      intro d hd
      simp only [List.mem_cons, List.not_mem_nil, or_false] at hd
      rcases hd with rfl | rfl
      · exact ⟨rfl, rfl⟩
      · rcases hc with rfl | rfl <;> exact ⟨rfl, rfl⟩
    have hfront : [byte '/', c] <+: byte '/' :: a ++ v' := ⟨x, by simp [hx]⟩
    obtain ⟨y, hy⟩ := hfits _ hjoined hfront
    have htwo := two_le_comment y hc
    change [byte '/', c] ++ y = _ at hy
    change 2 ≤ comment ([byte '/', c] ++ y) at htwo
    rw [hy, hzero] at htwo
    omega
  · obtain ⟨rfl, c, x, hx, hc⟩ := Pattern.slash_of_comment hzero
    change a ++ v = c :: x at hx
    have htwo : 2 ≤ comment (byte '/' :: a ++ v) := by
      rw [List.cons_append, hx]
      exact two_le_comment x hc
    rcases Pattern.cases_of_mem_list hp with rfl | rfl | rfl | rfl | htame
    · have hpos' : 0 < directive (byte '/' :: (a ++ v)) := hpos
      exact absurd (directive_pos hpos') (by decide)
    · have hcom : comment (byte '/' :: a ++ v) = (byte '/' :: a).length := hreach
      rw [(comment_congr ha hcom (hcont rfl)).2, hcom]
    · exact absurd (Pattern.first_of_spans lineBreaks_spans hpos) (by decide)
    · have hpos' : 0 < blanks (byte '/' :: (a ++ v)) := hpos
      exact absurd (blanks_pos hpos') (by decide)
    · have hshort := htame.short (byte '/') (a ++ v) (.inr hzero)
      rw [← List.cons_append, hreach] at hshort
      omega

/-- Nothing but blanks and line breaks begins with a blank. -/
theorem blanks_reach_congr (hcont : p.kind.isIgnored = true → Continues v v')
    (hhalts : p.kind = .blank → Halts v) : blanks (a ++ v') = blanks (a ++ v) := by
  obtain ⟨b, a, rfl⟩ := List.exists_cons_of_ne_nil ha
  by_cases hb : isBlankByte b = true
  · have hpos : 0 < p.reach (b :: (a ++ v)) := by
      rw [← List.cons_append, hreach]
      exact Nat.succ_pos _
    rcases Pattern.cases_of_mem_list hp with rfl | rfl | rfl | rfl | htame
    · have hpos' : 0 < directive (b :: (a ++ v)) := hpos
      rw [directive_pos hpos'] at hb
      cases hb
    · have hpos' : 0 < comment (b :: (a ++ v)) := hpos
      rw [comment_pos hpos'] at hb
      cases hb
    · -- Line breaks are no blanks, not even those that begin with a carriage return.
      rcases exists_of_lineBreaks hpos with ⟨x, hx⟩ | ⟨x, hx, hlen⟩
      · obtain ⟨rfl, -⟩ := List.cons.inj hx
        rw [List.cons_append, List.cons_append, blanks_feed, blanks_feed]
      · obtain ⟨rfl, hx'⟩ := List.cons.inj hx
        have hlen' : 2 ≤ (Text.carriageReturn :: a).length := by
          rw [← hreach]
          exact hlen
        obtain ⟨c, a, rfl⟩ : ∃ c a', a = c :: a' := by
          cases a with
          | nil => simp at hlen'
          | cons c a => exact ⟨c, a, rfl⟩
        obtain ⟨rfl, -⟩ := List.cons.inj hx'
        simp only [List.cons_append, blanks_crlf]
    · exact blanks_congr (hhalts rfl) (hcont rfl)
    · have hsolid := isSolid_of_isTokenByte (htame.opens _ _ hpos)
      rw [isBlankByte_of_isSolid hsolid] at hb
      cases hb
  · rw [Bool.not_eq_true] at hb
    rw [List.cons_append, List.cons_append, blanks_of_not_blank hb, blanks_of_not_blank hb]

end Congr

/-- The front token stays as it is when the text is changed behind it. -/
theorem first_congr {a v v' : Text} {k : Kind} {tags : Tags} (ha : a ≠ [])
    (h : first (a ++ v) = (k, a, tags)) (hk : k ≠ .error) (hfits : Fits (a ++ v) (a ++ v'))
    (hcont : k.isIgnored = true → Continues v v') (hhalts : k = .blank → Halts v) :
    first (a ++ v') = (k, a, tags) := by
  obtain ⟨p, hp, hlong, rfl, rfl, hreach, hmax⟩ := exists_pattern ha h hk
  have hsame : ∀ q ∈ Pattern.list, q.reach (a ++ v') = q.reach (a ++ v) := by
    intro q hq
    have hle := hmax q hq
    rcases Pattern.cases_of_mem_list hq with rfl | rfl | rfl | rfl | htame
    · exact directive_reach_congr ha hp hreach hcont
    · exact comment_reach_congr ha hp hreach hfits hle hcont
    · exact lineBreaks_settled ha hfits (hmax _ Pattern.word_mem_list) hle
    · exact blanks_reach_congr ha hp hreach hcont hhalts
    · exact htame.settled ha hfits (hmax _ Pattern.word_mem_list) hle
  have hne : a ++ v' ≠ [] := List.append_ne_nil_of_left_ne_nil ha v'
  have hlong' : Pattern.longest (a ++ v') Pattern.list = some (p, a.length) := by
    rw [Pattern.longest_congr hsame, hlong]
  rw [first_of_longest hne hlong', List.take_left]

/-! ## Tokens of a mark -/

/-- What begins with a mark is the token of the mark, whatever follows. -/
theorem first_mark {c : UInt8} (hc : isMarkByte c = true) {k : Kind} {tags : Tags}
    (h : first [c] = (k, [c], tags)) (hk : k ≠ .error) (v : Text) :
    first (c :: v) = (k, [c], tags) := by
  have hne : ([c] : Text) ≠ [] := List.cons_ne_nil _ _
  obtain ⟨p, hp, hlong, rfl, rfl, -, -⟩ := exists_pattern (v := []) hne h hk
  have hmark : ∀ b, isMarkByte b = true →
      b ≠ byte '#' ∧ b ≠ byte '/' ∧ isBreakByte b = false ∧ isBlankByte b = false := by
    intro b hb
    simp only [isMarkByte, Bool.or_eq_true, decide_eq_true_eq] at hb
    rcases hb with (((rfl | rfl) | rfl) | rfl) | rfl <;> decide
  obtain ⟨hsign, hslash, hbreak, hblank⟩ := hmark c hc
  have hfits : Fits ([c] ++ v) ([c] ++ []) := by
    intro u _ hu
    rw [List.append_nil] at hu
    exact hu.trans (List.prefix_append [c] v)
  have hword : Pattern.Tame (Pattern.plain .identifier word) :=
    Pattern.tame_of_le_word rfl word_settled fun s => Nat.le_refl _
  have hsame : ∀ q ∈ Pattern.list, q.reach (c :: v) = q.reach [c] := by
    intro q hq
    rcases Pattern.cases_of_mem_list hq with rfl | rfl | rfl | rfl | htame
    · exact (directive_of_ne hsign v).trans (directive_of_ne hsign []).symm
    · exact (comment_of_ne hslash v).trans (comment_of_ne hslash []).symm
    · have hzero : ∀ w, lineBreaks (c :: w) = 0 := fun w =>
        Nat.le_zero.1 (lineBreaks_spans.le_of_stop (u := []) hbreak)
      exact (hzero v).trans (hzero []).symm
    · exact (blanks_of_not_blank hblank v).trans (blanks_of_not_blank hblank []).symm
    · exact (htame.settled hne hfits (hword.short c v (.inl hc)) (htame.short c v (.inl hc))).symm
  have hlong' : Pattern.longest (c :: v) Pattern.list = some (p, 1) := by
    rw [Pattern.longest_congr hsame]
    exact hlong
  rw [first_of_longest (List.cons_ne_nil _ _) hlong']
  rfl

/-! ## What tokens begin and end with -/

/-- The patterns for what the grammar does not see are known by their kinds. -/
theorem reach_of_kind {p : Pattern} (hp : p ∈ Pattern.list) :
    (p.kind = .directive → p.reach = directive) ∧ (p.kind = .comment → p.reach = comment) ∧
      (p.kind = .lineBreak → p.reach = lineBreaks) ∧ (p.kind = .blank → p.reach = blanks) := by
  rcases Pattern.cases_of_mem_list hp with rfl | rfl | rfl | rfl | htame
  · simp [Pattern.plain]
  · simp [Pattern.plain]
  · simp [Pattern.plain]
  · simp [Pattern.plain]
  · have hsig := htame.significant
    refine ⟨?_, ?_, ?_, ?_⟩ <;>
    · intro hkind
      rw [hkind] at hsig
      cases hsig

section Ends

variable {a v : Text} {k : Kind} {tags : Tags} (ha : a ≠ []) (h : first (a ++ v) = (k, a, tags))
include ha h

/-- Whatever is neither white space nor an error begins with a solid byte. -/
theorem solid_of_first (hk : k ≠ .error) (hblank : k ≠ .blank) (hbreak : k ≠ .lineBreak) :
    ∃ b x, a = b :: x ∧ isSolid b = true := by
  obtain ⟨p, hp, -, rfl, -, hreach, -⟩ := exists_pattern ha h hk
  obtain ⟨b, a, rfl⟩ := List.exists_cons_of_ne_nil ha
  refine ⟨b, a, rfl, ?_⟩
  have hpos : 0 < p.reach (b :: (a ++ v)) := by
    rw [← List.cons_append, hreach]
    exact Nat.succ_pos _
  rcases Pattern.cases_of_mem_list hp with rfl | rfl | rfl | rfl | htame
  · have hpos' : 0 < directive (b :: (a ++ v)) := hpos
    rw [directive_pos hpos']
    rfl
  · have hpos' : 0 < comment (b :: (a ++ v)) := hpos
    rw [comment_pos hpos']
    rfl
  · exact absurd rfl hbreak
  · exact absurd rfl hblank
  · exact isSolid_of_isTokenByte (htame.opens _ _ hpos)

/-- A line break begins a line. -/
theorem endsLine_of_first (hk : k = .lineBreak) :
    (∃ x, a = Text.lineFeed :: x) ∨ ∃ x, a = Text.carriageReturn :: Text.lineFeed :: x := by
  subst hk
  obtain ⟨p, hp, -, hkind, -, hreach, -⟩ := exists_pattern ha h (by decide)
  rw [(reach_of_kind hp).2.2.1 hkind] at hreach
  have hpos : 0 < lineBreaks (a ++ v) := by
    rw [hreach]
    exact List.length_pos_iff.2 ha
  rcases exists_of_lineBreaks hpos with ⟨x, hx⟩ | ⟨x, hx, hlen⟩
  · obtain ⟨b, a, rfl⟩ := List.exists_cons_of_ne_nil ha
    obtain ⟨rfl, -⟩ := List.cons.inj hx
    exact .inl ⟨a, rfl⟩
  · rw [hreach] at hlen
    match a, hlen with
    | b :: c :: a, _ =>
      obtain ⟨rfl, hx'⟩ := List.cons.inj hx
      obtain ⟨rfl, -⟩ := List.cons.inj hx'
      exact .inr ⟨a, rfl⟩

/-- Whatever is neither blank nor an error ends a run of blanks. -/
theorem halts_of_first (hk : k ≠ .error) (hblank : k ≠ .blank) : Halts (a ++ v) := by
  by_cases hbreak : k = .lineBreak
  · rcases endsLine_of_first ha h hbreak with ⟨x, rfl⟩ | ⟨x, rfl⟩
    · exact .inl (.inr (.inl ⟨x ++ v, rfl⟩))
    · exact .inl (.inr (.inr ⟨x ++ v, rfl⟩))
  · obtain ⟨b, x, rfl, hb⟩ := solid_of_first ha h hk hblank hbreak
    exact .inr ⟨b, x ++ v, rfl, hb⟩

theorem blanks_of_first (hk : k = .blank) : blanks (a ++ v) = a.length := by
  subst hk
  obtain ⟨p, hp, -, hkind, -, hreach, -⟩ := exists_pattern ha h (by decide)
  rw [(reach_of_kind hp).2.2.2 hkind] at hreach
  exact hreach

/-- In front of a significant token, what the grammar does not see ends with no byte of a word or a
number. A line comment or a directive cannot stand there. -/
theorem last_of_first (hk : k ≠ .error) (hsig : k.isSignificant = false) {b : UInt8} {x : Text}
    (hv : v = b :: x) (hb : isSolid b = true) :
    ∃ z, a.getLast? = some z ∧ isNumberByte z = false := by
  obtain ⟨p, hp, -, rfl, -, hreach, -⟩ := exists_pattern ha h hk
  have hnotEnd : ¬EndsLine v := by
    intro hends
    rw [hv] at hends
    rw [hends.not_solid] at hb
    cases hb
  obtain ⟨w, z, rfl⟩ : ∃ w z, a = w ++ [z] :=
    ⟨_, _, (List.dropLast_concat_getLast ha).symm⟩
  refine ⟨z, List.getLast?_concat, ?_⟩
  -- A directive or a line comment would reach to the end of the line. The others end with bytes of
  -- their own: the slash of a block comment, part of a line break, or a blank.
  rcases Pattern.cases_of_mem_list hp with rfl | rfl | rfl | rfl | htame
  · exact absurd (directive_congr ha hreach (.refl v)).1 hnotEnd
  · rcases (comment_congr ha hreach (.refl v)).1 with hends | hlast
    · exact absurd hends hnotEnd
    · rw [List.getLast?_concat] at hlast
      rw [Option.some.inj hlast]
      rfl
  · obtain ⟨u, y, hs, hu, hbytes, -⟩ := lineBreaks_spans (w ++ [z] ++ v)
    have huz : u = w ++ [z] := by
      have hlen : (w ++ [z]).length = u.length := hreach.symm.trans hu
      exact (List.append_inj hs hlen).1.symm
    have hz := hbytes z (by simp [huz])
    simp only [isBreakByte, Bool.or_eq_true, decide_eq_true_eq] at hz
    rcases hz with rfl | rfl <;> rfl
  · have hbytes := blanks_bytes (w ++ [z] ++ v)
    have hreach' : blanks (w ++ [z] ++ v) = (w ++ [z]).length := hreach
    rw [hreach', List.take_left] at hbytes
    have hz := hbytes z (by simp)
    by_contra hnum
    rw [Bool.not_eq_false] at hnum
    rw [isBlankByte_of_isSolid (isSolid_of_isNumberByte hnum)] at hz
    cases hz
  · rw [htame.significant] at hsig
    cases hsig

end Ends

/-- No two tokens of blanks stand side by side. -/
theorem not_blank_after {a a' v v' : Text} {k : Kind} {tags tags' : Tags} (ha : a ≠ [])
    (h : first (a ++ v) = (.blank, a, tags)) (hv : v = a' ++ v') (ha' : a' ≠ [])
    (h' : first v = (k, a', tags')) : k ≠ .blank := by
  rintro rfl
  subst hv
  have hnext := blanks_of_first ha' h' rfl
  have hdrop := blanks_drop (a ++ (a' ++ v'))
  rw [blanks_of_first ha h rfl, List.drop_left, hnext] at hdrop
  exact ha' (List.length_eq_zero_iff.1 hdrop)

/-! ## All tokens -/

/-- The contents of all tokens of a text. -/
def contents (s : Text) : List (Kind × Text × Tags) :=
  (tokens s).map Token.content

theorem tokensAfter_pending (patterns : List Pattern) (n : Nat) (p : Position) (s : Text) :
    tokensAfter patterns n p s = tokensAfter patterns 0 p (s.drop n) := by
  induction s generalizing n with
  | nil =>
    rw [List.drop_nil]
    cases n <;> rfl
  | cons b s ih =>
    cases n with
    | zero => rfl
    | succ n => exact ih n

/-- The front token stands where the text starts. -/
theorem front_eq (p : Position) (b : UInt8) (s : Text) :
    front Pattern.list p b s =
      ⟨(first (b :: s)).1, (first (b :: s)).2.1, p, p.advance (first (b :: s)).2.1,
        (first (b :: s)).2.2⟩ := by
  cases h : Pattern.longest (b :: s) Pattern.list <;> simp [first, front, h, Token.content]

/-- The first token and the tokens of the rest. -/
theorem tokensAfter_append {a v : Text} {k : Kind} {tags : Tags} (ha : a ≠ [])
    (h : first (a ++ v) = (k, a, tags)) (p : Position) :
    tokensAfter Pattern.list 0 p (a ++ v) =
      ⟨k, a, p, p.advance a, tags⟩ :: tokensAfter Pattern.list 0 (p.advance a) v := by
  obtain ⟨b, a, rfl⟩ := List.exists_cons_of_ne_nil ha
  rw [List.cons_append] at h ⊢
  rw [tokensAfter, front_eq, h, tokensAfter_pending]
  simp

theorem width_pos (r : Rune) : 0 < r.width := by
  cases r with
  | scalar code =>
    simp only [Rune.width]
    split
    · exact Nat.one_pos
    · split
      · exact Nat.two_pos
      · split <;> omega
  | invalid b => exact Nat.one_pos

theorem exists_first {s : Text} (hs : s ≠ []) :
    ∃ k a tags v, s = a ++ v ∧ a ≠ [] ∧ first s = (k, a, tags) := by
  have htake : ∀ n, 0 < n → s.take n ≠ [] := by
    intro n hn hnil
    rw [List.take_eq_nil_iff] at hnil
    rcases hnil with hnil | hnil
    · omega
    · exact hs hnil
  cases hlong : Pattern.longest s Pattern.list with
  | none =>
    obtain ⟨b, s, rfl⟩ := List.exists_cons_of_ne_nil hs
    refine ⟨.error, _, Tags.none, _,
      (List.take_append_drop (Rune.first b s).width (b :: s)).symm, htake _ (width_pos _), ?_⟩
    rw [first, front, hlong]
    rfl
  | some found =>
    obtain ⟨p, n⟩ := found
    have hpos := (Pattern.longest_eq_some hlong).2.2.1
    exact ⟨_, _, _, _, (List.take_append_drop n s).symm, htake n hpos,
      first_of_longest hs hlong⟩

/-- What holds of the empty text, and of a text if it holds of what is behind its first token, holds
of all texts. -/
theorem token_induction {motive : Position → Text → Prop} (nil : ∀ p, motive p [])
    (token : ∀ p k a tags v, a ≠ [] → first (a ++ v) = (k, a, tags) → motive (p.advance a) v →
      motive p (a ++ v)) (p : Position) (s : Text) : motive p s := by
  induction hn : s.length using Nat.strongRecOn generalizing p s with
  | ind n ih =>
    subst hn
    by_cases hs : s = []
    · rw [hs]
      exact nil p
    · obtain ⟨k, a, tags, v, rfl, ha, h⟩ := exists_first hs
      have hlt : v.length < (a ++ v).length := by
        have := List.length_pos_iff.2 ha
        rw [List.length_append]
        omega
      exact token p k a tags v ha h (ih v.length hlt (p.advance a) v rfl)

/-- The contents of tokens do not depend on where the text starts. -/
theorem map_content_tokensAfter (p : Position) (s : Text) :
    (tokensAfter Pattern.list 0 p s).map Token.content = contents s := by
  have hsame : ∀ q : Position, (tokensAfter Pattern.list 0 p s).map Token.content =
      (tokensAfter Pattern.list 0 q s).map Token.content := by
    induction p, s using token_induction with
    | nil p => exact fun q => rfl
    | token p k a tags v ha h ih =>
      intro q
      rw [tokensAfter_append ha h, tokensAfter_append ha h, List.map_cons, List.map_cons,
        ih (q.advance a)]
      rfl
  exact hsame Position.start

theorem contents_append {a v : Text} {k : Kind} {tags : Tags} (ha : a ≠ [])
    (h : first (a ++ v) = (k, a, tags)) : contents (a ++ v) = (k, a, tags) :: contents v := by
  rw [contents, tokens, tokensWith, tokensAfter_append ha h, List.map_cons,
    map_content_tokensAfter]
  rfl

end Lexer

end ShaderRepair

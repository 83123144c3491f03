import ShaderRepair.Proofs.Dispatch
import ShaderRepair.Proofs.Interleaving

/-!
# Spelled symbols

Symbols are written down on one line, with a space between neighbours, and lexing finds them again.
A space ends every token that is seen, so nothing is asked of neighbours. This file contains:
- `Symbol.Spelled`, a symbol whose lexeme alone is its token, and the symbols that are;
- `Lexer.first_space`, which says that a token ends at a space;
- `Symbol.spell`, and `Symbol.symbols_spell`, which says that spelled symbols are read back.
-/

namespace ShaderRepair

open Reach Lexer Pattern

/-! ## Symbols by their lexeme -/

namespace Symbol

/-- The symbol of an identifier. -/
def name (w : Text) : Symbol :=
  ⟨.identifier, w, Tags.none, false⟩

def literal (kind : LiteralKind) (w : Text) : Symbol :=
  ⟨.literal, w, ⟨Roles.none, kind, .none⟩, false⟩

def operator (w : Text) : Symbol :=
  ⟨.operator, w, ⟨(Lexicon.operators.find w).getD Roles.none, .none, .none⟩, false⟩

def qualifier (w : Text) (c : QualifierClass) : Symbol :=
  ⟨.qualifier, w, ⟨Roles.none, .none, c⟩, false⟩

@[simp] theorem name_kind (w : Text) : (name w).kind = .identifier := rfl
@[simp] theorem literal_kind (k : LiteralKind) (w : Text) : (literal k w).kind = .literal := rfl
@[simp] theorem operator_kind (w : Text) : (operator w).kind = .operator := rfl
@[simp] theorem qualifier_kind (w : Text) (c : QualifierClass) :
    (qualifier w c).kind = .qualifier := rfl

/-- The lexeme of the symbol is a text with one token, which shows the symbol. -/
structure Spelled (s : Symbol) : Prop where
  lexeme : s.lexeme ≠ []
  first : Lexer.first s.lexeme = (s.kind, s.lexeme, s.tags)
  significant : s.kind.isSignificant = true
  valid : s.kind ≠ .error
  joined : s.broken = false

instance (s : Symbol) : Decidable s.Spelled :=
  decidable_of_iff (s.lexeme ≠ [] ∧ Lexer.first s.lexeme = (s.kind, s.lexeme, s.tags) ∧
      s.kind.isSignificant = true ∧ s.kind ≠ .error ∧ s.broken = false)
    ⟨fun ⟨h₁, h₂, h₃, h₄, h₅⟩ => ⟨h₁, h₂, h₃, h₄, h₅⟩,
      fun ⟨h₁, h₂, h₃, h₄, h₅⟩ => ⟨h₁, h₂, h₃, h₄, h₅⟩⟩

/-- The token is found by its first byte. -/
theorem spelled_iff {s : Symbol} :
    s.Spelled ↔ s.lexeme ≠ [] ∧ Lexer.firstAt s.lexeme = (s.kind, s.lexeme, s.tags) ∧
      s.kind.isSignificant = true ∧ s.kind ≠ .error ∧ s.broken = false := by
  rw [← Lexer.first_eq_firstAt]
  exact ⟨fun ⟨h₁, h₂, h₃, h₄, h₅⟩ => ⟨h₁, h₂, h₃, h₄, h₅⟩,
    fun ⟨h₁, h₂, h₃, h₄, h₅⟩ => ⟨h₁, h₂, h₃, h₄, h₅⟩⟩

end Symbol

/-! ## Tokens before a space -/

namespace Pattern

/-- A token that is seen ends before a byte that stands in no word and in no operator, unless it is
one piece of punctuation. -/
theorem reach_stop_or {p : Pattern} (hp : p ∈ list) (hsig : p.kind.isSignificant = true)
    {c : UInt8} (hnum : isNumberByte c = false) (hop : isOperatorByte c = false) (a x : Text) :
    p.reach (a ++ c :: x) ≤ a.length ∨
      p.kind.isPunctuation = true ∧ p.reach (a ++ c :: x) ≤ 1 := by
  have hbytes : ∀ {reach : Text → Nat}, Spans reach isNumberByte →
      reach (a ++ c :: x) ≤ a.length := fun h => h.le_of_stop hnum
  have hword : word (a ++ c :: x) ≤ a.length :=
    hbytes (word_spans.mono fun _ => isNumberByte_of_isWordByte)
  have huint : ∀ b, Number.isUnsignedByte b = true → isNumberByte b = true :=
    fun _ => isNumberByte_of_isUnsignedByte
  have hint : ∀ b, Number.isIntegerByte b = true → isNumberByte b = true :=
    fun b hb => huint b (by simp [Number.isUnsignedByte, hb])
  -- In the order of the list: what is ignored, literals and qualifiers; keywords; names;
  -- punctuation; operators.
  simp only [list, listWith, List.mem_append, List.mem_cons, List.not_mem_nil, or_false] at hp
  rcases hp with (((hp | hp) | hp) | hp) | hp
  · left
    rcases hp with rfl | rfl | rfl | rfl | rfl | rfl | rfl | rfl | rfl | rfl | rfl
    iterate 4
      · cases hsig
    · exact hbytes (Number.double_spans.mono fun _ => isNumberByte_of_isFloatByte)
    · exact hbytes (Number.float_spans.mono fun _ => isNumberByte_of_isFloatByte)
    · exact hbytes (Number.unsigned_spans.mono huint)
    · exact hbytes (Number.integer_spans.mono hint)
    · exact Nat.le_trans (exactWord_le _ _) hword
    · exact Nat.le_trans (exactWord_le _ _) hword
    · exact Nat.le_trans (wordOf_le _ _) hword
  · obtain ⟨⟨w, k⟩, -, rfl⟩ := List.mem_map.1 hp
    exact .inl (Nat.le_trans (exactWord_le _ _) hword)
  · rw [hp]
    exact .inl hword
  · obtain ⟨k, hk, rfl⟩ := List.mem_map.1 hp
    have hname : ∀ k ∈ [Kind.colon, .semicolon, .comma, .dot, .leftParen, .rightParen, .leftBrace,
        .rightBrace, .leftBracket, .rightBracket], k.isPunctuation = true ∧ k.name.length = 1 := by
      decide
    refine .inr ⟨(hname k hk).1, ?_⟩
    change exact k.name (a ++ c :: x) ≤ 1
    rw [exact, (hname k hk).2]
    split <;> omega
  · rw [hp]
    exact .inl (operator_spans.le_of_stop hop)

/-- No token that is seen has a byte in it that none can begin with. -/
theorem reach_stop {p : Pattern} (hp : p ∈ list) (hsig : p.kind.isSignificant = true) {a : Text}
    (ha : a ≠ []) {c : UInt8} (hc : isTokenByte c = false) (x : Text) :
    p.reach (a ++ c :: x) ≤ a.length := by
  simp only [isTokenByte, Bool.or_eq_false_iff] at hc
  rcases reach_stop_or hp hsig hc.1.1 hc.1.2 a x with h | ⟨-, h⟩
  · exact h
  · exact Nat.le_trans h (List.length_pos_iff.2 ha)

/-- No token that is seen has a space in it. -/
theorem reach_space {p : Pattern} (hp : p ∈ list) (hsig : p.kind.isSignificant = true) {a : Text}
    (ha : a ≠ []) (x : Text) : p.reach (a ++ 32 :: x) ≤ a.length :=
  reach_stop hp hsig ha rfl x

/-- A token that is seen begins no comment, unless with what follows. -/
theorem Tame.comment_eq_zero {p : Pattern} (h : Tame p) {a v : Text} (ha : a ≠ [])
    (hreach : p.reach (a ++ v) = a.length)
    (hv : ∀ c x, v = c :: x → c ≠ Number.byte '/' ∧ c ≠ Number.byte '*') :
    comment (a ++ v) = 0 := by
  obtain ⟨b, a, rfl⟩ := List.exists_cons_of_ne_nil ha
  by_contra hne
  obtain ⟨-, c, x, hx, hc⟩ := slash_of_comment hne
  -- Only one byte is reached, so the second one of the comment is behind it.
  have hone := h.short b (a ++ v) (.inr hne)
  rw [← List.cons_append, hreach, List.length_cons] at hone
  have hnil : a = [] := List.length_eq_zero_iff.1 (by omega)
  subst hnil
  obtain ⟨h₁, h₂⟩ := hv c x hx
  exact hc.elim h₁ h₂

end Pattern

namespace Lexer

/-- A token that is seen ends at a space. -/
theorem first_space {a : Text} {k : Kind} {tags : Tags} (ha : a ≠ [])
    (h : first a = (k, a, tags)) (hk : k ≠ .error) (hsig : k.isSignificant = true) (x : Text) :
    first (a ++ 32 :: x) = (k, a, tags) := by
  rw [← List.append_nil a] at h
  nth_rewrite 2 [List.append_nil] at h
  obtain ⟨p, hp, hlong, rfl, rfl, hreach, hmax⟩ := exists_pattern ha h hk
  have hword : word (a ++ 32 :: x) ≤ a.length := word_spans.le_of_stop rfl
  -- What is without bytes apart and begins `a` begins the longer text too.
  have hfits : Fits (a ++ 32 :: x) (a ++ []) := by
    intro u _ hu
    rw [List.append_nil] at hu
    exact hu.trans (List.prefix_append a _)
  have htame : Tame p := by
    rcases cases_of_mem_list hp with rfl | rfl | rfl | rfl | htame
    iterate 4
      · cases hsig
    · exact htame
  have hreach' : p.reach (a ++ 32 :: x) = a.length :=
    (htame.settled ha hfits hword (reach_space hp hsig ha x)).symm.trans hreach
  obtain ⟨b, y, rfl⟩ := List.exists_cons_of_ne_nil ha
  have hpos : 0 < p.reach (b :: (y ++ [])) := by
    rw [← List.cons_append, hreach]
    exact Nat.succ_pos _
  have hsolid := isSolid_of_isTokenByte (htame.opens _ _ hpos)
  have hsign : b ≠ Number.byte '#' := by
    rintro rfl
    exact absurd (htame.opens _ _ hpos) (by decide)
  have hbreak : isBreakByte b = false := by
    by_contra hb
    simp only [Bool.not_eq_false, isBreakByte, Bool.or_eq_true, decide_eq_true_eq] at hb
    rcases hb with rfl | rfl <;> cases hsolid
  -- No pattern reaches farther or less far than before, so the longest one is the same.
  have hsame : ∀ q ∈ Pattern.list, q.reach (b :: y ++ 32 :: x) = q.reach (b :: y ++ []) := by
    intro q hq
    rcases cases_of_mem_list hq with rfl | rfl | rfl | rfl | hq'
    · exact (directive_of_ne hsign _).trans (directive_of_ne hsign _).symm
    · have hspace := htame.comment_eq_zero ha hreach' (by
        rintro c z hc
        cases hc
        decide)
      exact hspace.trans (htame.comment_eq_zero ha hreach (by simp)).symm
    · have hzero : ∀ w, lineBreaks (b :: w) = 0 := fun w =>
        Nat.le_zero.1 (lineBreaks_spans.le_of_stop (u := []) hbreak)
      exact (hzero _).trans (hzero _).symm
    · have hblank := isBlankByte_of_isSolid hsolid
      exact (blanks_of_not_blank hblank _).trans (blanks_of_not_blank hblank _).symm
    · exact (hq'.settled ha hfits hword (reach_space hq hq'.significant ha x)).symm
  rw [first_of_longest (List.append_ne_nil_of_left_ne_nil ha _)
    ((longest_congr hsame).trans hlong), List.take_left]

/-- A space before a solid byte is a token of its own. -/
theorem first_of_space {c : UInt8} (hc : isSolid c = true) (x : Text) :
    first (32 :: c :: x) = (.blank, [32], Tags.none) := by
  -- The text is compared with a space before a semicolon, where the token can be evaluated.
  have hhalts : Halts [Number.byte ';'] := .inr ⟨_, _, rfl, rfl⟩
  have hcontinues : Continues [Number.byte ';'] (c :: x) := .of_solid rfl hc [] x
  have hblanks : blanks ([32] ++ c :: x) = blanks ([32] ++ [Number.byte ';']) :=
    blanks_congr hhalts hcontinues
  have hsame : ∀ q ∈ Pattern.list, q.reach (32 :: c :: x) = q.reach [32, Number.byte ';'] := by
    intro q hq
    rcases cases_of_mem_list hq with rfl | rfl | rfl | rfl | htame
    · have hzero : ∀ w, directive (32 :: w) = 0 := directive_of_ne (by decide)
      exact (hzero (c :: x)).trans (hzero [Number.byte ';']).symm
    · have hzero : ∀ w, comment (32 :: w) = 0 := comment_of_ne (by decide)
      exact (hzero (c :: x)).trans (hzero [Number.byte ';']).symm
    · rfl
    · exact hblanks
    · have hzero : ∀ w, q.reach (32 :: w) = 0 := by
        intro w
        by_contra hne
        exact absurd (htame.opens _ _ (Nat.pos_of_ne_zero hne)) (by decide)
      exact (hzero _).trans (hzero _).symm
  have hspace : first ([32] ++ [Number.byte ';']) = (.blank, [32], Tags.none) := by decide +kernel
  obtain ⟨p, -, hlong, hkind, htags, -⟩ :=
    exists_pattern (List.cons_ne_nil _ _) hspace (by decide)
  rw [first_of_longest (List.cons_ne_nil _ _) ((longest_congr hsame).trans hlong), hkind]
  exact congrArg (fun tags => (Kind.blank, ([32] : Text), tags)) htags

end Lexer

/-! ## Spelling symbols -/

namespace Symbol

/-- Symbols on one line, with a space between neighbours. -/
def spell (w : List Symbol) : Text :=
  Text.join (Text.ascii " ") (w.map Symbol.lexeme)

theorem Spelled.exists_solid {s : Symbol} (h : s.Spelled) :
    ∃ b x, s.lexeme = b :: x ∧ isSolid b = true := by
  have hfirst : Lexer.first (s.lexeme ++ []) = (s.kind, s.lexeme, s.tags) := by
    rw [List.append_nil]
    exact h.first
  have hsig := h.significant
  refine solid_of_first h.lexeme hfirst h.valid ?_ ?_
  · intro hk
    rw [hk] at hsig
    cases hsig
  · intro hk
    rw [hk] at hsig
    cases hsig

/-- But for punctuation, symbols are spelled with the bytes of words and operators. -/
theorem Spelled.bytes {s : Symbol} (h : s.Spelled) (hk : s.kind.isPunctuation = false) :
    ∀ b ∈ s.lexeme, isNumberByte b = true ∨ isOperatorByte b = true := by
  intro b hb
  by_contra hnot
  simp only [not_or, Bool.not_eq_true] at hnot
  have hfirst : Lexer.first (s.lexeme ++ []) = (s.kind, s.lexeme, s.tags) := by
    rw [List.append_nil]
    exact h.first
  obtain ⟨p, hp, -, hkind, -, hreach, -⟩ := exists_pattern h.lexeme hfirst h.valid
  obtain ⟨u, x, hu⟩ := List.append_of_mem hb
  have hsig : p.kind.isSignificant = true := hkind ▸ h.significant
  rw [List.append_nil] at hreach
  rcases reach_stop_or hp hsig hnot.1 hnot.2 u x with hle | ⟨hpunct, -⟩
  · rw [← hu, hreach, hu, List.length_append, List.length_cons] at hle
    omega
  · rw [hkind, hk] at hpunct
    cases hpunct

theorem Spelled.kind_ne_endOfInput {s : Symbol} (h : s.Spelled) : s.kind ≠ .endOfInput :=
  first_kind_ne (v := []) h.lexeme (by rw [List.append_nil]; exact h.first)

theorem Spelled.ofContents_cons {s : Symbol} (h : s.Spelled)
    (more : List (Kind × Text × Tags)) :
    ofContents false ((s.kind, s.lexeme, s.tags) :: more) = s :: ofContents false more := by
  have hseen : (⟨s.kind, s.lexeme, Position.start, Position.start, s.tags⟩ : Token).isSeen = true :=
    Token.isSeen_iff.2 ⟨h.significant, h.kind_ne_endOfInput⟩
  have hsymbol : ofToken false ⟨s.kind, s.lexeme, Position.start, Position.start, s.tags⟩ = s := by
    rw [ofToken, ← h.joined]
  rw [← hsymbol]
  exact ofContents_seen hseen false more

/-- Symbols that are spelled are read back. -/
theorem symbols_spell {w : List Symbol} (h : ∀ s ∈ w, s.Spelled) :
    (Stream.ofSource (spell w)).symbols = w := by
  rw [symbols_ofSource]
  induction w with
  | nil => rfl
  | cons s w ih =>
    have hs := h s List.mem_cons_self
    have hw := ih fun y hy => h y (List.mem_cons_of_mem s hy)
    cases w with
    | nil =>
      have hone := contents_append (v := []) hs.lexeme (by rw [List.append_nil]; exact hs.first)
      rw [List.append_nil] at hone
      rw [spell, List.map_singleton, Text.join, hone, hs.ofContents_cons]
      rfl
    | cons y w =>
      -- The next symbol begins with a solid byte, so that the space before it is a token.
      obtain ⟨b, x, hb, hsolid⟩ := (h y (by simp)).exists_solid
      obtain ⟨z, hz⟩ : ∃ z, spell (y :: w) = b :: z := by
        cases w with
        | nil => exact ⟨x, hb⟩
        | cons y' w =>
          refine ⟨x ++ (Text.ascii " " ++ spell (y' :: w)), ?_⟩
          rw [← List.cons_append, ← hb, ← List.append_assoc]
          rfl
      have hspell : spell (s :: y :: w) = s.lexeme ++ 32 :: (b :: z) := by
        rw [← hz]
        exact List.append_assoc _ _ _
      have hfirst := first_space hs.lexeme hs.first hs.valid hs.significant (b :: z)
      have hspace : contents (32 :: b :: z) = (.blank, [32], Tags.none) :: contents (b :: z) :=
        contents_append (a := [32]) (List.cons_ne_nil _ _) (first_of_space hsolid z)
      rw [hspell, contents_append hs.lexeme hfirst, hs.ofContents_cons, hspace, ← hz]
      exact congrArg (s :: ·) hw

end Symbol

end ShaderRepair

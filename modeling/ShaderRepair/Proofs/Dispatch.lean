import ShaderRepair.Proofs.Lexing

/-!
# The first byte of a token

Whatever begins with a letter or an underscore is one word, and its tables say what it is. No two
patterns for words of the language reach over the same word, which is why the order of the keywords
does not matter. Any other first byte leaves only few patterns to choose from. This file contains:
- `Lexicon.classify`, what a word is;
- `Pattern.openers`, the bytes that the patterns for anything else can begin with;
- `Pattern.longest_word` and `Pattern.longest_candidates`, the pattern meant at a first byte;
- `Lexer.scan`, lexing by the first byte, and `Lexer.tokens_eq_scan`.

Scanning tries the patterns that can apply and no others, so tokens of a given source are best
evaluated by it.
-/

namespace ShaderRepair

open Reach

/-! ## What the tables say -/

namespace Lexicon

/-- What a word is: the kind of its token and the tags. -/
def classify (w : Text) : Kind × Tags :=
  if w = Text.ascii "true" ∨ w = Text.ascii "false" then
    (.literal, ⟨Roles.none, .bool, .none⟩)
  else
    match qualifiers.find w, keywords.find w with
    | some c, _ => (.qualifier, ⟨Roles.none, .none, c⟩)
    | none, some k => (k, Tags.none)
    | none, none => (.identifier, Tags.none)

/-- No qualifier is anything else. -/
theorem classify_qualifier : ∀ e ∈ qualifiers,
    classify e.1 = (.qualifier, ⟨Roles.none, .none, (qualifiers.find e.1).getD .none⟩) := by
  decide +kernel

/-- No keyword is anything else. -/
theorem classify_keyword : ∀ e ∈ keywords, classify e.1 = (e.2, Tags.none) := by
  decide +kernel

theorem classify_identifier {w : Text} (htrue : w ≠ Text.ascii "true")
    (hfalse : w ≠ Text.ascii "false") (hqualifier : qualifiers.find w = none)
    (hkeyword : keywords.find w = none) : classify w = (.identifier, Tags.none) := by
  simp [classify, htrue, hfalse, hqualifier, hkeyword]

theorem Table.exists_of_find {α : Type} {table : Table α} {w : Text}
    (h : (table.find w).isSome = true) : ∃ e ∈ table, e.1 = w := by
  obtain ⟨a, ha⟩ := Option.isSome_iff_exists.1 h
  obtain ⟨l, l', rfl, -⟩ := List.lookup_eq_some_iff.1 ha
  exact ⟨(w, a), by simp, rfl⟩

end Lexicon

/-! ## Patterns for words -/

namespace Reach

theorem take_word {b : UInt8} (hb : isWordStart b = true) (s : Text) :
    (b :: s).take (word (b :: s)) = (b :: s).takeWhile isWordByte := by
  have hbyte : isWordByte b = true := by simp [isWordByte, hb]
  have hword : word (b :: s) = Number.run isWordByte s + 1 := by simp [word, hb]
  rw [hword, List.take_succ_cons, List.takeWhile_cons_of_pos hbyte, Number.run,
    List.takeWhile_eq_take_findIdx_not]
  simp

theorem exactWord_take {w s : Text} (h : s.take (word s) = w) : exactWord w s = word s := by
  have hlen : word s = w.length := by
    rw [← h, List.length_take, min_eq_left (Pattern.le_of_spans word_spans s)]
  rw [exactWord_eq, if_pos ⟨hlen, h⟩, hlen]

theorem take_of_exactWord {w s : Text} (hpos : 0 < exactWord w s) : s.take (word s) = w := by
  rw [exactWord_eq] at hpos
  split at hpos
  · next h => exact h.2
  · cases hpos

theorem wordOf_take {α : Type} {table : Lexicon.Table α} {s : Text} (hpos : 0 < word s)
    (h : (table.find (s.take (word s))).isSome = true) : wordOf table s = word s := by
  simp [wordOf, hpos, h]

theorem find_of_wordOf {α : Type} {table : Lexicon.Table α} {s : Text}
    (hpos : 0 < wordOf table s) : (table.find (s.take (word s))).isSome = true := by
  simp only [wordOf] at hpos
  split at hpos
  · next h =>
    rw [Bool.and_eq_true] at h
    exact h.2
  · cases hpos

end Reach

namespace Pattern

/-- The patterns for the words of the language. -/
def words (keywords : Lexicon.Table Kind) : List Pattern :=
  [literal .bool (exactWord (Text.ascii "true")), literal .bool (exactWord (Text.ascii "false")),
    qualifier] ++ keywords.map fun (w, k) => plain k (exactWord w)

/-- The patterns that come before those for words. -/
def opening : List Pattern :=
  [plain .directive directive, plain .comment comment, plain .lineBreak lineBreaks,
    plain .blank blanks, literal .double Number.double, literal .float Number.float,
    literal .uint Number.unsigned, literal .int Number.integer]

/-- The patterns that come after those for words. -/
def closing : List Pattern :=
  punctuation ++ [operator]

theorem listWith_eq (keywords : Lexicon.Table Kind) :
    listWith keywords =
      opening ++ words keywords ++ (plain .identifier word :: closing) := by
  simp [listWith, opening, words, closing]

/-! ## Patterns for anything else -/

/-- The patterns that are not for words, each with the bytes it can begin with. -/
def openers : List (Pattern × (UInt8 → Bool)) :=
  [(plain .directive directive, fun b => decide (b = Number.byte '#')),
    (plain .comment comment, fun b => decide (b = Number.byte '/')),
    (plain .lineBreak lineBreaks, isBreakByte), (plain .blank blanks, isBlankByte),
    (literal .double Number.double, Number.isNumberStart),
    (literal .float Number.float, Number.isNumberStart),
    (literal .uint Number.unsigned, Number.isNumberStart),
    (literal .int Number.integer, Number.isNumberStart)] ++
  (punctuation.map fun p => (p, fun b => decide (p.kind.name = [b]))) ++
  [(operator, isOperatorByte)]

theorem map_fst_openers : openers.map Prod.fst = opening ++ closing := rfl

/-- The patterns to choose from at a byte that begins no word. -/
def candidates (b : UInt8) : List Pattern :=
  (openers.filter fun e => e.2 b).map Prod.fst

theorem reach_of_mem_punctuation {p : Pattern} (hp : p ∈ punctuation) :
    p.reach = exact p.kind.name := by
  obtain ⟨k, -, rfl⟩ := List.mem_map.1 hp
  rfl

/-- A piece of punctuation is one byte, which is not one of a word. -/
theorem name_of_mem_punctuation : ∀ p ∈ punctuation,
    ∃ c ∈ p.kind.name, p.kind.name = [c] ∧ isWordStart c = false := by
  decide

section Openers

variable {e : Pattern × (UInt8 → Bool)} {b : UInt8}

/-- A pattern does not apply at other bytes than those it can begin with. -/
theorem reach_of_opener (he : e ∈ openers) (hb : e.2 b = false) (s : Text) :
    e.1.reach (b :: s) = 0 := by
  simp only [openers, List.mem_append, List.mem_cons, List.mem_map, List.not_mem_nil,
    or_false] at he
  rcases he with ((rfl | rfl | rfl | rfl | rfl | rfl | rfl | rfl) | ⟨p, hp, rfl⟩) | rfl
  · exact directive_of_ne (of_decide_eq_false hb) s
  · exact comment_of_ne (of_decide_eq_false hb) s
  · exact Nat.le_zero.1 (lineBreaks_spans.le_of_stop (u := []) hb)
  · exact blanks_of_not_blank hb s
  · exact (Number.eq_zero_of_not_start hb s).2.2.2
  · exact (Number.eq_zero_of_not_start hb s).2.2.1
  · exact (Number.eq_zero_of_not_start hb s).2.1
  · exact (Number.eq_zero_of_not_start hb s).1
  · obtain ⟨c, -, hc, -⟩ := name_of_mem_punctuation p hp
    have hne : c ≠ b := by simpa [hc] using hb
    change p.reach (b :: s) = 0
    simp [reach_of_mem_punctuation hp, exact, hc, hne]
  · by_contra hne
    have hop := first_of_spans operator_spans (Nat.pos_of_ne_zero hne)
    exact Bool.noConfusion (hop.symm.trans hb)

/-- No number literal begins like a word. -/
theorem isNumberStart_of_isWordStart (hb : isWordStart b = true) :
    Number.isNumberStart b = false := by
  have h0 : (Number.byte '0').toNat = 48 := rfl
  have h9 : (Number.byte '9').toNat = 57 := rfl
  have ha : (Number.byte 'a').toNat = 97 := rfl
  have hz : (Number.byte 'z').toNat = 122 := rfl
  have hA : (Number.byte 'A').toNat = 65 := rfl
  have hZ : (Number.byte 'Z').toNat = 90 := rfl
  by_contra hstart
  rw [Bool.not_eq_false] at hstart
  simp only [Number.isNumberStart, Number.isDigit, Bool.or_eq_true, Bool.and_eq_true,
    decide_eq_true_eq] at hstart
  rcases hstart with hdigit | rfl
  · simp only [isWordStart, Bool.or_eq_true, Bool.and_eq_true, decide_eq_true_eq] at hb
    rcases hb with (rfl | hb) | hb
    · exact absurd hdigit (by decide)
    · simp only [UInt8.le_iff_toNat_le] at hdigit hb
      omega
    · simp only [UInt8.le_iff_toNat_le] at hdigit hb
      omega
  · cases hb

/-- None of these patterns can begin like a word. -/
theorem opener_of_isWordStart (he : e ∈ openers) (hb : isWordStart b = true) : e.2 b = false := by
  have hbyte : isWordByte b = true := by simp [isWordByte, hb]
  have hsolid : isSolid b = true := isSolid_of_isNumberByte (isNumberByte_of_isWordByte hbyte)
  simp only [openers, List.mem_append, List.mem_cons, List.mem_map, List.not_mem_nil,
    or_false] at he
  rcases he with ((rfl | rfl | rfl | rfl | rfl | rfl | rfl | rfl) | ⟨p, hp, rfl⟩) | rfl
  · refine decide_eq_false ?_
    rintro rfl
    cases hb
  · refine decide_eq_false ?_
    rintro rfl
    cases hb
  · by_contra hbreak
    simp only [isBreakByte, Bool.not_eq_false, Bool.or_eq_true, decide_eq_true_eq] at hbreak
    rcases hbreak with rfl | rfl <;> cases hb
  · exact isBlankByte_of_isSolid hsolid
  · exact isNumberStart_of_isWordStart hb
  · exact isNumberStart_of_isWordStart hb
  · exact isNumberStart_of_isWordStart hb
  · exact isNumberStart_of_isWordStart hb
  · obtain ⟨c, -, hc, hword⟩ := name_of_mem_punctuation p hp
    refine decide_eq_false fun hname => ?_
    obtain rfl : c = b := by simpa [hc] using hname
    rw [hword] at hb
    cases hb
  · by_contra hop
    rw [Bool.not_eq_false] at hop
    rw [(isOperatorByte_plain hop).2] at hb
    cases hb

end Openers

/-! ## The pattern that is meant -/

section Longest

variable {keywords : Lexicon.Table Kind} {p : Pattern} {b : UInt8} {s : Text}

/-- A pattern for anything else does not apply to a word. -/
theorem reach_of_isWordStart (hb : isWordStart b = true) (hp : p ∈ opening ++ closing) :
    p.reach (b :: s) = 0 := by
  rw [← map_fst_openers] at hp
  obtain ⟨e, he, rfl⟩ := List.mem_map.1 hp
  exact reach_of_opener he (opener_of_isWordStart he hb) s

theorem reach_le_word (hp : p ∈ words keywords) (s : Text) : p.reach s ≤ word s := by
  rcases List.mem_append.1 hp with hp | hp
  · simp only [List.mem_cons, List.not_mem_nil, or_false] at hp
    rcases hp with rfl | rfl | rfl
    · exact exactWord_le _ s
    · exact exactWord_le _ s
    · exact wordOf_le _ s
  · obtain ⟨⟨w, k⟩, -, rfl⟩ := List.mem_map.1 hp
    exact exactWord_le w s

/-- A pattern for words of the language applies to what it is meant for. -/
theorem classify_of_reach (h : keywords.Perm Lexicon.keywords) (hp : p ∈ words keywords)
    (hpos : 0 < p.reach s) :
    Lexicon.classify (s.take (word s)) = (p.kind, p.tags (s.take (word s))) := by
  rcases List.mem_append.1 hp with hp | hp
  · simp only [List.mem_cons, List.not_mem_nil, or_false] at hp
    rcases hp with rfl | rfl | rfl
    · rw [take_of_exactWord hpos]
      rfl
    · rw [take_of_exactWord hpos]
      rfl
    · obtain ⟨e, he, hw⟩ := Lexicon.Table.exists_of_find (find_of_wordOf hpos)
      rw [← hw, Lexicon.classify_qualifier e he]
      rfl
  · obtain ⟨⟨w, k⟩, hmem, rfl⟩ := List.mem_map.1 hp
    rw [take_of_exactWord hpos]
    exact Lexicon.classify_keyword (w, k) (h.mem_iff.1 hmem)

/-- A word that no such pattern applies to is an identifier. -/
theorem classify_of_lt (h : keywords.Perm Lexicon.keywords) (hpos : 0 < word s)
    (hlt : ∀ q ∈ words keywords, q.reach s < word s) :
    Lexicon.classify (s.take (word s)) = (.identifier, Tags.none) := by
  have hexact : ∀ w, ∀ q ∈ words keywords, q.reach = exactWord w → s.take (word s) ≠ w := by
    intro w q hq hreach hw
    have hfar := hlt q hq
    rw [hreach, exactWord_take hw] at hfar
    exact absurd hfar (Nat.lt_irrefl _)
  refine Lexicon.classify_identifier (hexact _ _ List.mem_cons_self rfl)
    (hexact _ _ (List.mem_cons_of_mem _ List.mem_cons_self) rfl) ?_ ?_
  · by_contra hne
    have hfound := Option.isSome_iff_ne_none.2 hne
    exact absurd (wordOf_take hpos hfound) (Nat.ne_of_lt (hlt qualifier (by simp [words])))
  · by_contra hne
    obtain ⟨⟨w, k⟩, hmem, hw⟩ := Lexicon.Table.exists_of_find (Option.isSome_iff_ne_none.2 hne)
    have hrule : plain k (exactWord w) ∈ words keywords :=
      List.mem_append_right _ (List.mem_map.2 ⟨(w, k), h.mem_iff.2 hmem, rfl⟩)
    exact hexact w _ hrule rfl hw.symm

theorem words_kind (h : keywords.Perm Lexicon.keywords) (hp : p ∈ opening ++ words keywords) :
    p.kind ≠ .identifier := by
  rw [words, ← List.append_assoc] at hp
  rcases List.mem_append.1 hp with hp | hp
  · have hkind : ∀ k ∈ (opening ++ words []).map Pattern.kind, k ≠ .identifier := by decide
    exact hkind _ (List.mem_map_of_mem (by simpa [words] using hp))
  · obtain ⟨⟨w, k⟩, hmem, rfl⟩ := List.mem_map.1 hp
    have hkind : ∀ e ∈ Lexicon.keywords, e.2 ≠ .identifier := by decide
    exact hkind (w, k) (h.mem_iff.1 hmem)

/-- The pattern that is meant at a word reaches over all of it, and says of it what the tables say,
whatever the order of the keywords. -/
theorem longest_word (h : keywords.Perm Lexicon.keywords) (hb : isWordStart b = true) :
    ∃ p, longest (b :: s) (listWith keywords) = some (p, word (b :: s)) ∧
      Lexicon.classify ((b :: s).take (word (b :: s))) =
        (p.kind, p.tags ((b :: s).take (word (b :: s)))) := by
  have hword : 0 < word (b :: s) := by simp [word, hb]
  have hmem : plain .identifier word ∈ listWith keywords := by simp [listWith]
  cases hlong : longest (b :: s) (listWith keywords) with
  | none =>
    have hzero : word (b :: s) = 0 := longest_eq_none hlong _ hmem
    omega
  | some found =>
    obtain ⟨p, n⟩ := found
    obtain ⟨hp, hreach, hpos, hmax⟩ := longest_eq_some hlong
    have hle : word (b :: s) ≤ n := hmax _ hmem
    rw [listWith_eq] at hp hlong
    simp only [List.mem_append, List.mem_cons] at hp
    rcases hp with (hp | hp) | rfl | hp
    · rw [reach_of_isWordStart hb (List.mem_append_left _ hp)] at hreach
      omega
    · have hn : n = word (b :: s) := by
        have := reach_le_word hp (b :: s)
        omega
      exact ⟨p, by rw [hn], classify_of_reach h hp (by omega)⟩
    · -- The pattern for identifiers is meant where no earlier one reaches as far.
      have hn : word (b :: s) = n := hreach
      refine ⟨_, by rw [hn], classify_of_lt h hword fun q hq => ?_⟩
      by_contra hge
      have hearly := mem_of_longest hlong (List.mem_append_right opening hq) (by omega)
      exact words_kind h hearly rfl
    · rw [reach_of_isWordStart hb (List.mem_append_right _ hp)] at hreach
      omega

/-- Where no word begins, only the candidates can apply. -/
theorem mem_candidates (hp : p ∈ listWith keywords) (hb : isWordStart b = false)
    (hpos : 0 < p.reach (b :: s)) : p ∈ candidates b := by
  have hword : word (b :: s) = 0 := by simp [word, hb]
  have hother : p ∈ opening ++ closing := by
    rw [listWith_eq] at hp
    simp only [List.mem_append, List.mem_cons] at hp ⊢
    rcases hp with (hp | hp) | rfl | hp
    · exact .inl hp
    · have hle := reach_le_word hp (b :: s)
      omega
    · have hidentifier : 0 < word (b :: s) := hpos
      omega
    · exact .inr hp
  rw [← map_fst_openers] at hother
  obtain ⟨e, he, rfl⟩ := List.mem_map.1 hother
  refine List.mem_map_of_mem (List.mem_filter.2 ⟨he, ?_⟩)
  by_contra hopens
  rw [reach_of_opener he (by simpa using hopens)] at hpos
  cases hpos

/-- Where there is no word, only the patterns that can begin there matter, and no keywords do. -/
theorem longest_candidates (keywords : Lexicon.Table Kind) (hb : isWordStart b = false)
    (s : Text) : longest (b :: s) (listWith keywords) = longest (b :: s) (candidates b) := by
  have hword : word (b :: s) = 0 := by simp [word, hb]
  have hwords : (words keywords).filter (fun p => 0 < p.reach (b :: s)) = [] := by
    refine List.filter_eq_nil_iff.2 fun p hp => ?_
    have hzero : p.reach (b :: s) = 0 := Nat.le_zero.1 (hword ▸ reach_le_word hp (b :: s))
    simp [hzero]
  have hopens : ∀ e ∈ openers, (decide (0 < e.1.reach (b :: s)) && e.2 b) =
      decide (0 < e.1.reach (b :: s)) := by
    intro e he
    cases hopens : e.2 b with
    | true => exact Bool.and_true _
    | false => simp [reach_of_opener he hopens s]
  have hothers : (opening ++ closing).filter (fun p => 0 < p.reach (b :: s)) =
      (candidates b).filter fun p => 0 < p.reach (b :: s) := by
    rw [← map_fst_openers, candidates, List.filter_map, List.filter_map, List.filter_filter]
    exact congrArg (List.map Prod.fst) (List.filter_congr fun e he => (hopens e he).symm)
  rw [← longest_filter, ← longest_filter (b :: s) (candidates b), ← hothers, listWith_eq]
  have hidentifier : ¬0 < (plain .identifier word).reach (b :: s) := by
    change ¬0 < word (b :: s)
    omega
  simp only [List.filter_append, hwords, List.append_nil, List.filter_cons, hidentifier,
    decide_false, Bool.false_eq_true, if_false]

end Longest

end Pattern

/-! ## Scanning -/

namespace Lexer

/-- The token at a word that stands at `p`. -/
def wordAt (p : Position) (w : Text) : Token :=
  ⟨(Lexicon.classify w).1, w, p, p.advance w, (Lexicon.classify w).2⟩

/-- The token at the front of `b :: s`, found by its first byte. -/
def frontAt (p : Position) (b : UInt8) (s : Text) : Token :=
  if isWordStart b then wordAt p ((b :: s).takeWhile isWordByte)
  else front (Pattern.candidates b) p b s

/-- The tokens of a text that starts at `p`, found by their first bytes, after skipping the
`pending` bytes that the last token still covers. -/
def scanAfter : Nat → Position → Text → List Token
  | _, p, [] => [Token.endAt p]
  | pending + 1, p, _ :: s => scanAfter pending p s
  | 0, p, b :: s =>
    let t := frontAt p b s
    t :: scanAfter (t.lexeme.length - 1) t.stop s

/-- All tokens of a source, found by their first bytes. -/
def scan (source : Text) : List Token :=
  scanAfter 0 Position.start source

section KeywordOrder

variable {keywords : Lexicon.Table Kind} (h : keywords.Perm Lexicon.keywords)
include h

theorem front_word (p : Position) {b : UInt8} (hb : isWordStart b = true) (s : Text) :
    front (Pattern.listWith keywords) p b s = wordAt p ((b :: s).takeWhile isWordByte) := by
  obtain ⟨q, hlong, hclassify⟩ := Pattern.longest_word (s := s) h hb
  rw [take_word hb] at hclassify
  rw [front, hlong, wordAt, hclassify]
  simp only [take_word hb]

theorem front_eq_frontAt (p : Position) (b : UInt8) (s : Text) :
    front (Pattern.listWith keywords) p b s = frontAt p b s := by
  cases hb : isWordStart b with
  | true => rw [front_word h p hb, frontAt, if_pos hb]
  | false =>
    rw [frontAt, hb, if_neg Bool.false_ne_true, front, front,
      Pattern.longest_candidates keywords hb]

theorem tokensAfter_eq_scanAfter (pending : Nat) (p : Position) (s : Text) :
    tokensAfter (Pattern.listWith keywords) pending p s = scanAfter pending p s := by
  induction s generalizing pending p with
  | nil => cases pending <;> rfl
  | cons b s ih =>
    cases pending with
    | zero =>
      simp only [tokensAfter, scanAfter, front_eq_frontAt h]
      rw [ih]
    | succ pending => exact ih pending p

/-- Scanning finds the tokens, whatever the order of the keywords. -/
theorem tokensWith_eq_scan (source : Text) :
    tokensWith (Pattern.listWith keywords) source = scan source :=
  tokensAfter_eq_scanAfter h 0 Position.start source

end KeywordOrder

theorem tokens_eq_scan (source : Text) : tokens source = scan source :=
  tokensWith_eq_scan (.refl _) source

/-- The content of the front token, found by its first byte. -/
def firstAt : Text → Kind × Text × Tags
  | [] => (Token.endAt Position.start).content
  | b :: s => (frontAt Position.start b s).content

theorem first_eq_firstAt (s : Text) : first s = firstAt s := by
  cases s with
  | nil => rfl
  | cons b s => exact congrArg Token.content (front_eq_frontAt (.refl _) Position.start b s)

theorem first_word {b : UInt8} (hb : isWordStart b = true) (s : Text) :
    first (b :: s) = (wordAt Position.start ((b :: s).takeWhile isWordByte)).content := by
  rw [first_eq_firstAt, firstAt, frontAt, if_pos hb]

theorem lex_eq_scan (source : Text) (keepIgnored : Bool) :
    lex source keepIgnored =
      if keepIgnored then scan source else (scan source).filter fun t => !t.isIgnored := by
  rw [lex, tokens_eq_scan]

end Lexer

end ShaderRepair

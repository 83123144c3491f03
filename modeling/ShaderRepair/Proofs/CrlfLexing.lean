import ShaderRepair.Proofs.Crlf
import ShaderRepair.Proofs.Sequel
import ShaderRepair.Proofs.Spelling

/-!
# Lexing with line breaks of two bytes

A text with a carriage return in front of every line feed has the tokens it had, each with carriage
returns in front of its line feeds. This file contains:
- `Reach.lineBreaks_of_crlf` and so on, how far each pattern reaches;
- `Lexer.first_of_crlf`, the first token;
- `Token.crlf` and `Lexer.tokens_crlf`.
-/

namespace ShaderRepair

open Reach Text

/-! ## Patterns -/

namespace Reach

variable {s : Text} (hs : carriageReturn ∉ s)

include hs in
theorem lineBreaks_of_crlf : lineBreaks (crlf s) = crlfOffset s (lineBreaks s) := by
  induction s with
  | nil => rfl
  | cons b s ih =>
    rw [List.mem_cons, not_or] at hs
    by_cases hb : b = lineFeed
    · subst hb
      have hcount : lineBreaks (lineFeed :: s) = lineBreaks s + 1 := by simp [lineBreaks]
      have hcount' : lineBreaks (carriageReturn :: lineFeed :: crlf s) =
          lineBreaks (crlf s) + 2 := by
        simp [lineBreaks]
      rw [crlf_feed, hcount, hcount', ih hs.2, crlfOffset_cons]
      exact Nat.add_comm _ 2
    · have hbreak : isBreakByte b = false := by
        rw [isBreakByte, Bool.or_eq_false_iff, decide_eq_false_iff_not, decide_eq_false_iff_not]
        exact ⟨hb, Ne.symm hs.1⟩
      have hzero : ∀ x, lineBreaks (b :: x) = 0 := fun x =>
        Nat.le_zero.1 (lineBreaks_spans.le_of_stop (u := []) hbreak)
      rw [crlf_cons hb, hzero, hzero]
      rfl

include hs in
/-- Without carriage returns all blanks are taken. -/
theorem blanks_eq_blankRun : blanks s = blankRun s := by
  have hnot : ¬[carriageReturn, lineFeed].isPrefixOf (s.drop (blankRun s - 1)) = true := by
    rw [List.isPrefixOf_iff_prefix]
    rintro ⟨x, hx⟩
    have hmem : carriageReturn ∈ s.drop (blankRun s - 1) := by
      rw [← hx]
      exact List.mem_cons_self
    exact hs (List.mem_of_mem_drop hmem)
  rw [blanks]
  simp [hnot]

include hs in
theorem blanks_of_crlf : blanks (crlf s) = crlfOffset s (blanks s) := by
  have hblanks := blanks_eq_blankRun hs
  rcases exists_line s with h | ⟨line, x, rfl, h⟩
  · have hsame := crlfOffset_of_le h [] (blanks_le s)
    rw [List.append_nil] at hsame
    rw [crlf_of_notMem h, hsame]
  · have hfeed : NoTail (lineFeed :: x) := by
      rintro c y hc
      obtain ⟨rfl, -⟩ := List.cons.inj hc
      decide
    have hreturn : NoTail (carriageReturn :: lineFeed :: crlf x) := by
      rintro c y hc
      obtain ⟨rfl, -⟩ := List.cons.inj hc
      decide
    have hle : blankRun line ≤ line.length := blankAfter_le 0 line
    have hrun : blankRun (line ++ lineFeed :: x) = blankRun line := by
      rw [blankRun, blankAfter_append hfeed 0 line (Nat.zero_le _), blankRun_feed]
      split
      · next hfull => exact hfull.symm
      · rfl
    have hrun' : blankRun (line ++ carriageReturn :: lineFeed :: crlf x) =
        if blankRun line = line.length then line.length + 1 else blankRun line := by
      rw [blankRun, blankAfter_append hreturn 0 line (Nat.zero_le _), blankRun_crlf]
      rfl
    rw [hblanks, hrun, crlfOffset_of_le h _ hle, crlf_line h, List.append_assoc,
      List.singleton_append, blanks, hrun']
    by_cases hfull : blankRun line = line.length
    · -- The blanks go on up to the line break, and it is left out.
      simp [hfull]
    · have hlt := Nat.lt_of_le_of_ne hle hfull
      have hnot : ¬[carriageReturn, lineFeed].isPrefixOf
          ((line ++ carriageReturn :: lineFeed :: crlf x).drop (blankRun line - 1)) = true := by
        rw [List.drop_append_of_le_length (by omega), List.isPrefixOf_iff_prefix]
        rintro ⟨y, hy⟩
        cases hdrop : line.drop (blankRun line - 1) with
        | nil =>
          rw [List.drop_eq_nil_iff] at hdrop
          omega
        | cons c z =>
          rw [hdrop] at hy
          obtain ⟨rfl, -⟩ := List.cons.inj hy
          have hmem : carriageReturn ∈ line := List.mem_of_mem_drop (hdrop ▸ List.mem_cons_self)
          exact hs (List.mem_append_left _ hmem)
      simp [hfull, hnot]

include hs in
theorem lineComment_of_crlf : lineComment (crlf s) = crlfOffset s (lineComment s) := by
  rcases exists_line s with h | ⟨line, x, rfl, h⟩
  · rw [crlf_of_notMem h, lineComment_of_last h, crlfOffset_length, crlf_of_notMem h]
  · rw [List.mem_append, not_or] at hs
    have hfront : lineFeed ∉ line ++ [carriageReturn] := by
      rw [List.mem_append, List.mem_singleton, not_or]
      exact ⟨h, by decide⟩
    rw [crlf_line h, lineComment_of_line _ hfront, lineComment_of_line _ h, chomp,
      dropFinal_append, chomp_of_notMem hs.1, crlfOffset_of_le h _ (Nat.le_refl _)]

theorem blockComment_of_crlf {t : Text} (hopen : s = ascii "/*" ++ t) :
    blockComment (crlf s) = crlfOffset s (blockComment s) := by
  have hcrlf : crlf s = ascii "/*" ++ crlf t := by
    rw [hopen, crlf_append]
    rfl
  have hdrop : s.drop 2 = t := by
    rw [hopen]
    rfl
  have hdrop' : (crlf s).drop 2 = crlf t := by
    rw [hcrlf]
    rfl
  have hfind := find?_crlf (w := ascii "*/") (by decide +kernel) (by decide +kernel) t
  cases hn : find? (ascii "*/") t with
  | none =>
    rw [hn] at hfind
    rw [blockComment, blockComment, hdrop, hdrop', hn, hfind]
    exact (crlfOffset_length s).symm
  | some n =>
    rw [hn] at hfind
    rw [blockComment, blockComment, hdrop, hdrop', hn, hfind]
    simp only [Option.map_some]
    -- What closes the comment has no line break.
    obtain ⟨y, hy⟩ := prefix_of_find? hn
    have hle : n ≤ t.length := by
      have hlen := congrArg List.length hy
      rw [List.length_append, List.length_drop, show (ascii "*/").length = 2 from rfl] at hlen
      omega
    have hsplit : t = t.take n ++ (ascii "*/" ++ y) := by
      rw [hy, List.take_append_drop]
    have hclose : crlfOffset t (n + 2) = crlfOffset t n + 2 := by
      have happ := crlfOffset_append (t.take n) (ascii "*/" ++ y) 2
      rw [← hsplit, List.length_take_of_le hle] at happ
      exact happ
    have happ := crlfOffset_append (ascii "/*") t (n + 2)
    rw [← hopen, hclose] at happ
    rw [show n + 4 = (ascii "/*").length + (n + 2) from by
      rw [show (ascii "/*").length = 2 from rfl]; omega, happ,
      show (crlf (ascii "/*")).length = 2 from rfl]
    omega

include hs in
theorem comment_of_crlf : comment (crlf s) = crlfOffset s (comment s) := by
  have hline := isPrefixOf_crlf (w := ascii "//") (by decide +kernel) s
  have hblock := isPrefixOf_crlf (w := ascii "/*") (by decide +kernel) s
  rw [comment, comment, hline, hblock]
  split
  · exact lineComment_of_crlf hs
  split
  · next hopen =>
    obtain ⟨t, ht⟩ := List.isPrefixOf_iff_prefix.1 hopen
    exact blockComment_of_crlf ht.symm
  · rfl

include hs in
theorem directiveLines_of_crlf :
    directiveLines (lines (crlf s)) = crlfOffset s (directiveLines (lines s)) := by
  induction s using line_induction with
  | last line h =>
    rw [crlf_of_notMem h, directiveLines_of_last h, crlfOffset_length, crlf_of_notMem h]
  | line line x h ih =>
    rw [List.mem_append, List.mem_cons, not_or, not_or] at hs
    have hfront : lineFeed ∉ line ++ [carriageReturn] := by
      rw [List.mem_append, List.mem_singleton, not_or]
      exact ⟨h, by decide⟩
    rw [crlf_line h, directiveLines_of_line _ hfront, directiveLines_of_line _ h, chomp,
      dropFinal_append, chomp_of_notMem hs.1, ih hs.2.2]
    split
    · have happ := crlfOffset_append (line ++ [lineFeed]) x (directiveLines (lines x))
      rw [List.append_assoc, List.singleton_append, crlf_append, crlf_of_notMem h,
        List.length_append, List.length_append, List.length_singleton] at happ
      rw [happ, List.length_append, List.length_singleton]
      rfl
    · exact (crlfOffset_of_le h _ (Nat.le_refl _)).symm

include hs in
theorem directive_of_crlf : directive (crlf s) = crlfOffset s (directive s) := by
  rw [directive, directive, isPrefixOf_crlf (w := ascii "#") (by decide +kernel) s]
  split
  · exact directiveLines_of_crlf hs
  · rfl

end Reach

namespace Pattern

variable {p : Pattern} (hp : p ∈ list) {s : Text}
include hp

/-- No token that is seen goes beyond its line. -/
theorem notMem_of_significant (hsig : p.kind.isSignificant = true) :
    lineFeed ∉ s.take (p.reach s) := by
  rcases exists_line s with h | ⟨line, x, rfl, h⟩
  · exact fun hmem => h (List.mem_of_mem_take hmem)
  · by_cases hline : line = []
    · subst hline
      have hzero : p.reach (lineFeed :: x) = 0 := by
        by_contra hne
        have hpos : 0 < p.reach (lineFeed :: x) := Nat.pos_of_ne_zero hne
        obtain rfl := Lexer.eq_lineBreak_of_reach hp rfl (blanks_feed x) hpos
        cases hsig
      rw [List.nil_append, hzero]
      exact List.not_mem_nil
    · rw [List.take_append_of_le_length (reach_stop hp hsig hline rfl x)]
      exact fun hmem => h (List.mem_of_mem_take hmem)

/-- What comes behind the line does not matter to such a token. -/
theorem reach_line (hsig : p.kind.isSignificant = true) {line : Text} (hline : line ≠ [])
    {c : UInt8} (hc : isTokenByte c = false) (x : Text) :
    p.reach (line ++ c :: x) = p.reach line := by
  have htame : Tame p := by
    rcases cases_of_mem_list hp with rfl | rfl | rfl | rfl | htame
    · cases hsig
    · cases hsig
    · cases hsig
    · cases hsig
    · exact htame
  have hfits : Fits (line ++ c :: x) (line ++ []) := by
    intro u _ hu
    rw [List.append_nil] at hu
    exact hu.trans (List.prefix_append line (c :: x))
  have hsame := htame.settled hline hfits (reach_stop word_mem_list rfl hline hc x)
    (reach_stop hp hsig hline hc x)
  rw [List.append_nil] at hsame
  exact hsame.symm

theorem reach_of_crlf (hs : carriageReturn ∉ s) :
    p.reach (crlf s) = crlfOffset s (p.reach s) := by
  rcases cases_of_mem_list hp with rfl | rfl | rfl | rfl | htame
  · exact directive_of_crlf hs
  · exact comment_of_crlf hs
  · exact lineBreaks_of_crlf hs
  · exact blanks_of_crlf hs
  · rw [crlfOffset_of_notMem (htame.le s) (notMem_of_significant hp htame.significant)]
    rcases exists_line s with h | ⟨line, x, rfl, h⟩
    · rw [crlf_of_notMem h]
    · by_cases hline : line = []
      · subst hline
        have hzero : ∀ {c y}, isTokenByte c = false → p.reach (c :: y) = 0 := by
          intro c y hc
          by_contra hne
          have htoken := htame.opens c y (Nat.pos_of_ne_zero hne)
          rw [hc] at htoken
          cases htoken
        rw [List.nil_append, crlf_feed, hzero rfl, hzero rfl]
      · rw [crlf_line h, List.append_assoc, List.singleton_append,
          reach_line hp htame.significant hline rfl, reach_line hp htame.significant hline rfl]

/-- The tags of a word are found in tables where no line breaks are. -/
theorem tags_of_crlf : p.tags (crlf (s.take (p.reach s))) = p.tags (s.take (p.reach s)) := by
  rcases cases_of_mem_list hp with rfl | rfl | rfl | rfl | htame
  · rfl
  · rfl
  · rfl
  · rfl
  · rw [crlf_of_notMem (notMem_of_significant hp htame.significant)]

omit hp in
/-- The pattern that reaches farthest is the same where all reaches change in one order-preserving
way. -/
theorem longest_map {patterns : List Pattern} {s s' : Text} {f : Nat → Nat} (hzero : f 0 = 0)
    (hf : ∀ m n, m ≤ s.length → n ≤ s.length → (f m ≤ f n ↔ m ≤ n))
    (h : ∀ q ∈ patterns, q.reach s ≤ s.length ∧ q.reach s' = f (q.reach s)) :
    longest s' patterns = (longest s patterns).map fun x => (x.1, f x.2) := by
  induction patterns with
  | nil => rfl
  | cons q more ih =>
    obtain ⟨hle, hreach⟩ := h q List.mem_cons_self
    have hmore := ih fun r hr => h r (List.mem_cons_of_mem q hr)
    simp only [longest, hmore, hreach]
    cases hl : longest s more with
    | none =>
      have hpos : 0 < f (q.reach s) ↔ 0 < q.reach s := by
        have hiff := hf (q.reach s) 0 hle (Nat.zero_le _)
        rw [hzero] at hiff
        omega
      simp only [Option.map_none, hpos]
      split <;> rfl
    | some x =>
      have hx : x.2 ≤ s.length := by
        obtain ⟨hmem, hn, -, -⟩ := longest_eq_some hl
        rw [← hn]
        exact (h _ (List.mem_cons_of_mem q hmem)).1
      simp only [Option.map_some, hf _ _ hx hle]
      split <;> rfl

end Pattern

namespace Lexer

theorem first_eq_of_none {b : UInt8} {s : Text}
    (h : Pattern.longest (b :: s) Pattern.list = none) :
    first (b :: s) = (.error, (b :: s).take (Rune.first b s).width, Tags.none) := by
  rw [first, front, h]
  rfl

/-- A rune that no token begins with is no line feed. -/
theorem ne_lineFeed_of_none {b : UInt8} {s : Text}
    (h : Pattern.longest (b :: s) Pattern.list = none) : b ≠ lineFeed := by
  rintro rfl
  have hzero : lineBreaks (lineFeed :: s) = 0 :=
    Pattern.longest_eq_none h _ Pattern.lineBreaks_mem_list
  simp [lineBreaks] at hzero

theorem notMem_of_none {b : UInt8} {s : Text}
    (h : Pattern.longest (b :: s) Pattern.list = none) :
    lineFeed ∉ (b :: s).take (Rune.first b s).width := by
  obtain ⟨k, hk⟩ : ∃ k, (Rune.first b s).width = k + 1 :=
    ⟨(Rune.first b s).width - 1, by have := width_pos (Rune.first b s); omega⟩
  have htails := Rune.tails b s
  rw [hk, Nat.add_sub_cancel] at htails
  rw [hk, List.take_succ_cons, List.mem_cons, not_or]
  refine ⟨(ne_lineFeed_of_none h).symm, fun hmem => ?_⟩
  exact absurd (htails lineFeed hmem) (by decide)

section Crlf

variable {s : Text} (hs : carriageReturn ∉ s)
include hs

theorem longest_of_crlf : Pattern.longest (crlf s) Pattern.list =
    (Pattern.longest s Pattern.list).map fun x => (x.1, crlfOffset s x.2) :=
  Pattern.longest_map rfl (fun _ _ hm hn => crlfOffset_le_iff hm hn) fun _ hq =>
    ⟨reach_le hq s, Pattern.reach_of_crlf hq hs⟩

/-- The first token has carriage returns in front of its line feeds. -/
theorem first_of_crlf (hne : s ≠ []) :
    first (crlf s) = ((first s).1, crlf (first s).2.1, (first s).2.2) := by
  have hlong := longest_of_crlf hs
  cases hl : Pattern.longest s Pattern.list with
  | none =>
    obtain ⟨b, s, rfl⟩ := List.exists_cons_of_ne_nil hne
    rw [hl, crlf_cons (ne_lineFeed_of_none hl)] at hlong
    have hwidth : (Rune.first b s).width ≤ (b :: s).length := by
      have hle := first_width_le b s
      rw [List.length_cons]
      omega
    have hlexeme := take_crlf (b :: s) (Rune.first b s).width
    rw [crlfOffset_of_notMem hwidth (notMem_of_none hl)] at hlexeme
    rw [first_eq_of_none hl]
    simp only
    rw [← hlexeme, crlf_cons (ne_lineFeed_of_none hl), first_eq_of_none hlong, Rune.first_crlf]
  | some found =>
    obtain ⟨p, n⟩ := found
    obtain ⟨hp, rfl, -, -⟩ := Pattern.longest_eq_some hl
    rw [hl] at hlong
    rw [first_of_longest hne hl, first_of_longest (mt crlf_eq_nil.1 hne) hlong]
    simp only
    rw [take_crlf, Pattern.tags_of_crlf hp]

end Crlf

end Lexer

/-! ## Tokens -/

/-- What becomes of a token in the text `s`. -/
def Token.crlf (s : Text) (t : Token) : Token :=
  { t with lexeme := Text.crlf t.lexeme, start := t.start.crlf s, stop := t.stop.crlf s }

@[simp] theorem Token.crlf_kind (s : Text) (t : Token) : (t.crlf s).kind = t.kind := rfl

namespace Lexer

/-- The tokens of a text behind `w`, by induction on them. -/
theorem tokensAfter_crlf {s : Text} (w : Text) (hs : carriageReturn ∉ s) {p : Position}
    (hp : p.offset = w.length) :
    tokensAfter Pattern.list 0 (p.crlf (w ++ s)) (Text.crlf s) =
      (tokensAfter Pattern.list 0 p s).map (Token.crlf (w ++ s)) := by
  induction p, s using token_induction generalizing w with
  | nil p => rfl
  | token p k a tags v ha h ih =>
    have hfirst := first_of_crlf hs (List.append_ne_nil_of_left_ne_nil ha v)
    rw [h, crlf_append] at hfirst
    rw [List.mem_append, not_or] at hs
    have hnext : (p.advance a).offset = (w ++ a).length := by
      have hadvance : (p.advance a).offset = p.offset + a.length := rfl
      rw [hadvance, hp, List.length_append, Int.natCast_add]
    have hmore := ih (w ++ a) hs.2 hnext
    rw [List.append_assoc] at hmore
    rw [crlf_append, tokensAfter_append (mt crlf_eq_nil.1 ha) hfirst, Position.advance_crlf hp,
      hmore, tokensAfter_append ha h]
    rfl

/-- The tokens of a text with carriage returns are those of the text. -/
theorem tokens_crlf {s : Text} (hs : carriageReturn ∉ s) :
    tokens (Text.crlf s) = (tokens s).map (Token.crlf s) :=
  tokensAfter_crlf [] hs (p := Position.start) rfl

theorem notMem_of_first {s a : Text} {k : Kind} {tags : Tags} (hne : s ≠ [])
    (h : first s = (k, a, tags)) (hsig : k.isSignificant = true) : lineFeed ∉ a := by
  cases hl : Pattern.longest s Pattern.list with
  | none =>
    obtain ⟨b, s, rfl⟩ := List.exists_cons_of_ne_nil hne
    rw [first_eq_of_none hl] at h
    have hlexeme : (b :: s).take (Rune.first b s).width = a := congrArg (·.2.1) h
    rw [← hlexeme]
    exact notMem_of_none hl
  | some found =>
    obtain ⟨p, n⟩ := found
    obtain ⟨hp, rfl, -, -⟩ := Pattern.longest_eq_some hl
    rw [first_of_longest hne hl] at h
    have hkind : p.kind = k := congrArg Prod.fst h
    have hlexeme : s.take (p.reach s) = a := congrArg (·.2.1) h
    rw [← hlexeme]
    exact Pattern.notMem_of_significant hp (by rw [hkind]; exact hsig)

/-- A token that is seen has no line feed. -/
theorem notMem_lexeme (p : Position) (s : Text) :
    ∀ t ∈ tokensAfter Pattern.list 0 p s, t.isSignificant = true → lineFeed ∉ t.lexeme := by
  induction p, s using token_induction with
  | nil p =>
    intro t ht _
    rw [List.mem_singleton.1 ht]
    exact List.not_mem_nil
  | token p k a tags v ha h ih =>
    intro t ht hsig
    rw [tokensAfter_append ha h] at ht
    rcases List.mem_cons.1 ht with rfl | ht
    · exact notMem_of_first (List.append_ne_nil_of_left_ne_nil ha v) h hsig
    · exact ih t ht hsig

end Lexer

end ShaderRepair

import ShaderRepair.Proofs.Lossless
import ShaderRepair.Proofs.Relexing

/-!
# A text below another one

A text that ends with a semicolon, a line feed, and one more text have the tokens of both texts, up
to the line breaks that the second one begins with. This file contains:
- `Position.shift` and `Token.shift`, the same on other lines, and that lexing there is the same;
- `Lexer.tokensAfter_lineBreaks`, the line breaks at the front of a text;
- `Lexer.tokensAfter_of_semicolon`, the tokens of a text that goes on behind a semicolon.
-/

namespace ShaderRepair

open Number (byte)
open Reach

/-! ## Other lines -/

/-- The place that many bytes and lines further on. -/
def Position.shift (bytes lines : Int) (p : Position) : Position :=
  ⟨p.offset + bytes, p.line + lines, p.column⟩

/-- The token that many bytes and lines further on. -/
def Token.shift (bytes lines : Int) (t : Token) : Token :=
  { t with start := t.start.shift bytes lines, stop := t.stop.shift bytes lines }

@[simp] theorem Token.shift_kind (bytes lines : Int) (t : Token) :
    (t.shift bytes lines).kind = t.kind := rfl

@[simp] theorem Token.shift_isIgnored (bytes lines : Int) (t : Token) :
    (t.shift bytes lines).isIgnored = t.isIgnored := rfl

namespace Position

variable (bytes lines : Int) (p : Position)

theorem step_shift (r : Rune) :
    (p.shift bytes lines).step r = (p.step r).shift bytes lines := by
  unfold step
  split
  · rw [shift, shift, Int.add_right_comm]
  · rfl

theorem foldl_step_shift (rs : List Rune) :
    rs.foldl step (p.shift bytes lines) = (rs.foldl step p).shift bytes lines := by
  induction rs generalizing p with
  | nil => rfl
  | cons r rs ih => rw [List.foldl_cons, List.foldl_cons, step_shift, ih]

theorem advance_nil : p.advance [] = p := by
  have hoffset : p.offset + ([] : Text).length = p.offset := Int.add_zero _
  rw [advance, hoffset]
  rfl

theorem advance_shift (text : Text) :
    (p.shift bytes lines).advance text = (p.advance text).shift bytes lines := by
  simp only [advance, foldl_step_shift]
  simp only [shift, Position.mk.injEq, and_true]
  exact Int.add_right_comm _ _ _

/-- Behind a line feed a text lies as if it were the first one, but for bytes and lines. -/
theorem advance_lineFeed (text : Text) :
    p.advance (Text.lineFeed :: text) = (start.advance text).shift (p.offset + 1) p.line := by
  have hrunes : Text.runes (Text.lineFeed :: text) = .scalar 10 :: text.runes := rfl
  have hstep : p.step (.scalar 10) = start.shift p.offset p.line := by
    rw [step, if_pos rfl, shift, start, Int.zero_add, Int.add_comm 1]
  simp only [advance, hrunes, List.foldl_cons, hstep, foldl_step_shift]
  simp only [shift, start, List.length_cons, Position.mk.injEq, and_true]
  omega

end Position

namespace Lexer

/-- What the tokens are does not depend on where the text starts, only where they are. -/
theorem tokensAfter_shift (bytes lines : Int) (p : Position) (s : Text) :
    tokensAfter Pattern.list 0 (p.shift bytes lines) s =
      (tokensAfter Pattern.list 0 p s).map (Token.shift bytes lines) := by
  induction p, s using token_induction with
  | nil p => rfl
  | token p k a tags v ha h ih =>
    rw [tokensAfter_append ha h, tokensAfter_append ha h, Position.advance_shift, ih]
    rfl

/-! ## Line breaks at the front -/

/-- Where a pattern applies there is no error. -/
theorem kind_ne_error_of_reach {p : Pattern} (hp : p ∈ Pattern.list) {s a : Text} {k : Kind}
    {tags : Tags} (hpos : 0 < p.reach s) (hs : s ≠ []) (h : first s = (k, a, tags)) :
    k ≠ .error := by
  cases hlong : Pattern.longest s Pattern.list with
  | none => exact absurd (Pattern.longest_eq_none hlong p hp) (Nat.ne_of_gt hpos)
  | some found =>
    have hkinds : ∀ k ∈ Pattern.list.map Pattern.kind, k ≠ .error := by decide
    have hmem := (Pattern.longest_eq_some hlong).1
    rw [first_of_longest hs hlong] at h
    have hkind : found.1.kind = k := congrArg Prod.fst h
    rw [← hkind]
    exact hkinds _ (List.mem_map_of_mem hmem)

/-- Nothing but a line break begins with a byte of line breaks that is not blank. -/
theorem eq_lineBreak_of_reach {p : Pattern} (hp : p ∈ Pattern.list) {b : UInt8} {s : Text}
    (hb : isBreakByte b = true) (hblank : blanks (b :: s) = 0) (hpos : 0 < p.reach (b :: s)) :
    p = Pattern.plain .lineBreak lineBreaks := by
  have hbytes : b ≠ byte '#' ∧ b ≠ byte '/' ∧ Pattern.isTokenByte b = false := by
    simp only [isBreakByte, Bool.or_eq_true, decide_eq_true_eq] at hb
    rcases hb with rfl | rfl <;> decide
  rcases Pattern.cases_of_mem_list hp with rfl | rfl | rfl | rfl | htame
  · have hpos' : 0 < directive (b :: s) := hpos
    exact absurd (directive_pos hpos') hbytes.1
  · have hpos' : 0 < comment (b :: s) := hpos
    exact absurd (comment_pos hpos') hbytes.2.1
  · rfl
  · exact absurd hblank (Nat.ne_of_gt hpos)
  · have htoken := htame.opens _ _ hpos
    rw [hbytes.2.2] at htoken
    cases htoken

/-- The line breaks that a text begins with are its first token. -/
theorem first_lineBreaks {s : Text} (h : 0 < lineBreaks s) :
    first s = (.lineBreak, s.take (lineBreaks s), Tags.none) := by
  have hs : s ≠ [] := by
    rintro rfl
    exact absurd h (Nat.lt_irrefl 0)
  obtain ⟨k, a, tags, v, rfl, ha, hfirst⟩ := exists_first hs
  have hk := kind_ne_error_of_reach Pattern.lineBreaks_mem_list h hs hfirst
  obtain ⟨p, hp, -, rfl, rfl, hreach, -⟩ := exists_pattern ha hfirst hk
  have hpos : 0 < p.reach (a ++ v) := by
    rw [hreach]
    exact List.length_pos_iff.2 ha
  obtain rfl : p = Pattern.plain .lineBreak lineBreaks := by
    rcases exists_of_lineBreaks h with ⟨x, hx⟩ | ⟨x, hx, -⟩
    · rw [hx] at hpos
      exact eq_lineBreak_of_reach hp rfl (blanks_feed x) hpos
    · rw [hx] at hpos
      exact eq_lineBreak_of_reach hp rfl (blanks_crlf x) hpos
  have hlen : lineBreaks (a ++ v) = a.length := hreach
  rw [hlen, List.take_left]
  exact hfirst

/-- The line breaks that a text begins with, if there are any, and the tokens behind them. -/
theorem tokensAfter_lineBreaks (p : Position) (s : Text) :
    ∃ breaks, tokensAfter Pattern.list 0 p s = breaks ++
        tokensAfter Pattern.list 0 (p.advance (s.take (lineBreaks s))) (s.drop (lineBreaks s)) ∧
      ∀ t ∈ breaks, t.kind = .lineBreak := by
  rcases Nat.eq_zero_or_pos (lineBreaks s) with hzero | hpos
  · refine ⟨[], ?_, fun t ht => absurd ht List.not_mem_nil⟩
    rw [hzero, List.take_zero, Position.advance_nil]
    rfl
  · have hfirst := first_lineBreaks hpos
    have hne : s.take (lineBreaks s) ≠ [] := by
      intro hnil
      rcases List.take_eq_nil_iff.1 hnil with hzero | rfl
      · exact absurd hzero (Nat.ne_of_gt hpos)
      · exact absurd hpos (Nat.lt_irrefl 0)
    have hsplit := List.take_append_drop (lineBreaks s) s
    generalize s.take (lineBreaks s) = a at hfirst hne hsplit
    generalize s.drop (lineBreaks s) = v at hsplit
    subst hsplit
    exact ⟨[_], tokensAfter_append hne hfirst p, fun t ht => by rw [List.mem_singleton.1 ht]⟩

/-! ## Behind a semicolon -/

theorem lexeme_of_semicolon {a v : Text} {tags : Tags} (ha : a ≠ [])
    (h : first (a ++ v) = (.semicolon, a, tags)) : a = [byte ';'] := by
  obtain ⟨p, hp, -, hkind, -, hreach, -⟩ := exists_pattern ha h (by decide)
  have hexact : p = Pattern.plain .semicolon (exact (Text.ascii ";")) := by
    have hkeywords : ∀ e ∈ Lexicon.keywords, e.2 ≠ .semicolon := by decide
    have hpunct : ∀ k ∈ [Kind.colon, .semicolon, .comma, .dot, .leftParen, .rightParen, .leftBrace,
        .rightBrace, .leftBracket, .rightBracket], k = .semicolon → k.name = Text.ascii ";" := by
      decide
    simp only [Pattern.list, Pattern.listWith, List.mem_append, List.mem_cons, List.not_mem_nil,
      or_false] at hp
    rcases hp with (((hp | hp) | rfl) | hp) | rfl
    · rcases hp with rfl | rfl | rfl | rfl | rfl | rfl | rfl | rfl | rfl | rfl | rfl <;> cases hkind
    · obtain ⟨e, he, rfl⟩ := List.mem_map.1 hp
      exact absurd hkind (hkeywords e he)
    · cases hkind
    · obtain ⟨k, hk, rfl⟩ := List.mem_map.1 hp
      obtain rfl : k = .semicolon := hkind
      rfl
    · cases hkind
  rw [hexact] at hreach
  have hreach' : exact (Text.ascii ";") (a ++ v) = a.length := hreach
  rw [exact] at hreach'
  split at hreach'
  · next hpre =>
    obtain ⟨b, rfl⟩ := List.length_eq_one_iff.1 hreach'.symm
    obtain ⟨x, hx⟩ := List.isPrefixOf_iff_prefix.1 hpre
    rw [← (List.cons.inj hx).1]
    rfl
  · exact absurd (List.length_eq_zero_iff.1 hreach'.symm) ha

/-- The empty text has no token but the end of input. -/
theorem nil_of_tokensAfter {p q : Position} {body : List Token}
    (h : tokensAfter Pattern.list 0 p [] = body ++ [Token.endAt q]) : body = [] ∧ p = q := by
  cases body with
  | nil => exact ⟨rfl, congrArg Token.start (List.cons.inj h).1⟩
  | cons u body =>
    have hlen := congrArg List.length h
    simp [tokensAfter] at hlen

/-- Only the empty text has no token but the end of input. -/
theorem eq_nil_of_tokensAfter {p q : Position} {s : Text}
    (h : tokensAfter Pattern.list 0 p s = [Token.endAt q]) : s = [] := by
  by_contra hs
  obtain ⟨k, a, tags, v, rfl, ha, hfirst⟩ := exists_first hs
  rw [tokensAfter_append ha hfirst] at h
  exact ha (congrArg Token.lexeme (List.cons.inj h).1)

/-- A text whose last token is a semicolon ends with one. -/
theorem getLast?_of_semicolon {p q : Position} {s : Text} {body : List Token} {t : Token}
    (h : tokensAfter Pattern.list 0 p s = body ++ [Token.endAt q])
    (ht : body.getLast? = some t) (hk : t.kind = .semicolon) : ∃ w, s = w ++ [byte ';'] := by
  induction p, s using token_induction generalizing body with
  | nil p =>
    rw [(nil_of_tokensAfter h).1] at ht
    cases ht
  | token p k a tags v ha hfirst ih =>
    rw [tokensAfter_append ha hfirst] at h
    cases body with
    | nil => cases ht
    | cons u body =>
      obtain ⟨rfl, hmore⟩ := List.cons.inj h
      cases hbody : body.getLast? with
      | some u =>
        have hu : u = t := by
          rw [List.getLast?_cons, hbody] at ht
          exact Option.some.inj ht
        obtain ⟨w, rfl⟩ := ih hmore (hbody.trans (congrArg some hu))
        exact ⟨a ++ w, by rw [List.append_assoc]⟩
      | none =>
        -- This token is the last one.
        obtain rfl := List.getLast?_eq_none_iff.1 hbody
        obtain rfl : _ = t := Option.some.inj ht
        obtain rfl : k = .semicolon := hk
        rw [lexeme_of_semicolon ha hfirst, eq_nil_of_tokensAfter hmore]
        exact ⟨[], rfl⟩

/-- Nothing reaches from in front of a semicolon behind it. -/
theorem fits_of_semicolon {a v w : Text} (ha : a ≠ []) (hv : v ≠ [])
    (hw : a ++ v = w ++ [byte ';']) (x : Text) : Fits (a ++ v) (a ++ (v ++ x)) := by
  have hne : w ≠ [] := by
    rintro rfl
    have hlen := congrArg List.length hw
    have hpos := List.length_pos_iff.2 ha
    have hpos' := List.length_pos_iff.2 hv
    rw [List.length_append, List.nil_append, List.length_singleton] at hlen
    omega
  have hmark : isMarkByte (byte ';') = true := rfl
  have hfits := fits_append [byte ';'] x (List.getLast?_eq_some_getLast hne) (.inl hmark)
  rw [← List.append_assoc, hw, List.append_assoc]
  exact hfits

/-- What is there continues with itself, whatever comes behind it. -/
theorem continues_append {v : Text} (hv : v ≠ []) (x : Text) : Continues v (v ++ x) := by
  refine ⟨fun hnil => absurd hnil hv, ?_, ?_, ?_⟩
  · rintro y rfl
    exact ⟨y ++ x, rfl⟩
  · rintro y rfl
    exact ⟨y ++ x, rfl⟩
  · rintro b y rfl hb
    exact ⟨b, y ++ x, rfl, hb⟩

/-- The token behind blanks ends them. -/
theorem halts_of_valid {a v : Text} {tags : Tags} (ha : a ≠ [])
    (h : first (a ++ v) = (.blank, a, tags)) (hv : v ≠ []) {p : Position}
    (hvalid : ∀ t ∈ tokensAfter Pattern.list 0 p v, t.kind ≠ .error) : Halts v := by
  obtain ⟨k', a', tags', v', rfl, ha', hfirst'⟩ := exists_first hv
  rw [tokensAfter_append ha' hfirst'] at hvalid
  have hk' : k' ≠ .error := hvalid _ List.mem_cons_self
  exact halts_of_first ha' hfirst' hk' (not_blank_after ha h rfl ha' hfirst')

/-- Behind a semicolon a text may go on. The tokens it has so far stay, and those of what follows
come behind them. -/
theorem tokensAfter_of_semicolon {p q : Position} {s : Text} {body : List Token} {t : Token}
    (h : tokensAfter Pattern.list 0 p s = body ++ [Token.endAt q])
    (hvalid : ∀ t ∈ body, t.kind ≠ .error) (ht : body.getLast? = some t)
    (hk : t.kind = .semicolon) (x : Text) :
    tokensAfter Pattern.list 0 p (s ++ x) = body ++ tokensAfter Pattern.list 0 q x := by
  induction p, s using token_induction generalizing body with
  | nil p =>
    rw [(nil_of_tokensAfter h).1] at ht
    cases ht
  | token p k a tags v ha hfirst ih =>
    obtain ⟨w, hw⟩ := getLast?_of_semicolon h ht hk
    rw [tokensAfter_append ha hfirst] at h
    cases body with
    | nil => cases ht
    | cons u body =>
      rw [List.cons_append] at h
      obtain ⟨rfl, hmore⟩ := List.cons.inj h
      have hk' : k ≠ .error := hvalid _ List.mem_cons_self
      have hvalid' : ∀ t ∈ body, t.kind ≠ .error := fun t ht =>
        hvalid t (List.mem_cons_of_mem _ ht)
      by_cases hv : v = []
      · -- The semicolon is a mark, and its token is the same whatever follows.
        subst hv
        obtain ⟨rfl, hq⟩ := nil_of_tokensAfter hmore
        obtain rfl : _ = t := Option.some.inj ht
        obtain rfl : k = .semicolon := hk
        obtain rfl := lexeme_of_semicolon ha hfirst
        rw [List.append_nil] at hfirst ⊢
        have hsame := first_mark (c := byte ';') rfl hfirst hk' x
        rw [tokensAfter_append (a := [byte ';']) (List.cons_ne_nil _ _) hsame, hq]
        rfl
      · have hne : body ≠ [] := by
          rintro rfl
          exact hv (eq_nil_of_tokensAfter hmore)
        have hlast : body.getLast? = some t := by
          rwa [List.getLast?_cons_of_ne_nil hne] at ht
        have hhalts : k = .blank → Halts v := by
          rintro rfl
          refine halts_of_valid ha hfirst hv (p := p.advance a) fun t ht => ?_
          rw [hmore, List.mem_append, List.mem_singleton] at ht
          rcases ht with ht | rfl
          · exact hvalid' t ht
          · exact Kind.noConfusion
        have hsame := first_congr ha hfirst hk' (fits_of_semicolon ha hv hw x)
          (fun _ => continues_append hv x) hhalts
        rw [List.append_assoc, tokensAfter_append ha hsame, ih hmore hvalid' hlast]
        rfl

/-! ## The two texts -/

/-- No token starts on a line above the text. -/
theorem line_le (p : Position) (s : Text) :
    ∀ t ∈ tokensAfter Pattern.list 0 p s, p.line ≤ t.start.line := by
  have hmoved : ∀ (rs : List Rune) (p : Position), p.line ≤ (rs.foldl Position.step p).line := by
    intro rs
    induction rs with
    | nil => exact fun p => Int.le_refl _
    | cons r rs ih =>
      intro p
      refine Int.le_trans ?_ (ih (p.step r))
      unfold Position.step
      split
      · exact Int.le_add_one (Int.le_refl _)
      · exact Int.le_refl _
  induction p, s using token_induction with
  | nil p =>
    intro t ht
    rw [List.mem_singleton.1 ht]
    exact Int.le_refl _
  | token p k a tags v ha h ih =>
    intro t ht
    rw [tokensAfter_append ha h] at ht
    rcases List.mem_cons.1 ht with rfl | ht
    · exact Int.le_refl _
    · exact Int.le_trans (hmoved (Text.runes a) p) (ih t ht)

/-- The tokens of two texts with a line feed between them, the first of which ends with a semicolon.
Only the line breaks that the second one begins with are not kept. -/
theorem tokens_sequel {s : Text} {t : Token} (hvalid : ∀ t ∈ tokens s, t.kind ≠ .error)
    (ht : (tokens s).dropLast.getLast? = some t) (hk : t.kind = .semicolon) (s' : Text) :
    ∃ body q breaks breaks' more q', tokens s = body ++ [Token.endAt q] ∧ q.offset = s.length ∧
      tokens s' = breaks ++ more ++ [Token.endAt q'] ∧
      tokens (s ++ Text.lineFeed :: s') =
        body ++ (breaks' ++ more.map (Token.shift (s.length + 1) q.line)) ++
          [Token.endAt (q'.shift (s.length + 1) q.line)] ∧
      (∀ t ∈ body ++ more, t.kind ≠ .endOfInput) ∧
      ∀ t ∈ breaks ++ breaks', t.kind = .lineBreak := by
  obtain ⟨body, q, htokens, hq, hbody⟩ := (tokensAfter_covers Position.start s).exists_body
  have hq : q.offset = s.length := hq.trans (Int.zero_add _)
  have hlast : body.getLast? = some t := by
    rw [tokens, tokensWith, htokens, List.dropLast_concat] at ht
    exact ht
  have happ := tokensAfter_of_semicolon htokens
    (fun t ht => hvalid t (by rw [tokens, tokensWith, htokens]; exact List.mem_append_left _ ht))
    hlast hk (Text.lineFeed :: s')
  obtain ⟨breaks, hbreaks, hkinds⟩ := tokensAfter_lineBreaks Position.start s'
  obtain ⟨breaks', hbreaks', hkinds'⟩ := tokensAfter_lineBreaks q (Text.lineFeed :: s')
  -- The line feed is one more line break in front of those of the second text.
  have hcount : lineBreaks (Text.lineFeed :: s') = lineBreaks s' + 1 := by simp [lineBreaks]
  rw [hcount, List.take_succ_cons, List.drop_succ_cons, Position.advance_lineFeed,
    tokensAfter_shift, hq] at hbreaks'
  obtain ⟨more, q', hmore, hkinds''⟩ := tokens_shape
    (Position.start.advance (s'.take (lineBreaks s'))) (s'.drop (lineBreaks s'))
  rw [hmore] at hbreaks hbreaks'
  refine ⟨body, q, breaks, breaks', more, q', htokens, hq, ?_, ?_, ?_, ?_⟩
  · rw [tokens, tokensWith, hbreaks, List.append_assoc]
  · rw [tokens, tokensWith, happ, hbreaks', List.map_append]
    simp only [List.append_assoc]
    rfl
  · intro t ht
    rcases List.mem_append.1 ht with ht | ht
    · exact (hbody t ht).1
    · exact (hkinds'' t ht).1
  · intro t ht
    rcases List.mem_append.1 ht with ht | ht
    · exact hkinds t ht
    · exact hkinds' t ht

end Lexer

end ShaderRepair

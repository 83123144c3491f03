import ShaderRepair.Proofs.Dispatch
import ShaderRepair.Proofs.Insignificant

/-!
# Sources that are laid out differently

Comments, directives, white space and blank lines may differ. If two sources have the same words,
and lines end behind the same words, then they need the same repairs. This file contains:
- `Lexer.tags_of_mem`, which says that a word alone decides what is known about it;
- `Stream.exists_neighbours`, what stands between neighbouring words;
- `Document.Reformats` and `Document.parse_reformatted`.
-/

namespace ShaderRepair

open Grammar

/-! ## Words and what is known about them -/

namespace Lexer

/-- What the word tables say about a word on its own. -/
def wordTags (k : Kind) (a : Text) : Tags :=
  if k = .error then Tags.none else (first a).2.2

/-- A significant word is found again on its own. -/
theorem first_alone {a v : Text} {k : Kind} {tags : Tags} (ha : a ≠ [])
    (h : first (a ++ v) = (k, a, tags)) (hk : k ≠ .error) (hsig : k.isSignificant = true) :
    first a = (k, a, tags) := by
  have hignored : ¬k.isIgnored = true := by
    intro hk
    rw [Kind.isSignificant, hk] at hsig
    cases hsig
  have hblank : k ≠ .blank := by
    rintro rfl
    cases hsig
  have hfits : Reach.Fits (a ++ v) (a ++ []) := by
    intro u _ hu
    rw [List.append_nil] at hu
    exact hu.trans (List.prefix_append a v)
  have hfirst := first_congr ha h hk hfits (fun hk => absurd hk hignored)
    (fun hk => absurd hk hblank)
  rwa [List.append_nil] at hfirst

theorem tags_of_error {a v : Text} {tags : Tags} (ha : a ≠ [])
    (h : first (a ++ v) = (.error, a, tags)) : tags = Tags.none := by
  obtain ⟨b, a, rfl⟩ := List.exists_cons_of_ne_nil ha
  cases hlong : Pattern.longest (b :: (a ++ v)) Pattern.list with
  | none =>
    rw [List.cons_append, first, front, hlong] at h
    exact (congrArg (·.2.2) h).symm
  | some found =>
    obtain ⟨p, n⟩ := found
    have hp := (Pattern.longest_eq_some hlong).1
    rw [List.cons_append, first_of_longest (List.cons_ne_nil _ _) hlong] at h
    have hkinds : ∀ k ∈ Pattern.list.map Pattern.kind, k ≠ .error := by decide
    exact absurd (congrArg Prod.fst h) (hkinds p.kind (List.mem_map_of_mem hp))

/-- The tags of a word depend on kind and lexeme only. -/
theorem tags_of_mem (p : Position) (s : Text) : ∀ t ∈ tokensAfter Pattern.list 0 p s,
    t.isSeen = true → t.tags = wordTags t.kind t.lexeme := by
  induction p, s using token_induction with
  | nil p =>
    intro t ht hseen
    rw [List.mem_singleton.1 ht] at hseen
    cases hseen
  | token p k a tags v ha h ih =>
    intro t ht hseen
    rw [tokensAfter_append ha h] at ht
    rcases List.mem_cons.1 ht with rfl | ht
    · by_cases hk : k = .error
      · subst hk
        exact tags_of_error ha h
      · have hsig : k.isSignificant = true := (Token.isSeen_iff.1 hseen).1
        rw [wordTags, if_neg hk, first_alone ha h hk hsig]
    · exact ih t ht hseen

end Lexer

/-! ## Neighbouring words -/

namespace Stream

variable {tokens : List Token} {t t' : Token} {b b' : Bool} {more : List (Token × Bool)}

/-- What stands in front of the first word. -/
theorem exists_lead (h : significant b tokens = (t, b') :: more) :
    ∃ between after, tokens = between ++ t :: after ∧ (∀ u ∈ between, u.isSignificant = false) ∧
      more = significant false after ∧
      (b' = true ↔ b = true ∨ ∃ u ∈ between, u.kind = .lineBreak) := by
  induction tokens generalizing b with
  | nil => cases h
  | cons u tokens ih =>
    rw [significant] at h
    split at h
    · next hignored =>
      obtain ⟨between, after, rfl, hbetween, hmore, hb⟩ := ih h
      have hkind : u.kind.isIgnored = true := hignored
      have hbreak : u.kind ≠ .lineBreak := by
        intro hbreak
        rw [hbreak] at hkind
        cases hkind
      have hu : u.isSignificant = false := by
        simp [Token.isSignificant, Kind.isSignificant, hkind]
      refine ⟨u :: between, after, rfl, List.forall_mem_cons.2 ⟨hu, hbetween⟩, hmore, ?_⟩
      simp [hb, hbreak]
    split at h
    · next hbreak =>
      obtain ⟨between, after, rfl, hbetween, hmore, hb⟩ := ih h
      have hu : u.isSignificant = false := by
        simp [Token.isSignificant, Kind.isSignificant, hbreak]
      refine ⟨u :: between, after, rfl, List.forall_mem_cons.2 ⟨hu, hbetween⟩, hmore, ?_⟩
      simp [hb, hbreak]
    · cases h
      exact ⟨[], tokens, rfl, fun u hu => absurd hu List.not_mem_nil, rfl, by simp⟩

/-- What stands between two neighbouring words. -/
theorem exists_neighbours {i : Nat} (h : (significant b tokens)[i]? = some (t, b'))
    {c : Bool} (h' : (significant b tokens)[i + 1]? = some (t', c)) :
    ∃ before between after, tokens = before ++ t :: (between ++ t' :: after) ∧
      (∀ u ∈ between, u.isSignificant = false) ∧
      (c = true ↔ ∃ u ∈ between, u.kind = .lineBreak) := by
  -- The induction is on the number of words in front.
  induction i generalizing tokens b with
  | zero =>
    obtain ⟨more, hmore⟩ : ∃ more, significant b tokens = (t, b') :: more := by
      cases hs : significant b tokens with
      | nil => simp [hs] at h
      | cons x more =>
        simp only [hs, List.getElem?_cons_zero, Option.some.injEq] at h
        exact ⟨more, by rw [h]⟩
    obtain ⟨before, after, rfl, -, hafter, -⟩ := exists_lead hmore
    rw [hmore, hafter, List.getElem?_cons_succ] at h'
    obtain ⟨more', hmore'⟩ : ∃ more', significant false after = (t', c) :: more' := by
      cases hs : significant false after with
      | nil => simp [hs] at h'
      | cons x more =>
        simp only [hs, List.getElem?_cons_zero, Option.some.injEq] at h'
        exact ⟨more, by rw [h']⟩
    obtain ⟨between, after, rfl, hbetween, -, hc⟩ := exists_lead hmore'
    exact ⟨before, between, after, rfl, hbetween, by simpa using hc⟩
  | succ i ih =>
    cases hs : significant b tokens with
    | nil => simp [hs] at h
    | cons x more =>
      obtain ⟨u, d⟩ := x
      obtain ⟨lead, after, rfl, -, rfl, -⟩ := exists_lead hs
      rw [hs, List.getElem?_cons_succ] at h h'
      obtain ⟨before, between, after, rfl, hbetween, hc⟩ := ih h h'
      exact ⟨lead ++ u :: before, between, after, by simp, hbetween, hc⟩

end Stream

namespace Document

/-- A line break stands between the significant tokens with the numbers `i` and `i + 1`. -/
def LineEnds (source : Text) (i : Nat) : Prop :=
  let token := (Stream.ofSource source).token
  ∃ u ∈ Lexer.tokens source, u.kind = .lineBreak ∧ (token i).stop.offset ≤ u.start.offset ∧
    u.stop.offset ≤ (token (i + 1)).start.offset

instance (source : Text) (i : Nat) : Decidable (LineEnds source i) :=
  inferInstanceAs (Decidable (∃ u ∈ Lexer.tokens source, u.kind = .lineBreak ∧
    ((Stream.ofSource source).token i).stop.offset ≤ u.start.offset ∧
      u.stop.offset ≤ ((Stream.ofSource source).token (i + 1)).start.offset))

/-- The grammar knows of the line breaks between words. -/
theorem lineEnds_iff {source : Text} {i : Nat} {x : Token × Bool}
    (h : (Stream.pairs (Lexer.lex source false))[i + 1]? = some x) :
    LineEnds source i ↔ x.2 = true := by
  obtain ⟨body, q, hbody, hall⟩ := Lexer.tokens_shape Position.start source
  have hpairs := Stream.pairs_lex hbody fun t ht => (hall t ht).1
  have hlt := (List.getElem?_eq_some_iff.1 h).1
  have hfirst := List.getElem?_eq_getElem (Nat.lt_of_succ_lt hlt)
  rw [LineEnds, show (Stream.ofSource source).token (i + 1) = x.1 from Stream.token_of_pair h,
    show (Stream.ofSource source).token i = _ from Stream.token_of_pair hfirst]
  generalize (Stream.pairs (Lexer.lex source false))[i] = y at hfirst
  rw [hpairs] at h hfirst
  obtain ⟨before, between, after, hsplit, hbetween, hbreak⟩ := Stream.exists_neighbours hfirst h
  have hordered := (Lexer.tokens_ordered Position.start source).2
  have htokens : Lexer.tokensAfter Pattern.list 0 Position.start source =
      before ++ y.1 :: (between ++ x.1 :: (after ++ [Token.endAt q])) := by
    rw [show Lexer.tokensAfter Pattern.list 0 Position.start source = _ from hbody, hsplit]
    simp
  rw [htokens, List.pairwise_append, List.pairwise_cons, List.pairwise_append,
    List.pairwise_cons] at hordered
  obtain ⟨-, ⟨hy, -, ⟨hx, -⟩, hbetween'⟩, hbefore⟩ := hordered
  have hyx := (hy x.1 (by simp)).1
  rw [hbreak]
  constructor
  · rintro ⟨u, hu, hkind, hstart, hstop⟩
    have hmem : u ∈ Lexer.tokensAfter Pattern.list 0 Position.start source := hu
    have hbytes : u.start.offset < u.stop.offset := by
      rw [hbody, List.mem_append, List.mem_singleton] at hmem
      rcases hmem with hu | rfl
      · exact (hall u hu).2
      · cases hkind
    rw [htokens, List.mem_append, List.mem_cons, List.mem_append, List.mem_cons] at hmem
    rcases hmem with hmem | rfl | hmem | rfl | hmem
    -- A token elsewhere does not fit between the two words.
    · have := hbefore u hmem y.1 List.mem_cons_self
      omega
    · omega
    · exact ⟨u, hmem, hkind⟩
    · omega
    · have := hx u hmem
      omega
  · rintro ⟨u, hu, hkind⟩
    refine ⟨u, ?_, hkind, (hy u (List.mem_append_left _ hu)).2, ?_⟩
    · rw [show Lexer.tokens source = _ from htokens]
      simp [hu]
    · exact (hbetween' u hu x.1 List.mem_cons_self).2

/-- The words of two sources are the same, and lines end behind the same words. What stands in front
of the first word and behind the last one does not matter. -/
structure Reformats (source source' : Text) : Prop where
  words : ((Lexer.tokens source').filter Token.isSeen).map (fun t => (t.kind, t.lexeme)) =
    ((Lexer.tokens source).filter Token.isSeen).map fun t => (t.kind, t.lexeme)
  lines : ∀ i, i + 1 < ((Lexer.tokens source).filter Token.isSeen).length →
    (LineEnds source i ↔ LineEnds source' i)

/-- The words of a source are the significant tokens that its stream has. -/
theorem map_fst_pairs (source : Text) :
    (Stream.pairs (Lexer.lex source false)).map Prod.fst =
      (Lexer.tokens source).filter Token.isSeen :=
  Stream.tokens_ofSource source

theorem tags_of_pair {source : Text} {i : Nat} {x : Token × Bool}
    (h : (Stream.pairs (Lexer.lex source false))[i]? = some x) :
    x.1.tags = Lexer.wordTags x.1.kind x.1.lexeme := by
  have hmem : x.1 ∈ (Lexer.tokens source).filter Token.isSeen := by
    rw [← map_fst_pairs]
    exact List.mem_map_of_mem (List.mem_of_getElem? h)
  obtain ⟨htoken, hseen⟩ := List.mem_filter.1 hmem
  exact Lexer.tags_of_mem Position.start source x.1 htoken hseen

namespace Reformats

variable {source source' : Text} (h : Reformats source source')
include h

theorem length_eq : (Stream.pairs (Lexer.lex source' false)).length =
    (Stream.pairs (Lexer.lex source false)).length := by
  have hlen := congrArg List.length h.words
  rw [List.length_map, List.length_map, ← map_fst_pairs, ← map_fst_pairs, List.length_map,
    List.length_map] at hlen
  exact hlen

/-- Words with the same number show the same symbol, but for a line break. -/
theorem ofToken_eq {i : Nat} {x x' : Token × Bool}
    (hx : (Stream.pairs (Lexer.lex source false))[i]? = some x)
    (hx' : (Stream.pairs (Lexer.lex source' false))[i]? = some x') (b : Bool) :
    Symbol.ofToken b x'.1 = Symbol.ofToken b x.1 := by
  have hword := congrArg (·[i]?) h.words
  simp only [← map_fst_pairs, List.map_map, List.getElem?_map, hx, hx', Option.map_some,
    Option.some.injEq, Function.comp_apply, Prod.mk.injEq] at hword
  obtain ⟨hkind, hlexeme⟩ := hword
  rw [Symbol.ofToken, Symbol.ofToken, tags_of_pair hx, tags_of_pair hx', hkind, hlexeme]

/-- Behind the first word the line breaks are the same too. -/
theorem broken_eq {i : Nat} {x x' : Token × Bool}
    (hx : (Stream.pairs (Lexer.lex source false))[i + 1]? = some x)
    (hx' : (Stream.pairs (Lexer.lex source' false))[i + 1]? = some x') : x'.2 = x.2 := by
  have hlt : i + 1 < ((Lexer.tokens source).filter Token.isSeen).length := by
    rw [← map_fst_pairs, List.length_map]
    exact (List.getElem?_eq_some_iff.1 hx).1
  have hlines := h.lines i hlt
  rw [lineEnds_iff hx, lineEnds_iff hx'] at hlines
  exact Bool.eq_iff_iff.2 hlines.symm

theorem relabels :
    Relabels (Stream.ofSource source).symbols (Stream.ofSource source').symbols := by
  have hlen := h.length_eq
  have hall : ∀ (i : Nat) (x x' : Token × Bool),
      (Stream.pairs (Lexer.lex source false))[i]? = some x →
      (Stream.pairs (Lexer.lex source' false))[i]? = some x' →
      Symbol.ofToken x'.2 x'.1 = { Symbol.ofToken x.2 x.1 with broken := x'.2 } :=
    fun i x x' hx hx' => h.ofToken_eq hx hx' x'.2
  have hbroken : ∀ (i : Nat) (x x' : Token × Bool),
      (Stream.pairs (Lexer.lex source false))[i + 1]? = some x →
      (Stream.pairs (Lexer.lex source' false))[i + 1]? = some x' → x'.2 = x.2 :=
    fun i x x' hx hx' => h.broken_eq hx hx'
  -- Line breaks agree from the second word on; in front of the first one they do not matter.
  rw [Stream.ofSource, Stream.ofSource, Stream.symbols_ofTokens, Stream.symbols_ofTokens]
  generalize Stream.pairs (Lexer.lex source false) = l at hlen hall hbroken
  generalize Stream.pairs (Lexer.lex source' false) = l' at hlen hall hbroken
  cases l with
  | nil =>
    rw [List.length_eq_zero_iff.1 hlen]
    exact .nil
  | cons x l =>
    obtain ⟨x', l', rfl⟩ := List.exists_cons_of_length_eq_add_one hlen
    have hmore : l'.map (fun x => Symbol.ofToken x.2 x.1) =
        l.map fun x => Symbol.ofToken x.2 x.1 := by
      refine List.ext_getElem (by simpa using hlen) fun i hi hi' => ?_
      rw [List.length_map] at hi hi'
      have hx := List.getElem?_eq_getElem hi'
      have hx' := List.getElem?_eq_getElem hi
      rw [List.getElem_map, List.getElem_map, hall (i + 1) l[i] l'[i] hx hx',
        hbroken i l[i] l'[i] hx hx']
      rfl
    rw [List.map_cons, List.map_cons, hmore, hall 0 x x' rfl rfl]
    exact .cons _ _ _

end Reformats

/-- The same text, put in next to tokens with the same number and on the same side of them. -/
def Corresponds (token token' : Nat → Token) (e e' : Edit) : Prop :=
  e'.text = e.text ∧ ∃ i, e.anchor = token i ∧ e'.anchor = token' i ∧
    ((e.offset = (token i).start.offset ∧ e'.offset = (token' i).start.offset) ∨
      (e.offset = (token i).stop.offset ∧ e'.offset = (token' i).stop.offset))

theorem corresponds_put (stream stream' : Stream) (x : Nat × Put) :
    Corresponds stream.token stream'.token (Put.edit stream x) (Put.edit stream' x) := by
  refine ⟨by simp, Put.anchor x, ?_⟩
  obtain ⟨n, k | type⟩ := x
  · exact ⟨rfl, rfl, .inr ⟨rfl, rfl⟩⟩
  · exact ⟨rfl, rfl, .inl ⟨rfl, rfl⟩⟩

/-- Laying out a source differently does not change what it needs. With all options on, both sources
are parsed or neither is. The trees of the reports are the same, up to tokens with the same number;
the edits put in the same texts next to tokens with the same number. Errors expect the same at
tokens with the same number. -/
theorem parse_reformatted {source source' : Text} (h : Reformats source source') :
    let token := (Stream.ofSource source).token
    let token' := (Stream.ofSource source').token
    (∃ (m : Module Nat Tree) (report report' : Report),
      parse source Options.all = .ok report ∧ parse source' Options.all = .ok report' ∧
      report.module = Module.mapWith token (Expr.map (Extent.map token)) m ∧
      report'.module = Module.mapWith token' (Expr.map (Extent.map token')) m ∧
      List.Forall₂ (Corresponds token token') report.edits report'.edits) ∨
    ∃ e e' i, parse source Options.all = .error e ∧ parse source' Options.all = .error e' ∧
      e'.expected = e.expected ∧ e.token = token i ∧ e'.token = token' i := by
  intro token token'
  -- Each number shows the pair of the two tokens.
  let pair : Nat → Token × Token := fun i => (token i, token' i)
  have hagree : ∀ i < (Stream.ofSource source).symbols.length, pair i = pair i := fun _ _ => rfl
  rcases parseTokens_relabelled h.relabels hagree with
    ⟨ns, ns', R, hsame, hR, hparse⟩ | ⟨why, why', hpoints, hparse⟩
  · left
    have hmodule : Module.mapWith token' (Expr.map (Extent.map token')) (ns'.map .item) =
        Module.mapWith token' (Expr.map (Extent.map token')) (ns.map .item) := by
      have hpairs := congrArg (Module.mapWith Prod.snd (Expr.map (Extent.map Prod.snd)))
        (Relocation.module_of_same hsame)
      exact ((Module.mapWith_extent pair Prod.snd _).symm.trans
        (hpairs.trans (Module.mapWith_extent pair Prod.snd _))).symm
    refine ⟨ns.map .item, _, _, (hparse source Options.all).1, (hparse source' Options.all).2, rfl,
      hmodule, ?_⟩
    rw [Stream.edits_report_all, Stream.edits_report_all, List.forall₂_map_left_iff,
      List.forall₂_map_right_iff, List.forall₂_same]
    exact fun x _ => corresponds_put _ _ x
  · right
    refine ⟨_, _, why.index, (hparse source Options.all).1, (hparse source' Options.all).2,
      congrArg (List.map Expectation.describe) hpoints.expected, rfl, ?_⟩
    rcases hpoints.index with hsame | ⟨hend, hend'⟩
    · exact (congrArg Prod.snd hsame).symm
    · exact congrArg token' (hend'.trans hend.symm)

/-- Two missing semicolons, a missing conversion and a missing parenthesis. The second source has
comments, a directive, a blank line and no spaces around the sign. -/
theorem parse_reformatted_comments :
    let source := Text.ascii "int a = 1\nfloat b = a;\nif a > 1) discard"
    let source' := Text.ascii
      "#version 300 es\n/* one */ int  a=1 // two\n\n\tfloat b=a; \n if a>1 )\t discard\n"
    let token := (Stream.ofSource source).token
    let token' := (Stream.ofSource source').token
    Reformats source source' ∧
    ((∃ (m : Module Nat Tree) (report report' : Report),
      parse source Options.all = .ok report ∧ parse source' Options.all = .ok report' ∧
      report.module = Module.mapWith token (Expr.map (Extent.map token)) m ∧
      report'.module = Module.mapWith token' (Expr.map (Extent.map token')) m ∧
      List.Forall₂ (Corresponds token token') report.edits report'.edits) ∨
    ∃ e e' i, parse source Options.all = .error e ∧ parse source' Options.all = .error e' ∧
      e'.expected = e.expected ∧ e.token = token i ∧ e'.token = token' i) := by
  intro source source' token token'
  have hfacts : ((Lexer.tokens source').filter Token.isSeen).map (fun t => (t.kind, t.lexeme)) =
        ((Lexer.tokens source).filter Token.isSeen).map (fun t => (t.kind, t.lexeme)) ∧
      ((Lexer.tokens source).filter Token.isSeen).length = 15 ∧
      ∀ i < 14, (LineEnds source i ↔ LineEnds source' i) := by
    simp only [LineEnds, Stream.ofSource, Lexer.lex_eq_scan, Lexer.tokens_eq_scan]
    decide +kernel
  obtain ⟨hwords, hlen, hlines⟩ := hfacts
  have hreformats : Reformats source source' :=
    ⟨hwords, fun i hi => hlines i (by omega)⟩
  exact ⟨hreformats, parse_reformatted hreformats⟩

end Document

end ShaderRepair

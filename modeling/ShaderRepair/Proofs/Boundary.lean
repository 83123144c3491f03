import ShaderRepair.Document
import ShaderRepair.Proofs.Lexing
import ShaderRepair.Proofs.Put
import ShaderRepair.Proofs.Significant

/-!
# Boundaries between tokens

The grammar counts symbols, edits count bytes. Something that is put in at the boundary `n` of the
symbols stands between two neighbouring tokens of the source, and this file says between which. It
contains:
- the layout of the tokens of a source: one behind the other, none of them empty but the last;
- what the stream of a source looks up;
- `Put.offset_edit_iff`, where an edit points to.
-/

namespace ShaderRepair

/-- Whether the grammar sees the token as a symbol. -/
def Token.isSeen (t : Token) : Bool :=
  t.isSignificant && t.kind ≠ .endOfInput

theorem Token.isSeen_iff {t : Token} :
    t.isSeen = true ↔ t.isSignificant = true ∧ t.kind ≠ .endOfInput := by
  simp [Token.isSeen]

/-! ## Layout -/

namespace Lexer

theorem kind_ne_endOfInput : ∀ k ∈ Pattern.list.map Pattern.kind, k ≠ .endOfInput := by
  decide

theorem first_kind_ne {a v : Text} {k : Kind} {tags : Tags} (ha : a ≠ [])
    (h : first (a ++ v) = (k, a, tags)) : k ≠ .endOfInput := by
  by_cases hk : k = .error
  · rw [hk]
    decide
  · obtain ⟨p, hp, -, rfl, -⟩ := exists_pattern ha h hk
    exact kind_ne_endOfInput p.kind (List.mem_map_of_mem hp)

/-- The first token starts where the text does. -/
theorem start_of_head {p : Position} {s : Text} {t : Token} {more : List Token}
    (h : tokensAfter Pattern.list 0 p s = t :: more) : t.start = p := by
  by_cases hs : s = []
  · subst hs
    cases h
    rfl
  · obtain ⟨k, a, tags, v, rfl, ha, hfirst⟩ := exists_first hs
    rw [tokensAfter_append ha hfirst] at h
    cases h
    rfl

theorem advance_lt (p : Position) {a : Text} (ha : a ≠ []) : p.offset < (p.advance a).offset := by
  have hpos := List.length_pos_iff.2 ha
  change p.offset < p.offset + a.length
  omega

/-- All tokens but the end of input have bytes, and the end of input comes last. -/
theorem tokens_shape (p : Position) (s : Text) :
    ∃ body q, tokensAfter Pattern.list 0 p s = body ++ [Token.endAt q] ∧
      ∀ t ∈ body, t.kind ≠ .endOfInput ∧ t.start.offset < t.stop.offset := by
  induction p, s using token_induction with
  | nil p => exact ⟨[], p, rfl, by simp⟩
  | token p k a tags v ha h ih =>
    obtain ⟨body, q, hbody, hall⟩ := ih
    refine ⟨⟨k, a, p, p.advance a, tags⟩ :: body, q, ?_, ?_⟩
    · rw [tokensAfter_append ha h, hbody]
      rfl
    · intro t ht
      rcases List.mem_cons.1 ht with rfl | ht
      · exact ⟨first_kind_ne ha h, advance_lt p ha⟩
      · exact hall t ht

/-- Tokens come one behind the other. -/
theorem tokens_ordered (p : Position) (s : Text) :
    (∀ t ∈ tokensAfter Pattern.list 0 p s, p.offset ≤ t.start.offset) ∧
      (tokensAfter Pattern.list 0 p s).Pairwise fun t t' =>
        t.start.offset < t.stop.offset ∧ t.stop.offset ≤ t'.start.offset := by
  induction p, s using token_induction with
  | nil p =>
    refine ⟨?_, List.pairwise_singleton _ _⟩
    intro t ht
    rw [List.mem_singleton.1 ht]
    exact Int.le_refl _
  | token p k a tags v ha h ih =>
    obtain ⟨hfrom, hpair⟩ := ih
    have hlt := advance_lt p ha
    rw [tokensAfter_append ha h]
    refine ⟨?_, List.pairwise_cons.2 ⟨?_, hpair⟩⟩
    · intro t ht
      rcases List.mem_cons.1 ht with rfl | ht
      · exact Int.le_refl _
      · have := hfrom t ht
        omega
    · exact fun t ht => ⟨hlt, hfrom t ht⟩

/-- No token starts behind the text. -/
theorem start_le (p : Position) (s : Text) :
    ∀ t ∈ tokensAfter Pattern.list 0 p s, t.start.offset ≤ p.offset + s.length := by
  induction p, s using token_induction with
  | nil p =>
    intro t ht
    rw [List.mem_singleton.1 ht]
    exact Int.le_add_of_nonneg_right (Int.natCast_nonneg _)
  | token p k a tags v ha h ih =>
    intro t ht
    rw [tokensAfter_append ha h] at ht
    rw [List.length_append]
    rcases List.mem_cons.1 ht with rfl | ht
    · simp only
      omega
    · have hle := ih t ht
      change t.start.offset ≤ p.offset + a.length + v.length at hle
      omega

/-- A token starts where the one before stops. -/
theorem tokens_adjacent (p : Position) (s : Text) :
    ∀ {l l' : List Token} {t t' : Token},
      tokensAfter Pattern.list 0 p s = l ++ t :: t' :: l' → t'.start = t.stop := by
  induction p, s using token_induction with
  | nil p =>
    intro l l' t t' h
    have hlen := congrArg List.length h
    simp only [tokensAfter, List.length_append, List.length_cons, List.length_nil] at hlen
    omega
  | token p k a tags v ha hfirst ih =>
    intro l l' t t' h
    rw [tokensAfter_append ha hfirst] at h
    cases l with
    | nil =>
      obtain ⟨rfl, htail⟩ := List.cons.inj h
      exact start_of_head htail
    | cons y l => exact ih (List.cons.inj h).2

/-- The text at two neighbouring tokens. -/
theorem exists_text (p : Position) (s : Text) :
    ∀ {l l' : List Token} {t t' : Token},
      tokensAfter Pattern.list 0 p s = l ++ t :: t' :: l' →
        ∃ v, t.lexeme ≠ [] ∧ first (t.lexeme ++ v) = t.content ∧
          (t'.kind = .endOfInput ∨
            ∃ v', v = t'.lexeme ++ v' ∧ t'.lexeme ≠ [] ∧ first v = t'.content) := by
  induction p, s using token_induction with
  | nil p =>
    intro l l' t t' h
    have hlen := congrArg List.length h
    simp only [tokensAfter, List.length_append, List.length_cons, List.length_nil] at hlen
    omega
  | token p k a tags v ha hfirst ih =>
    intro l l' t t' h
    rw [tokensAfter_append ha hfirst] at h
    cases l with
    | nil =>
      obtain ⟨rfl, htail⟩ := List.cons.inj h
      refine ⟨v, ha, hfirst, ?_⟩
      by_cases hv : v = []
      · subst hv
        cases htail
        exact .inl rfl
      · obtain ⟨k', a', tags', v', rfl, ha', hfirst'⟩ := exists_first hv
        rw [tokensAfter_append ha' hfirst'] at htail
        obtain ⟨rfl, -⟩ := List.cons.inj htail
        exact .inr ⟨v', rfl, ha', hfirst'⟩
    | cons y l => exact ih (List.cons.inj h).2

end Lexer

/-! ## The stream of a source -/

namespace Stream

/-- The stream of a source. -/
def ofSource (source : Text) : Stream :=
  ofTokens (Lexer.lex source false)

theorem takeWhile_lex {source : Text} {body : List Token} {q : Position}
    (h : Lexer.tokens source = body ++ [Token.endAt q])
    (hbody : ∀ t ∈ body, t.kind ≠ .endOfInput) :
    (Lexer.lex source false).takeWhile (fun t => t.kind ≠ .endOfInput) =
      body.filter fun t => !t.isIgnored := by
  have hlex : Lexer.lex source false = (body.filter fun t => !t.isIgnored) ++ [Token.endAt q] := by
    rw [Lexer.lex, h]
    simp [Token.isIgnored, Token.endAt, Kind.isIgnored]
  rw [hlex, List.takeWhile_append_of_pos]
  · simp [Token.endAt]
  · intro t ht
    simpa using hbody t (List.mem_of_mem_filter ht)

theorem tokens_ofSource (source : Text) :
    (ofSource source).tokens.toList = (Lexer.tokens source).filter Token.isSeen := by
  obtain ⟨body, q, hbody, hall⟩ := Lexer.tokens_shape Position.start source
  have htokens : Lexer.tokens source = body ++ [Token.endAt q] := hbody
  have hkinds : ∀ t ∈ body, t.kind ≠ .endOfInput := fun t ht => (hall t ht).1
  have hpairs : (ofSource source).tokens.toList =
      (significant false ((Lexer.lex source false).takeWhile fun t => t.kind ≠ .endOfInput)).map
        Prod.fst := rfl
  rw [hpairs, takeWhile_lex htokens hkinds, map_fst_significant, htokens, List.filter_filter,
    List.filter_append]
  have hend : [Token.endAt q].filter Token.isSeen = [] := rfl
  rw [hend, List.append_nil]
  refine List.filter_congr ?_
  intro t ht
  have hend : decide (t.kind ≠ .endOfInput) = true := decide_eq_true (hkinds t ht)
  rw [Token.isSeen, hend, Bool.and_true, Token.isSignificant, Kind.isSignificant, Token.isIgnored]
  cases t.kind.isIgnored <;> simp

end Stream

/-! ## Neighbouring tokens -/

namespace Lexer

section Neighbours

variable {source : Text} {l l' : List Token} {t t' : Token}
  (hts : tokens source = l ++ t :: t' :: l')
include hts

theorem start_eq_stop : t'.start.offset = t.stop.offset :=
  congrArg Position.offset (tokens_adjacent Position.start source hts)

/-- The first of two neighbours has bytes, and so has the second one unless it comes last. -/
theorem neighbours_ordered : t.start.offset < t.stop.offset ∧
    (∀ y ∈ l, y.start.offset < y.stop.offset ∧ y.stop.offset ≤ t.start.offset) ∧
    ∀ y ∈ l', t'.start.offset < t'.stop.offset ∧ t'.stop.offset ≤ y.start.offset := by
  have hpair := (tokens_ordered Position.start source).2
  have htokens : tokensAfter Pattern.list 0 Position.start source = l ++ t :: t' :: l' := hts
  rw [htokens, List.pairwise_append, List.pairwise_cons, List.pairwise_cons] at hpair
  obtain ⟨-, ⟨ht, ht', -⟩, hl⟩ := hpair
  refine ⟨(ht t' List.mem_cons_self).1, ?_, ht'⟩
  exact fun y hy => hl y hy t List.mem_cons_self

omit hts in
/-- A token that the grammar sees has bytes. -/
theorem start_lt_stop {y : Token} (hy : y ∈ tokens source) (hseen : y.isSeen = true) :
    y.start.offset < y.stop.offset := by
  obtain ⟨body, q, hbody, hall⟩ := tokens_shape Position.start source
  have htokens : tokens source = body ++ [Token.endAt q] := hbody
  rw [htokens, List.mem_append, List.mem_singleton] at hy
  rcases hy with hy | rfl
  · exact (hall y hy).2
  · cases hseen

omit hts in
/-- A token that has been selected stands before a given one, is that one, or stands behind it. -/
theorem selected_cases {p : Token → Bool} {a b : List Token} {u y : Token} {i : Nat}
    (hy : ((a ++ u :: b).filter p)[i]? = some y) :
    i < (a.filter p).length ∧ y ∈ a ∨
      i = (a.filter p).length ∧ p u = true ∧ y = u ∨
      (p u = true → (a.filter p).length < i) ∧ (a.filter p).length ≤ i ∧ y ∈ b := by
  rw [List.filter_append] at hy
  by_cases hi : i < (a.filter p).length
  · rw [List.getElem?_append_left hi] at hy
    exact .inl ⟨hi, List.mem_of_mem_filter (List.mem_of_getElem? hy)⟩
  rw [List.getElem?_append_right (by omega)] at hy
  by_cases hu : p u = true
  · rw [List.filter_cons_of_pos hu] at hy
    cases hn : i - (a.filter p).length with
    | zero =>
      rw [hn] at hy
      cases hy
      exact .inr (.inl ⟨by omega, hu, rfl⟩)
    | succ n =>
      rw [hn] at hy
      have hmem := List.mem_of_mem_filter (List.mem_of_getElem? hy)
      exact .inr (.inr ⟨fun _ => by omega, by omega, hmem⟩)
  · rw [List.filter_cons_of_neg hu] at hy
    have hmem := List.mem_of_mem_filter (List.mem_of_getElem? hy)
    exact .inr (.inr ⟨fun h => absurd h hu, by omega, hmem⟩)

/-- Seen tokens by number: one starts between the neighbours only if it is the second of them. -/
theorem start_eq_iff {i : Nat} {y : Token}
    (hy : ((tokens source).filter Token.isSeen)[i]? = some y) :
    y.start.offset = t'.start.offset ↔
      i = ((l ++ [t]).filter Token.isSeen).length ∧ t'.isSeen = true := by
  obtain ⟨hlt, hl, hl'⟩ := neighbours_ordered hts
  have hadj := start_eq_stop hts
  rw [hts, List.append_cons] at hy
  rcases selected_cases hy with ⟨hi, hmem⟩ | ⟨hi, hseen, rfl⟩ | ⟨hlater, -, hmem⟩
  · have hbefore : y.start.offset < t'.start.offset := by
      rcases List.mem_append.1 hmem with hmem | hmem
      · have := hl y hmem
        omega
      · rw [List.mem_singleton.1 hmem]
        omega
    exact ⟨fun h => by omega, fun h => by omega⟩
  · exact ⟨fun _ => ⟨hi, hseen⟩, fun _ => rfl⟩
  · have hbehind := hl' y hmem
    refine ⟨fun h => by omega, fun ⟨hi, hseen⟩ => ?_⟩
    have := hlater hseen
    omega

/-- One stops between the neighbours only if it is the first of them. -/
theorem stop_eq_iff {i : Nat} {y : Token}
    (hy : ((tokens source).filter Token.isSeen)[i]? = some y) :
    y.stop.offset = t'.start.offset ↔
      i + 1 = ((l ++ [t]).filter Token.isSeen).length ∧ t.isSeen = true := by
  obtain ⟨hlt, hl, hl'⟩ := neighbours_ordered hts
  have hadj := start_eq_stop hts
  have hseen := List.mem_filter.1 (List.mem_of_getElem? hy)
  have hpos := start_lt_stop hseen.1 hseen.2
  have hlength : t.isSeen = true →
      ((l ++ [t]).filter Token.isSeen).length = (l.filter Token.isSeen).length + 1 := by
    intro ht
    rw [List.filter_append, List.filter_cons_of_pos ht, List.length_append]
    rfl
  rw [hts] at hy
  rcases selected_cases hy with ⟨hi, hmem⟩ | ⟨hi, ht, rfl⟩ | ⟨hlater, -, hmem⟩
  · have hbefore := hl y hmem
    refine ⟨fun h => by omega, fun ⟨hi', ht⟩ => ?_⟩
    have := hlength ht
    omega
  · exact ⟨fun _ => ⟨by rw [hlength ht, hi], ht⟩, fun _ => hadj.symm⟩
  · have hbehind : t'.start.offset < y.stop.offset := by
      rcases List.mem_cons.1 hmem with rfl | hmem
      · exact hpos
      · have := hl' y hmem
        omega
    refine ⟨fun h => by omega, fun ⟨hi', ht⟩ => ?_⟩
    have := hlength ht
    have := hlater ht
    omega

end Neighbours

/-- Behind a token that the grammar sees there is another one. -/
theorem exists_neighbour {source : Text} {y : Token} (hy : y ∈ tokens source)
    (hseen : y.isSeen = true) : ∃ l t' l', tokens source = l ++ y :: t' :: l' := by
  obtain ⟨body, q, hbody, -⟩ := tokens_shape Position.start source
  have htokens : tokens source = body ++ [Token.endAt q] := hbody
  rw [htokens, List.mem_append, List.mem_singleton] at hy
  rcases hy with hy | rfl
  · obtain ⟨l, l', rfl⟩ := List.append_of_mem hy
    rw [htokens]
    cases l' with
    | nil => exact ⟨l, Token.endAt q, [], by simp⟩
    | cons t' l' => exact ⟨l, t', l' ++ [Token.endAt q], by simp⟩
  · cases hseen

end Lexer

/-! ## Where edits point to -/

namespace Stream

theorem length_symbols (source : Text) :
    (ofSource source).symbols.length = ((Lexer.tokens source).filter Token.isSeen).length := by
  rw [← tokens_ofSource]
  simp [ofSource, ofTokens]

theorem token_ofSource {source : Text} {i : Nat} (hi : i < (ofSource source).symbols.length) :
    ((Lexer.tokens source).filter Token.isSeen)[i]? = some ((ofSource source).token i) := by
  have hsize : i < (ofSource source).tokens.size := by
    rw [← Array.length_toList, tokens_ofSource, ← length_symbols]
    exact hi
  rw [← tokens_ofSource, token, Array.getElem?_toList, Array.getD_eq_getD_getElem?,
    Array.getElem?_eq_getElem hsize]
  rfl

/-- Each symbol is the one of a token. -/
theorem exists_symbol {source : Text} {i : Nat} {s : Symbol}
    (h : (ofSource source).symbols[i]? = some s) :
    ∃ broken, s = Symbol.ofToken broken ((ofSource source).token i) := by
  have hi : i < (ofSource source).symbols.length := (List.getElem?_eq_some_iff.1 h).1
  have htoken := token_ofSource hi
  rw [← tokens_ofSource] at htoken
  simp only [ofSource, ofTokens, List.getElem?_map] at h htoken ⊢
  cases hpair : (significant false ((Lexer.lex source false).takeWhile
      fun t => t.kind ≠ .endOfInput))[i]? with
  | none =>
    rw [hpair] at h
    cases h
  | some pair =>
    rw [hpair] at h htoken
    refine ⟨pair.2, ?_⟩
    rw [← Option.some.inj htoken]
    exact (Option.some.inj h).symm

/-- Conversely, each token that the grammar sees has a symbol. -/
theorem exists_mem_symbols {source : Text} {t : Token} (ht : t ∈ Lexer.tokens source)
    (hseen : t.isSeen = true) : ∃ s ∈ (ofSource source).symbols, s.kind = t.kind := by
  have hmem : t ∈ (ofSource source).tokens.toList := by
    rw [tokens_ofSource]
    exact List.mem_filter.2 ⟨ht, hseen⟩
  have hpairs : t ∈ (significant false ((Lexer.lex source false).takeWhile
      fun t => t.kind ≠ .endOfInput)).map Prod.fst := hmem
  obtain ⟨pair, hpair, rfl⟩ := List.mem_map.1 hpairs
  exact ⟨_, List.mem_map_of_mem hpair, rfl⟩

end Stream

namespace Grammar

/-- Whether something may be put in between two neighbouring tokens: a mark stands behind a token
that the grammar sees, an opening before one. -/
def Put.fitsBetween (t t' : Token) : Put → Bool
  | .behind _ => t.isSeen
  | .before _ => t'.isSeen

/-- An edit points between two neighbouring tokens if it is meant for their boundary and for one of
them. -/
theorem Put.offset_edit_iff {source : Text} {l l' : List Token} {t t' : Token}
    (hts : Lexer.tokens source = l ++ t :: t' :: l') {x : Nat × Put}
    (hx : Proper 0 (Stream.ofSource source).symbols x) (hpos : 0 < x.1) :
    (Put.edit (Stream.ofSource source) x).offset = t'.start.offset ↔
      x.1 = ((l ++ [t]).filter Token.isSeen).length ∧ x.2.fitsBetween t t' = true := by
  match x, hx with
  | (m, .behind k), ⟨_, hle, _⟩ =>
    have hm : m - 1 < (Stream.ofSource source).symbols.length := by
      simp only at hpos
      omega
    have hiff := Lexer.stop_eq_iff hts (Stream.token_ofSource hm)
    rw [Nat.sub_add_cancel hpos] at hiff
    exact hiff
  | (m, .before none), ⟨_, hlt⟩ =>
    exact Lexer.start_eq_iff hts (Stream.token_ofSource (by omega))
  | (m, .before (some T)), ⟨_, i, sign, hm, hi, _, _⟩ =>
    exact Lexer.start_eq_iff hts (Stream.token_ofSource (by omega))

end Grammar

end ShaderRepair

import ShaderRepair.Proofs.Evaluation
import ShaderRepair.Proofs.FollowDocument
import ShaderRepair.Proofs.RelocateEdits
import ShaderRepair.Proofs.RestoreDocument

/-!
# Tokens that a parse does not depend on

White space, comments, directives and the end of input say nothing to the parser. This file
contains:
- `Stream.pairs_filter_ignored` and `Stream.pairs_concat`, lists of tokens with the same significant
  tokens;
- `Stream.symbols_ofSource` and `Stream.toList_ofSource`, what the stream of a source has;
- `Document.parseTokens_insignificant`, for the tokens of a source;
- `Document.evaluates_insignificant`, where ignored tokens are stepped over one by one.
-/

namespace ShaderRepair

open Grammar

namespace Stream

variable {w : List Token}

/-! ## Lists with the same significant tokens -/

theorem significant_filter_ignored (broken : Bool) (tokens : List Token) :
    significant broken (tokens.filter fun t => !t.isIgnored) = significant broken tokens := by
  induction tokens generalizing broken with
  | nil => rfl
  | cons t tokens ih =>
    cases ht : t.isIgnored with
    | true => rw [List.filter_cons_of_neg (by simp [ht]), significant, if_pos ht, ih]
    | false =>
      rw [List.filter_cons_of_pos (by simp [ht]), significant, significant, ih, ih, ih]

/-- The same words are seen if their kinds are the same. -/
theorem significant_map (f : Token → Token) (hf : ∀ t, (f t).kind = t.kind) (b : Bool)
    (tokens : List Token) :
    significant b (tokens.map f) = (significant b tokens).map fun x => (f x.1, x.2) := by
  induction tokens generalizing b with
  | nil => rfl
  | cons t tokens ih =>
    rw [List.map_cons, significant, significant, Token.isIgnored, Token.isIgnored, hf, ih, ih, ih]
    split
    · rfl
    split
    · rfl
    · rfl

theorem takeWhile_of_kind (h : ∀ t ∈ w, t.kind ≠ .endOfInput) (more : List Token) :
    (w ++ more).takeWhile (fun t => t.kind ≠ .endOfInput) =
      w ++ more.takeWhile fun t => t.kind ≠ .endOfInput :=
  List.takeWhile_append_of_pos fun t ht => decide_eq_true (h t ht)

theorem pairs_of_kind (h : ∀ t ∈ w, t.kind ≠ .endOfInput) : pairs w = significant false w := by
  have htake := takeWhile_of_kind h []
  rw [List.append_nil, List.takeWhile_nil, List.append_nil] at htake
  rw [pairs, htake]

/-- The end of input shows no symbol. -/
theorem pairs_concat (h : ∀ t ∈ w, t.kind ≠ .endOfInput) (p : Position) :
    pairs (w ++ [Token.endAt p]) = pairs w := by
  have hend : [Token.endAt p].takeWhile (fun t => t.kind ≠ .endOfInput) = [] := rfl
  rw [pairs_of_kind h, pairs, takeWhile_of_kind h, hend, List.append_nil]

/-- Ignored tokens show none either. -/
theorem pairs_filter_ignored (h : ∀ t ∈ w, t.kind ≠ .endOfInput) :
    pairs (w.filter fun t => !t.isIgnored) = pairs w := by
  rw [pairs_of_kind h, pairs_of_kind fun t ht => h t (List.mem_of_mem_filter ht),
    significant_filter_ignored]

theorem finishOf_concat (h : ∀ t ∈ w, t.kind ≠ .endOfInput) (p : Position) :
    finishOf (w ++ [Token.endAt p]) = Token.endAt p := by
  have hnone : w.find? (fun t => t.kind = .endOfInput) = none :=
    List.find?_eq_none.2 fun t ht => by simpa using h t ht
  have hfind : (w ++ [Token.endAt p]).find? (fun t => t.kind = .endOfInput) =
      some (Token.endAt p) := by
    rw [List.find?_append, hnone]
    rfl
  rw [finishOf, hfind]

/-- Where there is no end of input, one is made up. -/
theorem exists_finishOf (h : ∀ t ∈ w, t.kind ≠ .endOfInput) :
    ∃ p, finishOf w = Token.endAt p := by
  have hnone : w.find? (fun t => t.kind = .endOfInput) = none :=
    List.find?_eq_none.2 fun t ht => by simpa using h t ht
  rw [finishOf, hnone]
  cases w.getLast? with
  | none => exact ⟨Position.zero, rfl⟩
  | some t => exact ⟨t.stop, rfl⟩

/-! ## Streams with the same significant tokens -/

theorem ofTokens_congr {tokens tokens' : List Token} (hpairs : pairs tokens' = pairs tokens)
    (hfinish : finishOf tokens' = finishOf tokens) : ofTokens tokens' = ofTokens tokens := by
  have hstream : ∀ tokens, ofTokens tokens = ⟨((pairs tokens).map Prod.fst).toArray,
      (pairs tokens).map fun x => Symbol.ofToken x.2 x.1, finishOf tokens⟩ := fun _ => rfl
  rw [hstream, hstream tokens, hpairs, hfinish]

/-- Streams with the same significant tokens look up the same, or both of them an end of input. -/
theorem token_congr {tokens tokens' : List Token} (hpairs : pairs tokens' = pairs tokens)
    (i : Nat) :
    (i < (ofTokens tokens).symbols.length ∧
      (ofTokens tokens').token i = (ofTokens tokens).token i) ∨
    ((ofTokens tokens).token i = finishOf tokens ∧
      (ofTokens tokens').token i = finishOf tokens') := by
  cases hx : (pairs tokens)[i]? with
  | none =>
    have hx' : (pairs tokens')[i]? = none := by rw [hpairs, hx]
    exact .inr ⟨token_of_none hx, token_of_none hx'⟩
  | some x =>
    have hx' : (pairs tokens')[i]? = some x := by rw [hpairs, hx]
    refine .inl ⟨?_, by rw [token_of_pair hx, token_of_pair hx']⟩
    rw [symbols_ofTokens, List.length_map]
    exact (List.getElem?_eq_some_iff.1 hx).1

theorem token_of_lt {tokens tokens' : List Token} (hpairs : pairs tokens' = pairs tokens) {i : Nat}
    (hi : i < (ofTokens tokens).symbols.length) :
    (ofTokens tokens').token i = (ofTokens tokens).token i := by
  rw [symbols_ofTokens, List.length_map] at hi
  have hx := List.getElem?_eq_getElem hi
  have hx' : (pairs tokens')[i]? = some (pairs tokens)[i] := by rw [hpairs, hx]
  rw [token_of_pair hx, token_of_pair hx']

/-! ## The stream of a source -/

theorem token_eq (stream : Stream) (i : Nat) :
    stream.token i = stream.tokens.toList[i]?.getD stream.finish := by
  rw [token, Array.getElem?_toList, Array.getD_eq_getD_getElem?]

/-! What a source that has the tokens `body` shows. -/

section Layout

variable {source : Text} {body : List Token} {q : Position}
  (h : Lexer.tokens source = body ++ [Token.endAt q])
include h

theorem toList_ofSource : (ofSource source).tokens.toList = body.filter Token.isSeen := by
  rw [tokens_ofSource, h, List.filter_append]
  exact List.append_nil _

theorem length_ofSource : (ofSource source).symbols.length = (body.filter Token.isSeen).length := by
  rw [length_symbols, ← tokens_ofSource, toList_ofSource h]

theorem pairs_lex (hbody : ∀ t ∈ body, t.kind ≠ .endOfInput) :
    pairs (Lexer.lex source false) = significant false body := by
  rw [pairs, takeWhile_lex h hbody, significant_filter_ignored]

theorem symbols_ofSource (hbody : ∀ t ∈ body, t.kind ≠ .endOfInput) :
    (ofSource source).symbols =
      (significant false body).map fun x => Symbol.ofToken x.2 x.1 := by
  rw [ofSource, symbols_ofTokens, pairs_lex h hbody]

theorem finish_ofSource (hbody : ∀ t ∈ body, t.kind ≠ .endOfInput) :
    (ofSource source).finish = Token.endAt q := by
  have hlex : Lexer.lex source false =
      (body.filter fun t => !t.isIgnored) ++ [Token.endAt q] := by
    have hone : [Token.endAt q].filter (fun t => !t.isIgnored) = [Token.endAt q] := rfl
    rw [Lexer.lex, h, if_neg Bool.false_ne_true, List.filter_append, hone]
  have hfinish : (ofSource source).finish = finishOf (Lexer.lex source false) := rfl
  rw [hfinish, hlex, finishOf_concat fun t ht => hbody t (List.mem_of_mem_filter ht)]

end Layout

/-- Every token that is looked up is a token of the source. -/
theorem token_mem (source : Text) (i : Nat) : (ofSource source).token i ∈ Lexer.tokens source := by
  obtain ⟨body, q, hbody, hall⟩ := Lexer.tokens_shape Position.start source
  have hkinds : ∀ t ∈ body, t.kind ≠ .endOfInput := fun t ht => (hall t ht).1
  rw [token_eq, tokens_ofSource]
  cases hi : ((Lexer.tokens source).filter Token.isSeen)[i]? with
  | some t => exact List.mem_of_mem_filter (List.mem_of_getElem? hi)
  | none =>
    rw [Option.getD_none, finish_ofSource hbody hkinds, show Lexer.tokens source = _ from hbody]
    simp

end Stream

/-- A semicolon in front of the end of input stands at a line end. -/
theorem Correction.semicolonCategory_endOfInput {last next : Token}
    (h : next.kind = .endOfInput) : semicolonCategory last next = .lineEnd := by
  simp [semicolonCategory, h]

/-- The places of two streams with the same significant tokens are the same. -/
theorem Stream.displaces_of_pairs {tokens tokens' : List Token}
    (hpairs : pairs tokens' = pairs tokens) :
    (ofTokens tokens).Displaces (ofTokens tokens') (ofTokens tokens).symbols.length 0 id id := by
  refine ⟨fun i hi => token_of_lt hpairs hi, fun _ _ _ => rfl, fun _ _ _ => rfl, fun i hi => ?_⟩
  have hnext : (ofTokens tokens').token (i + 1) = (ofTokens tokens).token (i + 1) ∨
      (((ofTokens tokens').token (i + 1)).kind = .endOfInput ∧
        ((ofTokens tokens).token (i + 1)).kind = .endOfInput) := by
    rcases token_congr hpairs (i + 1) with ⟨-, heq⟩ | ⟨hfinish, hfinish'⟩
    · exact .inl heq
    · rw [hfinish, hfinish']
      exact .inr ⟨kind_finishOf _, kind_finishOf _⟩
  rw [Nat.add_zero, Nat.add_zero, token_of_lt hpairs hi]
  rcases hnext with heq | ⟨hk', hk⟩
  · rw [heq]
  · rw [Correction.semicolonCategory_endOfInput hk', Correction.semicolonCategory_endOfInput hk]

/-! ## Parses -/

namespace Document

/-- Two lists with the same significant tokens are parsed to one report, or to errors that expect
the same at the same token. Only an end of input may be another one. -/
theorem parseTokens_pairs {tokens tokens' : List Token}
    (hpairs : Stream.pairs tokens' = Stream.pairs tokens) (source : Text) (o : Options) :
    (∃ report, parseTokens tokens source o = .ok report ∧
      parseTokens tokens' source o = .ok report) ∨
    ∃ e e', parseTokens tokens source o = .error e ∧ parseTokens tokens' source o = .error e' ∧
      e'.expected = e.expected ∧ e'.source = e.source ∧
      (e'.token = e.token ∨
        (e.token = Stream.finishOf tokens ∧ e'.token = Stream.finishOf tokens')) := by
  have hsymbols : (Stream.ofTokens tokens').symbols = (Stream.ofTokens tokens).symbols := by
    rw [Stream.symbols_ofTokens, Stream.symbols_ofTokens, hpairs]
  have hrelabels : Relabels (Stream.ofTokens tokens).symbols (Stream.ofTokens tokens').symbols :=
    hsymbols ▸ Relabels.refl _
  have hagree : ∀ i < (Stream.ofTokens tokens).symbols.length,
      (Stream.ofTokens tokens).token i = (Stream.ofTokens tokens').token i :=
    fun i hi => (Stream.token_of_lt hpairs hi).symm
  rcases parseTokens_relabelled hrelabels hagree with
    ⟨ns, ns', R, hsame, hR, hparse⟩ | ⟨why, why', hpoints, hparse⟩
  · left
    obtain ⟨hok, hok'⟩ := hparse source o
    refine ⟨_, hok, hok'.trans (congrArg Except.ok ?_)⟩
    have hmoves := Stream.displaces_of_pairs hpairs
    have hedits := hmoves.edits_report hR o ns ns'
    have htally := hmoves.tally_report hR o ns ns'
    rw [Repair.map_move_zero] at hedits htally
    rw [List.map_id] at hedits
    exact Report.eq_of (Relocation.module_of_same hsame).symm hedits htally
  · right
    obtain ⟨herror, herror'⟩ := hparse source o
    refine ⟨_, _, herror, herror', congrArg (List.map Expectation.describe) hpoints.expected,
      rfl, ?_⟩
    rcases hpoints.index with hsame | ⟨hend, hend'⟩
    · exact .inl hsame.symm
    -- Both indices are those behind the last symbol.
    · have hlast := Stream.token_congr hpairs (Stream.ofTokens tokens).symbols.length
      obtain ⟨hfinish, hfinish'⟩ := hlast.resolve_left fun h => Nat.lt_irrefl _ h.1
      refine .inr ⟨?_, ?_⟩
      · rw [← hfinish, ← show why.index = (Stream.ofTokens tokens).symbols.length from hend]
        rfl
      · rw [← hfinish', ← show why'.index = (Stream.ofTokens tokens).symbols.length from hend']
        rfl

/-- The tokens of a source end with an end of input, and those that are ignored make no symbols. -/
theorem lex_shape (s : Text) :
    ∃ left p, Lexer.lex s false = left ++ [Token.endAt p] ∧ (∀ t ∈ left, t.kind ≠ .endOfInput) ∧
      Stream.ofTokens (Lexer.lex s true) = Stream.ofTokens (Lexer.lex s false) := by
  obtain ⟨body, p, hbody, hall⟩ := Lexer.tokens_shape Position.start s
  have hkinds : ∀ t ∈ body, t.kind ≠ .endOfInput := fun t ht => (hall t ht).1
  have hleft : ∀ t ∈ body.filter fun t => !t.isIgnored, t.kind ≠ .endOfInput :=
    fun t ht => hkinds t (List.mem_of_mem_filter ht)
  have hkept : Lexer.lex s true = body ++ [Token.endAt p] := hbody
  have hlex : Lexer.lex s false = (body.filter fun t => !t.isIgnored) ++ [Token.endAt p] := by
    have hend : [Token.endAt p].filter (fun t => !t.isIgnored) = [Token.endAt p] := rfl
    rw [Lexer.lex, show Lexer.tokens s = body ++ [Token.endAt p] from hbody,
      if_neg Bool.false_ne_true, List.filter_append, hend]
  refine ⟨_, p, hlex, hleft, ?_⟩
  rw [hkept, hlex]
  refine Stream.ofTokens_congr ?_ ?_
  · rw [Stream.pairs_concat hkinds, Stream.pairs_concat hleft, Stream.pairs_filter_ignored hkinds]
  · rw [Stream.finishOf_concat hkinds, Stream.finishOf_concat hleft]

/-- Ignored tokens do not change the answer to the tokens of a source. Without its end of input, the
last of them, the report is the same, and an error expects the same at the same token, unless that
is the end of input, which may get another place. -/
theorem parseTokens_insignificant (s source : Text) (o : Options) :
    parseTokens (Lexer.lex s true) source o = parseTokens (Lexer.lex s false) source o ∧
    (∃ p, (Lexer.lex s false).getLast? = some (Token.endAt p)) ∧
    ((∃ report, parseTokens (Lexer.lex s false) source o = .ok report ∧
      parseTokens (Lexer.lex s false).dropLast source o = .ok report) ∨
    ∃ e e', parseTokens (Lexer.lex s false) source o = .error e ∧
      parseTokens (Lexer.lex s false).dropLast source o = .error e' ∧
      e'.expected = e.expected ∧ e'.source = e.source ∧
      (e'.token = e.token ∨
        ∃ p p', e.token = Token.endAt p ∧ e'.token = Token.endAt p')) := by
  obtain ⟨left, p, hlex, hleft, hstream⟩ := lex_shape s
  refine ⟨?_, ⟨p, hlex ▸ List.getLast?_concat⟩, ?_⟩
  · -- Ignored tokens make no symbols, so the two lists have one stream.
    rw [parseTokens, parseTokens, Session.start, Session.start, hstream]
  · -- Without the end of input the symbols stay, and only what stands for their end changes.
    rw [hlex, List.dropLast_concat]
    rcases parseTokens_pairs (Stream.pairs_concat hleft p).symm source o with
      hok | ⟨e, e', he, he', hexpected, hsource, htoken⟩
    · exact .inl hok
    · refine .inr ⟨e, e', he, he', hexpected, hsource, ?_⟩
      rcases htoken with hsame | ⟨hend, hend'⟩
      · exact .inl hsame
      · obtain ⟨p', hp'⟩ := Stream.exists_finishOf hleft
        exact .inr ⟨p, p', hend.trans (Stream.finishOf_concat hleft p), hend'.trans hp'⟩

/-- The cursor steps over ignored tokens. Where they are in the list, a session evaluates to the
same as where they are not, and a descent answers the same. -/
theorem evaluates_insignificant (s source : Text) (o : Options) :
    (∀ r, ((Session.start (Lexer.lex s true) o).setSource source).Evaluates
        (Cursor.ended (Lexer.lex s true)) 0 r ↔
      ((Session.start (Lexer.lex s false) o).setSource source).Evaluates
        (Cursor.ended (Lexer.lex s false)) 0 r) ∧
    (Descent.start (Lexer.lex s true) source o).parse =
      (Descent.start (Lexer.lex s false) source o).parse := by
  obtain ⟨-, -, -, -, hstream⟩ := lex_shape s
  have hstart : Session.start (Lexer.lex s true) o = Session.start (Lexer.lex s false) o := by
    rw [Session.start, Session.start, hstream]
  refine ⟨fun r => ?_, ?_⟩
  · rw [Session.evaluates_iff, Session.evaluates_iff, hstart]
  · rw [Descent.parse_eq, Descent.parse_eq, parseTokens, parseTokens, hstart]

end Document

end ShaderRepair

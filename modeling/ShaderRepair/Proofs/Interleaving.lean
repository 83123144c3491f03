import ShaderRepair.Proofs.Insertions

/-!
# Symbols of a repaired text

With all edits made, the symbols of the text are the new symbols of the pieces. This file contains:
- `Symbol.ofContents`, the symbols that a list of tokens shows;
- `Piece.unmarked`, pieces without the marks they begin with, and how these determine what stands at
  the next boundary;
- `Put.interleave`, tokens with what is put in between, and that it shows the new symbols;
- `Document.symbols_splice`.
-/

namespace ShaderRepair

open Lexer Grammar Grammar.Piece

/-! ## Symbols of tokens -/

/-- The symbols that tokens show; `broken` tells about a line break that has been passed already. -/
def Symbol.ofContents : Bool → List (Kind × Text × Tags) → List Symbol
  | _, [] => []
  | broken, (k, w, tags) :: more =>
    if k.isIgnored then ofContents broken more
    else if k = .lineBreak then ofContents true more
    else if k = .endOfInput then ofContents broken more
    else ⟨k, w, tags, broken⟩ :: ofContents false more

namespace Symbol

theorem ofContents_seen {t : Token} (h : t.isSeen = true) (broken : Bool)
    (more : List (Kind × Text × Tags)) :
    ofContents broken (t.content :: more) = ofToken broken t :: ofContents false more := by
  obtain ⟨hsig, hend⟩ := Token.isSeen_iff.1 h
  simp only [Token.isSignificant, Kind.isSignificant, Bool.and_eq_true, Bool.not_eq_true',
    bne_iff_ne, ne_eq] at hsig
  simp [ofContents, Token.content, hsig.1, hsig.2, hend, ofToken]

/-- A token that is not seen shows no symbol, and at most a line break. -/
theorem ofContents_unseen {t : Token} (h : t.isSeen = false) (broken : Bool) :
    ∃ broken', ∀ more, ofContents broken (t.content :: more) = ofContents broken' more := by
  by_cases hign : t.kind.isIgnored = true
  · exact ⟨broken, fun more => by simp [ofContents, Token.content, hign]⟩
  by_cases hbreak : t.kind = .lineBreak
  · exact ⟨true, fun more => by simp [ofContents, Token.content, hbreak, Kind.isIgnored]⟩
  have hend : t.kind = .endOfInput := by
    simpa [Token.isSeen, Token.isSignificant, Kind.isSignificant, hign, hbreak] using h
  exact ⟨broken, fun more => by simp [ofContents, Token.content, hend, Kind.isIgnored]⟩

theorem ofContents_significant (broken : Bool) (ts : List Token)
    (h : ∀ t ∈ ts, t.kind ≠ .endOfInput) :
    (Stream.significant broken (ts.filter fun t => !t.isIgnored)).map
        (fun (t, broken) => ofToken broken t) = ofContents broken (ts.map Token.content) := by
  induction ts generalizing broken with
  | nil => rfl
  | cons t ts ih =>
    have hts : ∀ t ∈ ts, t.kind ≠ .endOfInput := fun t ht => h t (List.mem_cons_of_mem _ ht)
    have hend := h t List.mem_cons_self
    by_cases hign : t.isIgnored = true
    · have hkind : t.kind.isIgnored = true := hign
      rw [List.filter_cons_of_neg (by simp [hign]), ih broken hts, List.map_cons, Token.content,
        ofContents, if_pos hkind]
    · have hkind : ¬t.kind.isIgnored = true := hign
      rw [List.filter_cons_of_pos (by simp [hign]), Stream.significant, if_neg hign,
        List.map_cons, Token.content, ofContents, if_neg hkind]
      by_cases hbreak : t.kind = .lineBreak
      · rw [if_pos hbreak, if_pos hbreak, ih true hts]
      · rw [if_neg hbreak, if_neg hbreak, if_neg hend, List.map_cons, ih false hts]
        rfl

theorem ofContents_append_end (broken : Bool) (cs : List (Kind × Text × Tags)) (q : Position) :
    ofContents broken (cs ++ [(Token.endAt q).content]) = ofContents broken cs := by
  induction cs generalizing broken with
  | nil => rfl
  | cons c cs ih =>
    obtain ⟨k, w, tags⟩ := c
    simp only [List.cons_append, ofContents, ih]

/-- The symbols of a source are those of its tokens. -/
theorem symbols_ofSource (source : Text) :
    (Stream.ofSource source).symbols = ofContents false (Lexer.contents source) := by
  obtain ⟨body, q, hbody, hall⟩ := tokens_shape Position.start source
  have htokens : tokens source = body ++ [Token.endAt q] := hbody
  have hkinds : ∀ t ∈ body, t.kind ≠ .endOfInput := fun t ht => (hall t ht).1
  have hpairs : (Stream.ofSource source).symbols =
      (Stream.significant false ((lex source false).takeWhile fun t => t.kind ≠ .endOfInput)).map
        fun (t, broken) => ofToken broken t := rfl
  rw [hpairs, Stream.takeWhile_lex htokens hkinds, ofContents_significant false body hkinds,
    Lexer.contents, htokens, List.map_append, List.map_singleton, ofContents_append_end]

end Symbol

/-! ## Pieces at a boundary -/

namespace Grammar.Piece

/-- The marks that pieces begin with. -/
def marks : List Piece → List Kind
  | .behind k :: P => k :: marks P
  | _ => []

/-- The pieces behind these marks. -/
def unmarked : List Piece → List Piece
  | .behind _ :: P => unmarked P
  | P => P

theorem marks_append_unmarked (P : List Piece) : (marks P).map .behind ++ unmarked P = P := by
  induction P with
  | nil => rfl
  | cons p P ih =>
    cases p with
    | kept s => rfl
    | behind k => exact congrArg _ ih
    | opened type s => rfl

theorem new_eq (P : List Piece) : new P = (marks P).map Symbol.mark ++ new (unmarked P) := by
  have hmarks : new ((marks P).map .behind) = (marks P).map Symbol.mark := by
    rw [new, List.flatMap_map]
    exact List.map_eq_flatMap.symm
  rw [← hmarks, ← new_append, marks_append_unmarked]

theorem gap_zero (P : List Piece) :
    gap P 0 = (marks P).map .behind ++ gap (unmarked P) 0 := by
  induction P with
  | nil => rfl
  | cons p P ih =>
    cases p with
    | kept s => rfl
    | behind k => exact congrArg _ ih
    | opened type s => rfl

theorem gap_succ (P : List Piece) (j : Nat) : gap P (j + 1) = gap (unmarked P) (j + 1) := by
  induction P with
  | nil => rfl
  | cons p P ih =>
    cases p with
    | kept s => rfl
    | behind k => exact ih
    | opened type s => rfl

/-- Behind the marks at most one thing opens. -/
theorem gap_unmarked (P : List Piece) :
    gap (unmarked P) 0 = [] ∨ ∃ type, gap (unmarked P) 0 = [.before type] := by
  induction P with
  | nil => exact .inl rfl
  | cons p P ih =>
    cases p with
    | kept s => exact .inl rfl
    | behind k => exact ih
    | opened type s => exact .inr ⟨type, rfl⟩

/-- Behind the marks there is the first symbol, with or without something that opens before it. -/
theorem unmarked_cases {P : List Piece} {s : Symbol} {w : List Symbol} (h : old P = s :: w) :
    ∃ P', old P' = w ∧
      (unmarked P = .kept s :: P' ∨ ∃ type, unmarked P = .opened type s :: P') := by
  induction P with
  | nil => cases h
  | cons p P ih =>
    cases p with
    | kept s' =>
      cases h
      exact ⟨P, rfl, .inl rfl⟩
    | behind k => exact ih h
    | opened type s' =>
      cases h
      exact ⟨P, rfl, .inr ⟨type, rfl⟩⟩

theorem unmarked_eq_nil {P : List Piece} (h : old P = []) : unmarked P = [] := by
  induction P with
  | nil => rfl
  | cons p P ih =>
    cases p with
    | kept s => cases h
    | behind k => exact ih h
    | opened type s => cases h

end Grammar.Piece

/-! ## Tokens with what is put in between -/

namespace Grammar.Put

/-- The tokens behind `t`, with what is put in before each of them; `g` tells what there is at each
boundary, and the next boundary has the number 0. -/
def interleave (g : Nat → List Put) (t : Token) : List Token → List (Kind × Text × Tags)
  | [] => []
  | t' :: more =>
    ((g 0).filter (Put.fitsBetween t t')).flatMap Put.contents ++
      t'.content :: interleave (if t'.isSeen then fun j => g (j + 1) else g) t' more

theorem filter_gap (P : List Piece) (t t' : Token) :
    (gap P 0).filter (Put.fitsBetween t t') =
      (if t.isSeen then (marks P).map .behind else []) ++
        if t'.isSeen then gap (unmarked P) 0 else [] := by
  have hmarks : ((marks P).map .behind).filter (Put.fitsBetween t t') =
      if t.isSeen then (marks P).map .behind else [] := by
    cases h : t.isSeen <;> simp [List.filter_map, Function.comp_def, Put.fitsBetween, h]
  have hopening : (gap (unmarked P) 0).filter (Put.fitsBetween t t') =
      if t'.isSeen then gap (unmarked P) 0 else [] := by
    rcases gap_unmarked P with hgap | ⟨type, hgap⟩
    · rw [hgap]
      cases t'.isSeen <;> rfl
    · rw [hgap]
      cases h : t'.isSeen <;> simp [Put.fitsBetween, h]
  rw [gap_zero, List.filter_append, hmarks, hopening]

/-- Marks right behind a symbol show as symbols without a line break. -/
theorem ofContents_marks {ks : List Kind} (h : ∀ k ∈ ks, isMark k = true)
    (more : List (Kind × Text × Tags)) :
    Symbol.ofContents false ((ks.map .behind).flatMap Put.contents ++ more) =
      ks.map Symbol.mark ++ Symbol.ofContents false more := by
  induction ks with
  | nil => rfl
  | cons k ks ih =>
    have hk := h k List.mem_cons_self
    have hmore := ih fun k' hk' => h k' (List.mem_cons_of_mem k hk')
    have hsymbol : ∀ cs, Symbol.ofContents false ((k, k.name, Tags.none) :: cs) =
        Symbol.mark k :: Symbol.ofContents false cs := by
      intro cs
      match k, hk with
      | .semicolon, _ => rfl
      | .colon, _ => rfl
      | .comma, _ => rfl
      | .leftParen, _ => rfl
      | .rightParen, _ => rfl
    rw [List.map_cons, List.flatMap_cons, List.map_cons, List.cons_append, ← hmore]
    exact hsymbol _

/-- What opens before a symbol takes the line break before it. -/
theorem ofContents_before (type : Option Text) (broken : Bool) {t : Token}
    (ht : t.isSeen = true) (more : List (Kind × Text × Tags)) :
    Symbol.ofContents broken (Put.contents (.before type) ++ t.content :: more) =
      opening type broken ++ Symbol.ofToken false t :: Symbol.ofContents false more := by
  have hseen := Symbol.ofContents_seen ht false more
  cases type with
  | none =>
    rw [← hseen]
    rfl
  | some T =>
    rw [← hseen]
    rfl

/-- What stands before the next token `t'`: marks, and then what opens before it. -/
theorem ofContents_gap {P : List Piece} (hP : ∀ k, .behind k ∈ P → isMark k = true) {t : Token}
    {broken : Bool} (hbroken : t.isSeen = true → broken = false) (t' : Token)
    (more : List (Kind × Text × Tags)) :
    Symbol.ofContents broken
        (((gap P 0).filter (Put.fitsBetween t t')).flatMap Put.contents ++ more) =
      (if t.isSeen then (marks P).map Symbol.mark else []) ++
        Symbol.ofContents broken
          ((if t'.isSeen then gap (unmarked P) 0 else []).flatMap Put.contents ++ more) := by
  have hmarks : ∀ k ∈ marks P, isMark k = true := by
    intro k hk
    refine hP k ?_
    rw [← marks_append_unmarked P]
    exact List.mem_append_left _ (List.mem_map_of_mem hk)
  rw [filter_gap, List.flatMap_append, List.append_assoc]
  cases h : t.isSeen with
  | true =>
    rw [hbroken h]
    exact ofContents_marks hmarks _
  | false => rfl

theorem new_eq_ite (P : List Piece) (b : Bool) :
    (if b then new P else new (unmarked P)) =
      (if b then (marks P).map Symbol.mark else []) ++ new (unmarked P) := by
  cases b with
  | true => exact new_eq P
  | false => rfl

/-- Tokens with what the pieces have between them show the new symbols of the pieces. Where the last
token was not seen, the marks behind the last symbol stand before it already. -/
theorem ofContents_interleave (q : Position) (body : List Token) :
    ∀ {t : Token} {broken : Bool} {P : List Piece},
      (∀ k, .behind k ∈ P → isMark k = true) → (t.isSeen = true → broken = false) →
      old P = Symbol.ofContents broken (body.map Token.content) →
      Symbol.ofContents broken (interleave (gap P) t (body ++ [Token.endAt q])) =
        if t.isSeen then new P else new (unmarked P) := by
  induction body with
  | nil =>
    intro t broken P hP hbroken hold
    have hnil : unmarked P = [] := unmarked_eq_nil hold
    rw [List.nil_append, interleave, ofContents_gap hP hbroken, new_eq_ite, hnil]
    rfl
  | cons t' body ih =>
    intro t broken P hP hbroken hold
    rw [List.cons_append, interleave, ofContents_gap hP hbroken, new_eq_ite]
    congr 1
    cases ht' : t'.isSeen with
    | false =>
      -- Nothing opens here, and the same pieces are ahead.
      obtain ⟨broken', hsame⟩ := Symbol.ofContents_unseen ht' broken
      rw [List.map_cons, hsame] at hold
      have hmore := ih (t := t') hP (fun h => absurd (ht'.symm.trans h) (by decide)) hold
      rw [ht'] at hmore
      exact (hsame _).trans hmore
    | true =>
      rw [List.map_cons, Symbol.ofContents_seen ht'] at hold
      obtain ⟨P', hold', hcases⟩ := unmarked_cases hold
      have hP' : ∀ k, .behind k ∈ P' → isMark k = true := by
        intro k hk
        refine hP k ?_
        rw [← marks_append_unmarked P]
        refine List.mem_append_right _ ?_
        rcases hcases with hunmarked | ⟨type, hunmarked⟩ <;> rw [hunmarked] <;>
          exact List.mem_cons_of_mem _ hk
      have hgap : (fun j => gap P (j + 1)) = gap P' := by
        funext j
        rw [gap_succ]
        rcases hcases with hunmarked | ⟨type, hunmarked⟩ <;> rw [hunmarked] <;> rfl
      have hmore := ih (t := t') hP' (fun _ => rfl) hold'
      rw [ht'] at hmore
      simp only [if_true] at hmore ⊢
      rw [hgap]
      rcases hcases with hunmarked | ⟨type, hunmarked⟩
      · rw [hunmarked, new_kept, ← hmore]
        exact Symbol.ofContents_seen ht' _ _
      · rw [hunmarked, new_opened, ← hmore]
        have hbefore : gap (.opened type (Symbol.ofToken broken t') :: P') 0 = [.before type] := rfl
        rw [hbefore, List.flatMap_singleton]
        exact ofContents_before type broken ht' _

end Grammar.Put

/-! ## The repaired text -/

namespace Grammar

theorem filter_putsAt (R : List Repair) (n : Nat) (p : Put → Bool) :
    (putsAt R n).filter p =
      ((R.flatMap Repair.puts).filter fun x => x.1 = n && p x.2).map Prod.snd := by
  rw [putsAt]
  induction R.flatMap Repair.puts with
  | nil => rfl
  | cons x xs ih =>
    by_cases hn : x.1 = n
    · cases hp : p x.2 <;> simp [hn, hp, ih]
    · simp [hn, ih]

end Grammar

namespace Document

variable {source : Text} {P : List Piece} {R : List Repair}

/-- An edit points behind the first token or into the text behind it. -/
theorem offset_pos {x : Nat × Put} (hx : Proper 0 (Stream.ofSource source).symbols x)
    (hpos : 0 < x.1) :
    Position.start.offset < (Put.edit (Stream.ofSource source) x).offset := by
  have hfrom : ∀ {i}, i < (Stream.ofSource source).symbols.length →
      Position.start.offset ≤ ((Stream.ofSource source).token i).start.offset ∧
        ((Stream.ofSource source).token i).start.offset <
          ((Stream.ofSource source).token i).stop.offset := by
    intro i hi
    have hmem := List.mem_filter.1 (List.mem_of_getElem? (Stream.token_ofSource hi))
    exact ⟨(tokens_ordered Position.start source).1 _ hmem.1, start_lt_stop hmem.1 hmem.2⟩
  have hbefore : ∀ {m}, 0 < m → m < (Stream.ofSource source).symbols.length →
      Position.start.offset < ((Stream.ofSource source).token m).start.offset := by
    intro m hm hlt
    -- The first symbol comes before.
    have hzero : 0 < (Stream.ofSource source).symbols.length := by omega
    have hpair := (tokens_ordered Position.start source).2.filter Token.isSeen
    have hlen := Stream.length_symbols source
    have hord := List.pairwise_iff_getElem.1 hpair 0 m (by rw [hlen] at hzero; exact hzero)
      (by rw [hlen] at hlt; exact hlt) hm
    have hm' := (List.getElem?_eq_some_iff.1 (Stream.token_ofSource hlt)).2
    have hzero' := (List.getElem?_eq_some_iff.1 (Stream.token_ofSource hzero)).2
    have hfirst := hfrom hzero
    rw [← hm']
    rw [← hzero'] at hfirst
    exact Int.lt_of_le_of_lt hfirst.1 (Int.lt_of_lt_of_le hord.1 hord.2)
  match x, hx with
  | (m, .behind k), ⟨_, hle, _⟩ =>
    have hm : m - 1 < (Stream.ofSource source).symbols.length := by
      simp only at hpos
      omega
    exact Int.lt_of_le_of_lt (hfrom hm).1 (hfrom hm).2
  | (m, .before none), ⟨_, hlt⟩ => exact hbefore hpos (by omega)
  | (m, .before (some T)), ⟨_, i, sign, hm, hi, _, _⟩ => exact hbefore hpos (by omega)

/-- The edits that make all repairs. -/
def allEdits (source : Text) (R : List Repair) : List Edit :=
  (R.flatMap Repair.puts).map (Put.edit (Stream.ofSource source))

/-- The tokens of what is put in at an offset. -/
def wordContents (source : Text) (R : List Repair) (n : Int) : List (Kind × Text × Tags) :=
  (wordsAt (allEdits source R) n).flatMap fun w => (Lexer.contents w).dropLast

/-- Nothing is put in before the first token. -/
theorem Repairs.wordContents_start (h : Repairs source P R) :
    wordContents source R Position.start.offset = [] := by
  have hnil : wordsAt (allEdits source R) Position.start.offset = [] := by
    refine List.eq_nil_iff_forall_not_mem.2 ?_
    intro w hw
    obtain ⟨x, hx, hn, -⟩ := mem_wordsAt hw
    obtain ⟨hproper, hpos⟩ := h.proper hx
    exact absurd hn (Int.ne_of_gt (offset_pos hproper hpos))
  rw [wordContents, hnil]
  rfl

/-- Between neighbouring tokens there is what the pieces have at their boundary and what is meant
for one of the two. -/
theorem Repairs.wordContents_between (h : Repairs source P R) {l l' : List Token} {t t' : Token}
    (hts : tokens source = l ++ t :: t' :: l') :
    wordContents source R t'.start.offset =
      ((gap P ((l ++ [t]).filter Token.isSeen).length).filter
        (Put.fitsBetween t t')).flatMap Put.contents := by
  have hgap := h.noted.putsAt_eq ((l ++ [t]).filter Token.isSeen).length
  rw [Nat.zero_add] at hgap
  have hiff : ∀ x ∈ R.flatMap Repair.puts,
      decide ((Put.edit (Stream.ofSource source) x).offset = t'.start.offset) =
        (decide (x.1 = ((l ++ [t]).filter Token.isSeen).length) && x.2.fitsBetween t t') := by
    intro x hx
    obtain ⟨hproper, hpos⟩ := h.proper hx
    rw [Bool.eq_iff_iff, decide_eq_true_iff, Put.offset_edit_iff hts hproper hpos]
    simp
  rw [← hgap, filter_putsAt, List.flatMap_map, wordContents, wordsAt, allEdits, List.filter_map,
    List.map_map, List.flatMap_map]
  simp only [Function.comp_def, Put.text_edit]
  rw [List.filter_congr hiff]
  refine List.flatMap_congr ?_
  intro x hx
  exact Put.dropLast_contents_text (Put.valid_of_proper (h.proper (List.mem_of_mem_filter hx)).1)

theorem Repairs.flatMap_eq_interleave (h : Repairs source P R) (l' : List Token) :
    ∀ {l : List Token} {t : Token}, tokens source = l ++ t :: l' →
      (l'.flatMap fun t' => wordContents source R t'.start.offset ++ [t'.content]) =
        Put.interleave (fun j => gap P (((l ++ [t]).filter Token.isSeen).length + j)) t l' := by
  induction l' with
  | nil => exact fun _ => rfl
  | cons t' more ih =>
    intro l t hts
    have hmore := ih (l := l ++ [t]) (t := t') (by rw [hts]; simp)
    have hnext : (fun j => gap P (((l ++ [t] ++ [t']).filter Token.isSeen).length + j)) =
        if t'.isSeen then fun j => gap P (((l ++ [t]).filter Token.isSeen).length + (j + 1))
        else fun j => gap P (((l ++ [t]).filter Token.isSeen).length + j) := by
      rw [List.filter_append (l ++ [t]), List.length_append]
      cases ht' : t'.isSeen with
      | true =>
        funext j
        have hone : [t'].filter Token.isSeen = [t'] := List.filter_cons_of_pos ht'
        rw [hone, List.length_singleton, Nat.add_assoc, Nat.add_comm 1]
        rfl
      | false => simp [ht']
    rw [List.flatMap_cons, h.wordContents_between hts, hmore, hnext, Put.interleave,
      List.append_assoc]
    rfl

/-- With all repairs made, the symbols of the text are the new symbols of the pieces. -/
theorem Repairs.symbols_splice (h : Repairs source P R) :
    (Stream.ofSource (source.splice ((allEdits source R).map Edit.toInsertion))).symbols =
      new P := by
  obtain ⟨body, q, hbody, -⟩ := tokens_shape Position.start source
  have htokens : tokens source = body ++ [Token.endAt q] := hbody
  obtain ⟨t, l', hts⟩ : ∃ t l', tokens source = t :: l' := by
    rw [htokens]
    cases body <;> exact ⟨_, _, rfl⟩
  have hstart : wordContents source R t.start.offset = [] := by
    rw [start_of_head hts]
    exact h.wordContents_start
  have hzero : gap P 0 = [] := by
    rcases h.led with rfl | ⟨y, P', rfl⟩ <;> rfl
  have hunmarked : unmarked P = P := by
    rcases h.led with rfl | ⟨y, P', rfl⟩ <;> rfl
  -- The end of input at the very start stands for the token before the first one.
  have hcontents : Lexer.contents (source.splice ((allEdits source R).map Edit.toInsertion)) =
      Put.interleave (gap P) (Token.endAt Position.start) (body ++ [Token.endAt q]) := by
    have hnext : (fun j => gap P (([t].filter Token.isSeen).length + j)) =
        if t.isSeen then fun j => gap P (j + 1) else gap P := by
      cases ht : t.isSeen <;> simp [ht, Nat.add_comm]
    have hmore := h.flatMap_eq_interleave l' (l := []) hts
    rw [List.nil_append, hnext] at hmore
    have hsplice : Lexer.contents (source.splice ((allEdits source R).map Edit.toInsertion)) =
        (tokens source).flatMap fun t => wordContents source R t.start.offset ++ [t.content] :=
      h.contents_splice fun x hx => hx
    rw [hsplice, ← htokens, hts, List.flatMap_cons, Put.interleave, hzero, ← hmore, hstart]
    rfl
  have hold : Piece.old P = Symbol.ofContents false (body.map Token.content) := by
    rw [h.old, Symbol.symbols_ofSource, Lexer.contents, htokens, List.map_append,
      List.map_singleton, Symbol.ofContents_append_end]
  have hshown := Put.ofContents_interleave q body (t := Token.endAt Position.start)
    h.noted.isMark_of_mem (fun _ => rfl) hold
  rw [Symbol.symbols_ofSource, hcontents, hshown, hunmarked]
  rfl

end Document

end ShaderRepair

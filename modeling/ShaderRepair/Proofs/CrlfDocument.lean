import ShaderRepair.Proofs.CrlfLexing
import ShaderRepair.Proofs.Dispatch
import ShaderRepair.Proofs.Insignificant
import ShaderRepair.Proofs.Placement

/-!
# Repairing with line breaks of two bytes

A source with a carriage return in front of every line feed needs the repairs it needs without them,
or it is rejected with the same messages. This file contains:
- `Stream.symbols_ofSource_crlf` and `Stream.token_ofSource_crlf`, what the grammar sees;
- `Text.splice_crlf`, insertions;
- `ParseError.context_crlf`, the excerpt of an error;
- `Document.parse_crlf` and `Document.repair_crlf`.
-/

namespace ShaderRepair

open Grammar

/-! ## What the grammar sees -/

/-- What becomes of an insertion into the text `s`. -/
def Insertion.crlf (s : Text) (e : Insertion) : Insertion :=
  { e with offset := Text.crlfOffset s e.offset.toNat }

/-- What becomes of an edit of the text `s`. -/
def Edit.crlf (s : Text) (e : Edit) : Edit :=
  { e with toInsertion := e.toInsertion.crlf s, anchor := e.anchor.crlf s }

theorem Token.lexeme_crlf {s : Text} {t : Token} (ht : t ∈ Lexer.tokens s)
    (hsig : t.isSignificant = true) : (t.crlf s).lexeme = t.lexeme :=
  Text.crlf_of_notMem (Lexer.notMem_lexeme Position.start s t ht hsig)

theorem Token.describe_crlf {s : Text} {t : Token} (h : (t.crlf s).lexeme = t.lexeme) :
    (t.crlf s).describe = t.describe := by
  rw [describe, describe, h]
  rfl

namespace Stream

theorem isSignificant_token (s : Text) (i : Nat) :
    ((ofSource s).token i).isSignificant = true := by
  obtain ⟨body, q, hbody, hall⟩ := Lexer.tokens_shape Position.start s
  rw [token_eq, toList_ofSource hbody, finish_ofSource hbody fun t ht => (hall t ht).1]
  cases hi : (body.filter Token.isSeen)[i]? with
  | some t => exact (Token.isSeen_iff.1 (List.mem_filter.1 (List.mem_of_getElem? hi)).2).1
  | none => rfl

section Crlf

variable {s : Text} (hs : Text.carriageReturn ∉ s)
include hs

theorem exists_tokens_crlf : ∃ body q, Lexer.tokens s = body ++ [Token.endAt q] ∧
    Lexer.tokens (Text.crlf s) = body.map (Token.crlf s) ++ [Token.endAt (q.crlf s)] ∧
    (∀ t ∈ body, t.kind ≠ .endOfInput) ∧ ∀ t ∈ body.map (Token.crlf s), t.kind ≠ .endOfInput := by
  obtain ⟨body, q, hbody, hall⟩ := Lexer.tokens_shape Position.start s
  have htokens : Lexer.tokens s = body ++ [Token.endAt q] := hbody
  have hkinds : ∀ t ∈ body, t.kind ≠ .endOfInput := fun t ht => (hall t ht).1
  refine ⟨body, q, htokens, ?_, hkinds, List.forall_mem_map.2 hkinds⟩
  rw [Lexer.tokens_crlf hs, htokens, List.map_append]
  rfl

/-- The grammar sees the same symbols. -/
theorem symbols_ofSource_crlf : (ofSource (Text.crlf s)).symbols = (ofSource s).symbols := by
  obtain ⟨body, q, htokens, htokens', hkinds, hkinds'⟩ := exists_tokens_crlf hs
  rw [symbols_ofSource htokens' hkinds', symbols_ofSource htokens hkinds,
    significant_map (Token.crlf s) fun _ => rfl, List.map_map]
  refine List.map_congr_left fun x hx => ?_
  have hmem : x.1 ∈ body.filter Token.isSignificant := by
    rw [← map_fst_significant false body]
    exact List.mem_map_of_mem hx
  obtain ⟨hx, hsig⟩ := List.mem_filter.1 hmem
  have hlexeme : (x.1.crlf s).lexeme = x.1.lexeme :=
    Token.lexeme_crlf (htokens ▸ List.mem_append_left _ hx) hsig
  rw [Function.comp_apply, Symbol.ofToken, Symbol.ofToken, hlexeme]
  rfl

/-- The tokens that are looked up are those of the source, at their new places. -/
theorem token_ofSource_crlf (i : Nat) :
    (ofSource (Text.crlf s)).token i = ((ofSource s).token i).crlf s := by
  obtain ⟨body, q, htokens, htokens', hkinds, hkinds'⟩ := exists_tokens_crlf hs
  have hfilter : (body.map (Token.crlf s)).filter Token.isSeen =
      (body.filter Token.isSeen).map (Token.crlf s) := List.filter_map
  rw [token_eq, token_eq, toList_ofSource htokens', toList_ofSource htokens,
    finish_ofSource htokens' hkinds', finish_ofSource htokens hkinds, hfilter, List.getElem?_map,
    show Token.endAt (q.crlf s) = (Token.endAt q).crlf s from rfl, Option.getD_map]

/-- So every edit is put where its place has gone. -/
theorem displaces_crlf (count : Nat) :
    (ofSource s).Displaces (ofSource (Text.crlf s)) count 0 (Token.crlf s) (Edit.crlf s) := by
  refine ⟨fun i _ => token_ofSource_crlf hs i, fun _ _ _ => rfl, fun _ _ _ => rfl, fun i _ => ?_⟩
  rw [Nat.add_zero, Nat.add_zero, token_ofSource_crlf hs, token_ofSource_crlf hs]
  rfl

end Crlf

end Stream

/-! ## Insertions -/

namespace Text

/-- A text is filled up before or after the carriage returns are put in. No gap is between a
carriage return and its line feed. -/
theorem filled_crlf {gap gap' : Nat → Text} {start start' : Nat} (s : Text)
    (hfeeds : ∀ n, lineFeed ∉ gap n)
    (hgap : ∀ n ≤ s.length, gap' (start' + crlfOffset s n) = gap (start + n))
    (hbetween : ∀ m, (∀ n ≤ s.length, crlfOffset s n ≠ m) → gap' (start' + m) = []) :
    filled gap' start' (crlf s) = crlf (filled gap start s) := by
  induction s generalizing start start' with
  | nil =>
    have hhere : gap' start' = gap start := hgap 0 (Nat.le_refl 0)
    rw [crlf_nil, filled, filled, hhere, crlf_of_notMem (hfeeds start)]
  | cons b s ih =>
    have hhere : gap' start' = gap start := hgap 0 (Nat.zero_le _)
    have hone : 1 ≤ (crlf [b]).length := length_le_crlf [b]
    -- Behind the first byte both texts go on, one or two bytes further.
    have hmore : filled gap' (start' + (crlf [b]).length) (crlf s) =
        crlf (filled gap (start + 1) s) := by
      refine ih (fun n hn => ?_) fun m hm => ?_
      · rw [Nat.add_assoc, ← crlfOffset_cons, Nat.add_assoc, Nat.add_comm 1]
        exact hgap (n + 1) (Nat.succ_le_succ hn)
      · rw [Nat.add_assoc]
        refine hbetween _ fun n hn => ?_
        cases n with
        | zero => exact Nat.ne_of_lt (Nat.add_pos_left hone m)
        | succ n =>
          rw [crlfOffset_cons, Ne, Nat.add_right_inj]
          exact hm n (Nat.le_of_succ_le_succ hn)
    by_cases hb : b = lineFeed
    · subst hb
      -- Between the carriage return and the line feed nothing is put in.
      have hnone : gap' (start' + 1) = [] := by
        refine hbetween 1 fun n _ => ?_
        cases n with
        | zero => exact Nat.zero_ne_one
        | succ n =>
          rw [crlfOffset_cons]
          exact Nat.ne_of_gt (Nat.lt_add_right _ (Nat.lt_succ_self 1))
      rw [crlf_feed, filled, filled, filled, crlf_append, crlf_feed, ← hmore, hhere, hnone,
        crlf_of_notMem (hfeeds start)]
      rfl
    · rw [crlf_cons hb, filled, filled, crlf_append, crlf_cons hb, ← hmore, hhere,
        crlf_of_notMem (hfeeds start), crlf_cons hb]
      rfl

end Text

namespace Insertion

variable {s : Text} {es : List Insertion} (h : ∀ e ∈ es, 0 ≤ e.offset ∧ e.offset ≤ s.length)
include h

theorem textAt_crlf {n : Nat} (hn : n ≤ s.length) :
    textAt (es.map (crlf s)) (Text.crlfOffset s n) = textAt es n := by
  have hfilter : es.filter ((fun e => decide (e.offset = (Text.crlfOffset s n : Int))) ∘ crlf s) =
      es.filter fun e => e.offset = (n : Int) := by
    refine List.filter_congr fun e he => ?_
    obtain ⟨hlow, hhigh⟩ := h e he
    have hinj := Text.crlfOffset_inj (s := s) (m := e.offset.toNat) (by omega) hn
    have hoffset : (e.crlf s).offset = (Text.crlfOffset s e.offset.toNat : Int) := rfl
    rw [Function.comp_apply, decide_eq_decide, hoffset, Int.ofNat_inj, hinj]
    omega
  rw [textAt, textAt, List.filter_map, hfilter, List.flatMap_map]
  rfl

theorem textAt_crlf_eq_nil {m : Nat} (hm : ∀ n ≤ s.length, Text.crlfOffset s n ≠ m) :
    textAt (es.map (crlf s)) m = [] := by
  refine textAt_eq_nil fun e he hoffset => ?_
  obtain ⟨f, hf, rfl⟩ := List.mem_map.1 he
  have hle := (h f hf).2
  exact hm f.offset.toNat (by omega) (Int.ofNat_inj.1 hoffset)

end Insertion

/-- Insertions without line feeds can be made before or after the carriage returns are put in. -/
theorem Text.splice_crlf {s : Text} {es : List Insertion}
    (h : ∀ e ∈ es, 0 ≤ e.offset ∧ e.offset ≤ s.length) (hfeeds : ∀ e ∈ es, lineFeed ∉ e.text) :
    (crlf s).splice (es.map (Insertion.crlf s)) = crlf (s.splice es) := by
  have hrange : ∀ e ∈ es.map (Insertion.crlf s), 0 ≤ e.offset ∧ e.offset ≤ (crlf s).length := by
    intro e he
    obtain ⟨f, hf, rfl⟩ := List.mem_map.1 he
    obtain ⟨hlow, hhigh⟩ := h f hf
    have hle := (crlfOffset_le_iff (s := s) (m := f.offset.toNat) (n := s.length) (by omega)
      (Nat.le_refl _)).2 (by omega)
    rw [crlfOffset_length] at hle
    exact ⟨Int.natCast_nonneg _, Int.ofNat_le.2 hle⟩
  have hgaps : ∀ n, lineFeed ∉ Insertion.textAt es n := by
    intro n hmem
    obtain ⟨e, he, hfeed⟩ := List.mem_flatMap.1 hmem
    exact hfeeds e (List.mem_of_mem_filter he) hfeed
  rw [splice_eq_filled hrange, splice_eq_filled h]
  refine filled_crlf s hgaps (fun n hn => ?_) fun m hm => ?_
  · rw [Nat.zero_add, Nat.zero_add, Insertion.textAt_crlf h hn]
  · rw [Nat.zero_add, Insertion.textAt_crlf_eq_nil h hm]

/-- Nothing that repairs put in has a line feed. -/
theorem Grammar.Put.notMem_text {x : Put} (h : x.Valid) : Text.lineFeed ∉ x.text := by
  have hnames : ∀ T ∈ ValueType.catalog.flatMap ValueType.names,
      Text.lineFeed ∉ T ++ Text.ascii "(" := by
    decide +kernel
  match x, h with
  | .behind k, hk =>
    obtain ⟨c, hname, -, hsolid, -⟩ := Lexer.first_name hk
    rw [text, hname, List.mem_singleton]
    rintro rfl
    cases hsolid
  | .before none, _ => decide
  | .before (some T), hT => exact hnames T (ValueType.mem_names_of_lookup hT)

/-! ## Errors -/

namespace ParseError

/-- What becomes of an error. -/
def crlf (e : ParseError) : ParseError :=
  { e with token := e.token.crlf e.source, source := Text.crlf e.source }

variable {e e' : ParseError}

theorem message_congr (hexpected : e'.expected = e.expected)
    (htoken : e'.token.describe = e.token.describe) : e'.message = e.message := by
  rw [message, message, hexpected, htoken]

theorem numbered_congr {line line' : Text} (h : Text.chomp line' = Text.chomp line) (n : Nat) :
    numbered n line' = numbered n line := by
  rw [numbered, numbered, h]

/-- The excerpt shows lines without the carriage returns at their ends. -/
theorem excerpt_congr (hmessage : e'.message = e.message)
    (hcolumn : e'.token.start.column = e.token.start.column) {lines lines' : List Text}
    (hlines : lines'.map Text.chomp = lines.map Text.chomp) (index : Nat) {line line' : Text}
    (hline : Text.chomp line' = Text.chomp line) :
    e'.excerpt lines' index line' = e.excerpt lines index line := by
  have hget : ∀ i : Nat, (lines'[i]?).map Text.chomp = (lines[i]?).map Text.chomp := by
    intro i
    rw [← List.getElem?_map, ← List.getElem?_map, hlines]
  have hbefore : ∀ k, numbered (k + 1) (lines'.getD k []) = numbered (k + 1) (lines.getD k []) := by
    intro k
    refine numbered_congr ?_ _
    rw [List.getD_eq_getElem?_getD, List.getD_eq_getElem?_getD, ← Option.getD_map Text.chomp,
      ← Option.getD_map Text.chomp, hget]
  -- There may be no line before the one of the error, and none after it.
  have hafter := hget (index + 1)
  unfold excerpt
  generalize lines'[index + 1]? = next' at hafter ⊢
  generalize lines[index + 1]? = next at hafter ⊢
  simp only [hmessage, hcolumn, hline, numbered_congr hline]
  cases next with
  | none =>
    obtain rfl := Option.map_eq_none_iff.1 hafter
    cases index with
    | zero => rfl
    | succ k => simp only [hbefore]
  | some next =>
    obtain ⟨next', rfl, hnext⟩ := Option.map_eq_some_iff.1 hafter
    cases index with
    | zero => simp only [numbered_congr hnext]
    | succ k => simp only [hbefore, numbered_congr hnext]

section Crlf

variable (h : (e.token.crlf e.source).lexeme = e.token.lexeme)
include h

theorem message_crlf : e.crlf.message = e.message :=
  message_congr rfl (Token.describe_crlf h)

/-- The message with its place does not change. -/
theorem text_crlf : e.crlf.text = e.text := by
  rw [text, text, message_crlf h]
  rfl

/-- Neither does the excerpt. -/
theorem context_crlf (hs : Text.carriageReturn ∉ e.source) : e.crlf.context = e.context := by
  have hlines : (Text.lines e.crlf.source).map Text.chomp =
      (Text.lines e.source).map Text.chomp :=
    (Text.map_chomp_lines_crlf hs).trans (Text.map_chomp_lines hs).symm
  have hempty : e.crlf.source.isEmpty = e.source.isEmpty := by
    rw [Bool.eq_iff_iff, List.isEmpty_iff, List.isEmpty_iff]
    exact Text.crlf_eq_nil
  have hplace : e.crlf.token.start.line = e.token.start.line := rfl
  have hcolumn : e.crlf.token.start.column = e.token.start.column := rfl
  have hmessage := message_crlf h
  rw [context, context, hempty, hplace, text_crlf h]
  split
  · rfl
  · have hline := congrArg (·[e.token.start.line.toNat - 1]?) hlines
    simp only [List.getElem?_map] at hline
    cases hfound : (Text.lines e.source)[e.token.start.line.toNat - 1]? with
    | none =>
      rw [hfound, Option.map_none, Option.map_eq_none_iff] at hline
      simp only [hfound, hline]
    | some line =>
      rw [hfound, Option.map_some] at hline
      obtain ⟨line', hfound', hline⟩ := Option.map_eq_some_iff.1 hline
      simp only [hfound, hfound']
      exact excerpt_congr hmessage hcolumn hlines _ hline

end Crlf

end ParseError

/-! ## Documents -/

/-- What becomes of a report on the source `s`. -/
def Report.crlf (s : Text) (report : Report) : Report :=
  let place := Token.crlf s
  { report with
    module := Module.mapWith place (Expr.map (Extent.map place)) report.module
    edits := report.edits.map (Edit.crlf s) }

namespace Document

/-- The edits of a report put in no line feeds. -/
theorem notMem_text {s : Text} {o : Options} {report : Report} (h : parse s o = .ok report) :
    ∀ e ∈ report.edits, Text.lineFeed ∉ e.text := by
  obtain ⟨ns, P, R, hreports, hrepairs, -⟩ := parse_retraced (fun _ _ => false) h
  rw [hreports.edits]
  refine List.forall_mem_map.2 fun x hx => ?_
  obtain ⟨r, hr, hx⟩ := List.mem_flatMap.1 hx
  have hproper := (hrepairs.proper (List.mem_flatMap.2 ⟨r, List.mem_of_mem_filter hr, hx⟩)).1
  rw [Put.text_edit]
  exact Put.notMem_text (Put.valid_of_proper hproper)

theorem text_apply_crlf {s : Text} {o : Options} {report : Report} (h : parse s o = .ok report) :
    (apply (Text.crlf s) (report.crlf s)).text = Text.crlf (apply s report).text := by
  have hrange := Edit.Placed.range (edits_placed h).1
  have hfeeds : ∀ e ∈ report.edits.map Edit.toInsertion, Text.lineFeed ∉ e.text :=
    List.forall_mem_map.2 (notMem_text h)
  have hinsertions : (report.crlf s).edits.map Edit.toInsertion =
      (report.edits.map Edit.toInsertion).map (Insertion.crlf s) := by
    rw [Report.crlf, List.map_map, List.map_map]
    rfl
  rw [apply, hinsertions]
  exact Text.splice_crlf hrange hfeeds

/-- Two lists of tokens with the same symbols are parsed to the same items with the same repairs, or
rejected for the same reason. -/
theorem parseTokens_of_symbols {tokens tokens' : List Token}
    (h : (Stream.ofTokens tokens').symbols = (Stream.ofTokens tokens).symbols)
    (source source' : Text) (o : Options) :
    (∃ ns R, Anchored (Stream.ofTokens tokens).symbols.length R ∧
      parseTokens tokens source o = .ok ((Stream.ofTokens tokens).report o ns R) ∧
      parseTokens tokens' source' o = .ok ((Stream.ofTokens tokens').report o ns R)) ∨
    ∃ why, parseTokens tokens source o = .error ((Stream.ofTokens tokens).failure source why) ∧
      parseTokens tokens' source' o = .error ((Stream.ofTokens tokens').failure source' why) := by
  obtain ⟨ns, t, htakes, ht | ⟨ht, why, u, hu⟩⟩ :=
    Takes.exists_takes (State.start (Stream.ofTokens tokens).symbols)
  · have htakes' : Takes (State.start (Stream.ofTokens tokens').symbols) ns t := h ▸ htakes
    exact .inl ⟨ns, t.repairs.reverse, htakes.anchored ht, parseTokens_of_takes htakes ht source o,
      parseTokens_of_takes htakes' ht source' o⟩
  · have htakes' : Takes (State.start (Stream.ofTokens tokens').symbols) ns t := h ▸ htakes
    exact .inr ⟨why, parseTokens_of_rejected htakes ht hu source o,
      parseTokens_of_rejected htakes' ht hu source' o⟩

section Crlf

variable {s : Text} (hs : Text.carriageReturn ∉ s) (o : Options)
include hs

/-- A source with carriage returns is parsed to the same tree and the same edits, at their new
places, with the same tally. Or the error is the same, about the same token. -/
theorem parse_crlf :
    (∃ report, parse s o = .ok report ∧ parse (Text.crlf s) o = .ok (report.crlf s)) ∨
    ∃ e, parse s o = .error e ∧ parse (Text.crlf s) o = .error e.crlf ∧ e.source = s ∧
      (e.token.crlf s).lexeme = e.token.lexeme := by
  have htoken : (Stream.ofSource (Text.crlf s)).token =
      Token.crlf s ∘ (Stream.ofSource s).token := funext (Stream.token_ofSource_crlf hs)
  rcases parseTokens_of_symbols (Stream.symbols_ofSource_crlf hs) s (Text.crlf s) o with
    ⟨ns, R, hR, hparse, hparse'⟩ | ⟨why, hparse, hparse'⟩
  · refine .inl ⟨_, hparse, hparse'.trans (congrArg Except.ok ?_)⟩
    have hplaces := Stream.displaces_crlf hs (Stream.ofSource s).symbols.length
    have hedits := hplaces.edits_report hR o ns ns
    have htally := hplaces.tally_report hR o ns ns
    rw [Repair.map_move_zero] at hedits htally
    refine Report.eq_of ?_ hedits htally
    have hmodule := Module.mapWith_extent (Stream.ofSource s).token (Token.crlf s) (ns.map .item)
    rw [← htoken] at hmodule
    exact hmodule.symm
  · refine .inr ⟨_, hparse, hparse'.trans (congrArg Except.error ?_), rfl, ?_⟩
    · have hindex : (Stream.ofTokens (Lexer.lex (Text.crlf s) false)).token why.index = _ :=
        Stream.token_ofSource_crlf hs why.index
      rw [Stream.failure, hindex]
      rfl
    · exact Token.lexeme_crlf (Stream.token_mem s _) (Stream.isSignificant_token s _)

/-- Line breaks of two bytes are repaired as line breaks of one byte are. The repaired text has
carriage returns where the source has them, and the tally is the same; or the same error is
reported, with the same excerpt. -/
theorem repair_crlf :
    (∃ r r', repair s o = .ok r ∧ repair (Text.crlf s) o = .ok r' ∧
      r'.text = Text.crlf r.text ∧ r'.tally = r.tally) ∨
    ∃ e e', repair s o = .error e ∧ repair (Text.crlf s) o = .error e' ∧
      e'.text = e.text ∧ e'.context = e.context := by
  rcases parse_crlf hs o with ⟨report, hparse, hparse'⟩ | ⟨e, hparse, hparse', rfl, hlexeme⟩
  · refine .inl ⟨apply s report, apply (Text.crlf s) (report.crlf s), ?_, ?_, ?_, rfl⟩
    · rw [repair, hparse]
      rfl
    · rw [repair, hparse']
      rfl
    · exact text_apply_crlf hparse
  · refine .inr ⟨e, e.crlf, ?_, ?_, ParseError.text_crlf hlexeme,
      ParseError.context_crlf hlexeme hs⟩
    · rw [repair, hparse]
      rfl
    · rw [repair, hparse']
      rfl

end Crlf

/-- A missing semicolon and a missing parenthesis among a directive that goes on, comments and a
blank line; and a source that is rejected on its third line. -/
theorem repair_crlf_lines :
    let s := Text.ascii
      "#define A \\\n 1\nint a = 1 // one\n\n/* two\nthree */ if a > 1)\n  discard;\n"
    let s' := Text.ascii "int a;\n\n  int ) b;\nint c;"
    Text.carriageReturn ∉ s ∧ Text.carriageReturn ∉ s' ∧
    (∃ r r', repair s Options.all = .ok r ∧ repair (Text.crlf s) Options.all = .ok r' ∧
      r'.text = Text.crlf r.text ∧ r'.tally = r.tally ∧ r.edits.length = 2) ∧
    ∃ e e', repair s' Options.all = .error e ∧ repair (Text.crlf s') Options.all = .error e' ∧
      e'.text = e.text ∧ e'.context = e.context := by
  intro s s'
  have hs : Text.carriageReturn ∉ s := by decide +kernel
  have hs' : Text.carriageReturn ∉ s' := by decide +kernel
  have hedits : (repair s Options.all).toOption.map (fun r => r.edits.length) = some 2 := by
    rw [repair, parse, Lexer.lex_eq_scan]
    decide +kernel
  have hnone : (repair s' Options.all).toOption.isNone = true := by
    rw [repair, parse, Lexer.lex_eq_scan]
    decide +kernel
  refine ⟨hs, hs', ?_, ?_⟩
  · rcases repair_crlf hs Options.all with ⟨r, r', hr, hr', htext, htally⟩ | ⟨e, e', he, -⟩
    · rw [hr] at hedits
      exact ⟨r, r', hr, hr', htext, htally, Option.some.inj hedits⟩
    · rw [he] at hedits
      cases hedits
  · rcases repair_crlf hs' Options.all with ⟨r, r', hr, -⟩ | herror
    · rw [hr] at hnone
      cases hnone
    · exact herror

end Document

end ShaderRepair

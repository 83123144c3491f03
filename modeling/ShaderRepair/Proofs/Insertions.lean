import ShaderRepair.Proofs.Dispatch
import ShaderRepair.Proofs.Relexing
import ShaderRepair.Proofs.RetraceDocument

/-!
# Edits and tokens

The edits of a report put marks and openings between the tokens of the source, and nothing of what
is there gets another meaning. This file contains:
- the tokens of what repairs put in, whatever follows;
- that no edit points into a token, and that what an edit puts in does not go on with the token
  before;
- `Document.lex_splice`, the tokens of the repaired text.
-/

namespace ShaderRepair

open Reach Lexer Grammar

/-- A result that was looked at is there. -/
theorem exists_ok_of_map {ε α β : Type} {x : Except ε α} {f : α → β} {b : β}
    (h : x.toOption.map f = some b) : ∃ a, x = .ok a ∧ f a = b := by
  cases x with
  | error e => cases h
  | ok a => exact ⟨a, rfl, Option.some.inj h⟩

/-! ## Words put in -/

namespace Grammar.Put

/-- Marks are punctuation, and calls are those of types. -/
def Valid : Put → Prop
  | .behind k => isMark k = true
  | .before none => True
  | .before (some T) => (ValueType.lookup T).isSome = true

/-- The tokens of what is put in. -/
def contents : Put → List (Kind × Text × Tags)
  | .behind k => [(k, k.name, Tags.none)]
  | .before none => [(.leftParen, Kind.name .leftParen, Tags.none)]
  | .before (some T) =>
    [(.identifier, T, Tags.none), (.leftParen, Kind.name .leftParen, Tags.none)]

end Grammar.Put

theorem ValueType.mem_names_of_lookup {T : Text} (h : (lookup T).isSome = true) :
    T ∈ catalog.flatMap names := by
  obtain ⟨t, ht⟩ := Option.isSome_iff_exists.1 h
  rw [List.mem_flatMap]
  exact ⟨t, List.mem_of_find?_eq_some ht, by simpa using List.find?_some ht⟩

namespace Lexer

theorem first_name {k : Kind} (hk : isMark k = true) :
    ∃ c, k.name = [c] ∧ isMarkByte c = true ∧ isSolid c = true ∧
      first [c] = (k, [c], Tags.none) ∧ k ≠ .error := by
  simp only [first_eq_firstAt]
  match k, hk with
  | .semicolon, _ => exact ⟨Number.byte ';', by decide +kernel⟩
  | .colon, _ => exact ⟨Number.byte ':', by decide +kernel⟩
  | .comma, _ => exact ⟨Number.byte ',', by decide +kernel⟩
  | .leftParen, _ => exact ⟨Number.byte '(', by decide +kernel⟩
  | .rightParen, _ => exact ⟨Number.byte ')', by decide +kernel⟩

theorem first_typeName : ∀ T ∈ ValueType.catalog.flatMap ValueType.names,
    first T = (.identifier, T, Tags.none) ∧ T ≠ [] ∧ T.head?.map isWordStart = some true ∧
      T.head?.map isSolid = some true := by
  simp only [first_eq_firstAt]
  decide +kernel

/-- A mark has its token whatever follows. -/
theorem contents_mark {k : Kind} (hk : isMark k = true) (x : Text) :
    Lexer.contents (k.name ++ x) = (k, k.name, Tags.none) :: Lexer.contents x := by
  obtain ⟨c, hname, hc, -, hfirst, herror⟩ := first_name hk
  rw [hname]
  exact contents_append (List.cons_ne_nil _ _) (first_mark hc hfirst herror x)

theorem contents_call {T : Text} (hT : (ValueType.lookup T).isSome = true) (x : Text) :
    Lexer.contents (T ++ Text.ascii "(" ++ x) =
      (.identifier, T, Tags.none) :: (.leftParen, Kind.name .leftParen, Tags.none) ::
        Lexer.contents x := by
  obtain ⟨hfirst, hne, -, -⟩ := first_typeName T (ValueType.mem_names_of_lookup hT)
  have hlast := List.getLast?_eq_some_getLast hne
  -- The name stops at the parenthesis, with which nothing goes on.
  have hfits : Fits (T ++ []) (T ++ Number.byte '(' :: x) := fits_append [] x hlast (.inl rfl)
  have hname : first (T ++ (Kind.name .leftParen ++ x)) = (.identifier, T, Tags.none) := by
    refine first_congr hne (by rw [List.append_nil]; exact hfirst) (by decide) hfits ?_ ?_
    · intro h
      cases h
    · intro h
      cases h
  have hparen := contents_mark (k := .leftParen) rfl x
  rw [List.append_assoc, ← hparen]
  exact contents_append hne hname

end Lexer

namespace Grammar.Put

/-- What is put in has its tokens whatever follows. -/
theorem contents_text_append {x : Put} (h : x.Valid) (s : Text) :
    Lexer.contents (x.text ++ s) = x.contents ++ Lexer.contents s := by
  match x, h with
  | .behind k, h => exact contents_mark h s
  | .before none, _ => exact contents_mark (k := .leftParen) rfl s
  | .before (some T), h => exact contents_call h s

theorem dropLast_contents_text {x : Put} (h : x.Valid) :
    (Lexer.contents x.text).dropLast = x.contents := by
  have happ := contents_text_append h []
  rw [List.append_nil] at happ
  rw [happ, contents_nil, List.dropLast_concat]

/-- The first byte goes on with no token before, provided that a call is not put behind a word or a
number. -/
theorem exists_head {x : Put} (h : x.Valid) :
    ∃ b s, x.text = b :: s ∧ isSolid b = true ∧
      ∀ z, ((∃ T, x = .before (some T)) → isNumberByte z = false) → Apart z b := by
  match x, h with
  | .behind k, h =>
    obtain ⟨c, hname, hc, hsolid, -⟩ := first_name h
    exact ⟨c, [], hname, hsolid, fun _ _ => .inl hc⟩
  | .before none, _ => exact ⟨Number.byte '(', [], rfl, rfl, fun _ _ => .inl rfl⟩
  | .before (some T), h =>
    obtain ⟨-, hne, hword, hsolid⟩ := first_typeName T (ValueType.mem_names_of_lookup h)
    obtain ⟨b, s, rfl⟩ := List.exists_cons_of_ne_nil hne
    refine ⟨b, s ++ Text.ascii "(", rfl, Option.some.inj hsolid, ?_⟩
    exact fun z hz => .inr ⟨Option.some.inj hword, hz ⟨_, rfl⟩⟩

theorem inserted {x : Put} (h : x.Valid) : Inserted x.text := by
  obtain ⟨b, s, hx, hb, -⟩ := exists_head h
  refine ⟨?_, b, s, hx, hb⟩
  intro s
  rw [contents_text_append h, dropLast_contents_text h]

theorem valid_of_proper {n : Nat} {w : List Symbol} {x : Nat × Put} (h : Proper n w x) :
    x.2.Valid := by
  match x, h with
  | (m, .behind k), ⟨_, _, hk⟩ => exact hk
  | (m, .before none), _ => trivial
  | (m, .before (some T)), ⟨hT, _⟩ => exact hT

end Grammar.Put

/-! ## Places -/

namespace Document

variable {source : Text} {P : List Piece} {R : List Repair}

/-- Whatever is put in stands behind the first token. -/
theorem Repairs.proper (h : Repairs source P R) {x : Nat × Put}
    (hx : x ∈ R.flatMap Repair.puts) :
    Proper 0 (Stream.ofSource source).symbols x ∧ 0 < x.1 := by
  refine ⟨h.old ▸ h.noted.proper x hx, Nat.pos_of_ne_zero ?_⟩
  intro hzero
  have hgap : Piece.gap P 0 = [] := by
    rcases h.led with rfl | ⟨y, P', rfl⟩ <;> rfl
  have hnil : putsAt R 0 = [] := (h.noted.putsAt_eq 0).trans hgap
  have hmem : x.2 ∈ putsAt R 0 := mem_putsAt.2 (hzero ▸ hx)
  rw [hnil] at hmem
  cases hmem

/-- The grammar sees every token of which no pattern is, and it passes none of them. -/
theorem Repairs.kind_ne_error (h : Repairs source P R) {t : Token} (ht : t ∈ tokens source) :
    t.kind ≠ .error := by
  intro hk
  have hseen : t.isSeen = true := by simp [Token.isSeen, Token.isSignificant, hk]; decide
  obtain ⟨s, hs, hkind⟩ := Stream.exists_mem_symbols ht hseen
  rw [← h.old] at hs
  exact h.noted.kind_ne_error s hs (hkind.trans hk)

/-- An edit points to where a token starts. -/
theorem exists_start_eq {x : Nat × Put} (hx : Proper 0 (Stream.ofSource source).symbols x)
    (hpos : 0 < x.1) :
    ∃ t ∈ tokens source, (Put.edit (Stream.ofSource source) x).offset = t.start.offset := by
  have hmem : ∀ {i}, i < (Stream.ofSource source).symbols.length →
      (Stream.ofSource source).token i ∈ tokens source ∧
        ((Stream.ofSource source).token i).isSeen = true := by
    intro i hi
    exact List.mem_filter.1 (List.mem_of_getElem? (Stream.token_ofSource hi))
  match x, hx with
  | (m, .behind k), ⟨_, hle, _⟩ =>
    -- A mark stands where the next token starts.
    have hm : m - 1 < (Stream.ofSource source).symbols.length := by
      simp only at hpos
      omega
    obtain ⟨l, t', l', hts⟩ := exists_neighbour (hmem hm).1 (hmem hm).2
    exact ⟨t', by rw [hts]; simp, (start_eq_stop hts).symm⟩
  | (m, .before none), ⟨_, hlt⟩ => exact ⟨_, (hmem (by omega)).1, rfl⟩
  | (m, .before (some T)), ⟨_, i, sign, hm, hi, _, _⟩ => exact ⟨_, (hmem (by omega)).1, rfl⟩

/-- No token starts inside another one. -/
theorem not_inside {t y : Token} (ht : t ∈ tokens source) (hy : y ∈ tokens source) :
    ¬(t.start.offset < y.start.offset ∧ y.start.offset < t.stop.offset) := by
  obtain ⟨l, l', hts⟩ := List.append_of_mem ht
  have hpair := (tokens_ordered Position.start source).2
  have htokens : tokensAfter Pattern.list 0 Position.start source = l ++ t :: l' := hts
  rw [htokens, List.pairwise_append, List.pairwise_cons] at hpair
  obtain ⟨-, ⟨hbehind, -⟩, hbefore⟩ := hpair
  rw [hts, List.mem_append, List.mem_cons] at hy
  rcases hy with hy | rfl | hy
  · have := hbefore y hy t List.mem_cons_self
    omega
  · omega
  · have := hbehind y hy
    omega

section Neighbours

variable {l l' : List Token} {t t' : Token} (hts : tokens source = l ++ t :: t' :: l')
include hts

/-- Before a call the text ends with no byte of a word or a number: there is the sign of the
initializer, or what the grammar does not see. -/
theorem last_before_call (h : Repairs source P R) {m : Nat} {T : Text}
    (hx : (m, .before (some T)) ∈ R.flatMap Repair.puts)
    (hoffset : (Put.edit (Stream.ofSource source) (m, .before (some T))).offset =
      t'.start.offset) :
    ∃ z, t.lexeme.getLast? = some z ∧ isNumberByte z = false := by
  obtain ⟨hproper, hpos⟩ := h.proper hx
  obtain ⟨hm, hfits⟩ := (Put.offset_edit_iff hts hproper hpos).1 hoffset
  obtain ⟨-, i, sign, hi, -, hsign, hequals⟩ := hproper
  by_cases hseen : t.isSeen = true
  · -- The token before the place is the sign itself.
    obtain ⟨broken, rfl⟩ := Stream.exists_symbol hsign
    have hlt : i < (Stream.ofSource source).symbols.length := (List.getElem?_eq_some_iff.1 hsign).1
    have hone : [t].filter Token.isSeen = [t] := List.filter_cons_of_pos hseen
    rw [List.filter_append, hone, List.length_append, List.length_singleton] at hm
    have hlen : i = (l.filter Token.isSeen).length := by
      simp only at hm
      omega
    have htoken : (Stream.ofSource source).token i = t := by
      have hi' := Stream.token_ofSource hlt
      rw [hts, List.filter_append, hlen, List.getElem?_append_right (Nat.le_refl _), Nat.sub_self,
        List.filter_cons_of_pos hseen] at hi'
      rw [hlen]
      exact (Option.some.inj hi').symm
    rw [htoken] at hequals
    simp only [equals, Expectation.accepts, Symbol.ofToken, Bool.and_eq_true,
      decide_eq_true_eq] at hequals
    rw [hequals.2]
    exact ⟨Number.byte '=', rfl, by decide⟩
  · -- Something else stands there: it has ended where a symbol of the source begins.
    obtain ⟨v, hne, hfirst, hnext⟩ := exists_text Position.start source hts
    have hvalid : t.kind ≠ .error := h.kind_ne_error (by rw [hts]; simp)
    have hunseen : t.kind.isSignificant = false := by
      have hend := first_kind_ne hne hfirst
      simpa [Token.isSeen, Token.isSignificant, hend] using hseen
    have hseen' : t'.isSeen = true := hfits
    obtain ⟨hsig, hend⟩ := Token.isSeen_iff.1 hseen'
    obtain ⟨v', rfl, hne', hfirst'⟩ := hnext.resolve_left hend
    have hvalid' : t'.kind ≠ .error := h.kind_ne_error (by rw [hts]; simp)
    have hblank : t'.kind ≠ .blank := by
      intro hk
      simp [Token.isSignificant, hk, Kind.isSignificant, Kind.isIgnored] at hsig
    have hbreak : t'.kind ≠ .lineBreak := by
      intro hk
      simp [Token.isSignificant, hk, Kind.isSignificant] at hsig
    obtain ⟨b, y, hb, hsolid⟩ := solid_of_first hne' hfirst' hvalid' hblank hbreak
    rw [hb] at hfirst
    exact last_of_first hne hfirst hvalid hunseen rfl hsolid

end Neighbours

/-- The texts of the edits at an offset, in their order. -/
def wordsAt (edits : List Edit) (n : Int) : List Text :=
  (edits.filter fun e => e.offset = n).map fun e => e.text

theorem mem_wordsAt {source : Text} {xs : List (Nat × Put)} {n : Int} {w : Text}
    (h : w ∈ wordsAt (xs.map (Put.edit (Stream.ofSource source))) n) :
    ∃ x ∈ xs, (Put.edit (Stream.ofSource source) x).offset = n ∧ w = x.2.text := by
  simp only [wordsAt, List.mem_map, List.mem_filter, decide_eq_true_eq] at h
  obtain ⟨e, ⟨⟨x, hx, rfl⟩, hn⟩, rfl⟩ := h
  refine ⟨x, hx, hn, ?_⟩
  obtain ⟨m, x⟩ := x
  cases x <;> rfl

/-- What repairs put in may stand where it is put. -/
theorem Repairs.placed (h : Repairs source P R) {xs : List (Nat × Put)}
    (hxs : ∀ x ∈ xs, x ∈ R.flatMap Repair.puts) :
    Placed (wordsAt (xs.map (Put.edit (Stream.ofSource source)))) Position.start source := by
  refine ⟨fun t ht => h.kind_ne_error ht, ?_, ?_⟩
  · intro t ht n hlt hgt
    -- Every put stands at the start of a token.
    refine List.eq_nil_iff_forall_not_mem.2 ?_
    intro w hw
    obtain ⟨x, hx, hn, -⟩ := mem_wordsAt hw
    obtain ⟨hproper, hpos⟩ := h.proper (hxs x hx)
    obtain ⟨y, hy, hoffset⟩ := exists_start_eq hproper hpos
    refine not_inside ht hy ?_
    omega
  · intro l t t' l' hts
    obtain ⟨v, hne, -⟩ := exists_text Position.start source hts
    refine ⟨?_, ?_⟩
    · intro c hc
      cases hws : wordsAt (xs.map (Put.edit (Stream.ofSource source))) t'.start.offset with
      | nil =>
        rw [hws] at hc
        cases hc
      | cons w ws =>
        obtain ⟨x, hx, hn, rfl⟩ := mem_wordsAt (by rw [hws]; exact List.mem_cons_self)
        obtain ⟨hproper, hpos⟩ := h.proper (hxs x hx)
        obtain ⟨b, s, hs, -, hapart⟩ := Put.exists_head (Put.valid_of_proper hproper)
        rw [hws, List.flatten_cons, hs] at hc
        cases hc
        -- A call begins with a name, so no word may end before it; a mark joins with nothing.
        by_cases hcall : ∃ T, x.2 = .before (some T)
        · obtain ⟨T, hT⟩ := hcall
          obtain ⟨m, x⟩ := x
          subst hT
          obtain ⟨z, hz, hnumber⟩ := last_before_call hts h (hxs _ hx) hn
          exact ⟨z, hz, hapart z fun _ => hnumber⟩
        · have hlast := List.getLast?_eq_some_getLast hne
          exact ⟨_, hlast, hapart _ fun hT => absurd hT hcall⟩
    · intro hws
      obtain ⟨w, hw⟩ := List.exists_mem_of_ne_nil _ hws
      obtain ⟨x, hx, hn, -⟩ := mem_wordsAt hw
      obtain ⟨hproper, hpos⟩ := h.proper (hxs x hx)
      obtain ⟨-, hfits⟩ := (Put.offset_edit_iff hts hproper hpos).1 hn
      obtain ⟨m, x⟩ := x
      cases x with
      | behind k => exact .inl (Token.isSeen_iff.1 hfits).1
      | before type => exact .inr (Token.isSeen_iff.1 hfits)

/-- What edits put into a text at an offset is what their words put in there. -/
theorem textAt_edits (edits : List Edit) (n : Nat) :
    Insertion.textAt (edits.map Edit.toInsertion) n = gapOf (wordsAt edits) n := by
  rw [Insertion.textAt, gapOf, wordsAt, List.filter_map, List.flatMap_map, List.flatMap_def]
  rfl

/-- The tokens of a text with edits made. -/
theorem Repairs.contents_splice (h : Repairs source P R) {xs : List (Nat × Put)}
    (hxs : ∀ x ∈ xs, x ∈ R.flatMap Repair.puts) :
    let edits := xs.map (Put.edit (Stream.ofSource source))
    Lexer.contents (source.splice (edits.map Edit.toInsertion)) =
      (tokens source).flatMap fun t =>
        ((wordsAt edits t.start.offset).flatMap fun w => (Lexer.contents w).dropLast) ++
          [t.content] := by
  intro edits
  have hrange : ∀ e ∈ edits.map Edit.toInsertion, 0 ≤ e.offset ∧ e.offset ≤ source.length := by
    intro e he
    simp only [edits, List.map_map, List.mem_map] at he
    obtain ⟨x, hx, rfl⟩ := he
    obtain ⟨hproper, hpos⟩ := h.proper (hxs x hx)
    obtain ⟨t, ht, hoffset⟩ := exists_start_eq hproper hpos
    have hle := start_le Position.start source t ht
    have hge := (tokens_ordered Position.start source).1 t ht
    simp only [Position.start, Function.comp_apply] at hle hge ⊢
    omega
  have hwords : ∀ m, ∀ w ∈ wordsAt edits m, Inserted w := by
    intro m w hw
    obtain ⟨x, hx, -, rfl⟩ := mem_wordsAt hw
    exact Put.inserted (Put.valid_of_proper (h.proper (hxs x hx)).1)
  rw [Text.splice_eq_filled hrange, funext (textAt_edits edits)]
  exact contents_filled hwords Position.start source rfl (h.placed hxs)

/-- Edits do not change how the text around them is read. Each one points to where a token starts,
and in the text with all edits made the tokens are the old ones, with those of the edits in front of
the token they point to, in the order of the edits. -/
theorem lex_splice {o : Options} {report : Report} (h : parse source o = .ok report) :
    (∀ e ∈ report.edits, ∃ t ∈ lex source true, e.offset = t.start.offset) ∧
      (lex (apply source report).text true).map Token.content =
        (lex source true).flatMap fun t =>
          ((report.edits.filter fun e => e.offset = t.start.offset).flatMap fun e =>
            (lex e.text true).dropLast.map Token.content) ++ [t.content] := by
  obtain ⟨ns, P, R, hreports, hrepairs, -⟩ := parse_retraced (fun _ _ => false) h
  have hxs : ∀ x ∈ (Repair.chosen (Stream.ofSource source) o R).flatMap Repair.puts,
      x ∈ R.flatMap Repair.puts := by
    intro x hx
    obtain ⟨r, hr, hx⟩ := List.mem_flatMap.1 hx
    exact List.mem_flatMap.2 ⟨r, List.mem_of_mem_filter hr, hx⟩
  refine ⟨?_, ?_⟩
  · intro e he
    rw [hreports.edits] at he
    obtain ⟨x, hx, rfl⟩ := List.mem_map.1 he
    obtain ⟨hproper, hpos⟩ := hrepairs.proper (hxs x hx)
    exact exists_start_eq hproper hpos
  · have hcontents := hrepairs.contents_splice hxs
    simp only [← hreports.edits] at hcontents
    refine hcontents.trans ?_
    refine List.flatMap_congr ?_
    intro t _
    rw [wordsAt, List.flatMap_map]
    simp only [List.map_dropLast]
    rfl

theorem lex_splice_int :
    ∃ report, parse (Text.ascii "int x=1.0") Options.all = .ok report ∧ report.edits.length = 3 ∧
      (lex (apply (Text.ascii "int x=1.0") report).text true).map Token.content =
        (lex (Text.ascii "int x=1.0") true).flatMap fun t =>
          ((report.edits.filter fun e => e.offset = t.start.offset).flatMap fun e =>
            (lex e.text true).dropLast.map Token.content) ++ [t.content] := by
  have hedits : (parse (Text.ascii "int x=1.0") Options.all).toOption.map
      (fun report => report.edits.length) = some 3 := by
    rw [parse, lex_eq_scan]
    decide +kernel
  obtain ⟨report, hreport, hlen⟩ := exists_ok_of_map hedits
  exact ⟨report, hreport, hlen, (lex_splice hreport).2⟩

end Document

end ShaderRepair

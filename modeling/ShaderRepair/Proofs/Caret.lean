import ShaderRepair.Proofs.CrlfDocument
import ShaderRepair.Proofs.Dispatch
import ShaderRepair.Proofs.LineColumn

/-!
# Where the caret points

The place of a token is found by moving along the source, rune by rune; an excerpt splits the source
into lines and shows them without their carriage returns. Both agree on the line and on the rune at
which the token begins. This file contains:
- `Text.lines_append`, the line in which a part of a text ends, and `Text.exists_shown`, what is
  shown of the rest of a line;
- `EndsRune.lastLine`, the reason why runes may be counted from the start of a line;
- `Text.rune_shown`, the rune of a shown line at which a token begins;
- `Lexer.exists_behind` and `Lexer.exists_at`, where a token stands;
- `ParseError.context_eq`, an excerpt in full;
- `Document.parse_caret`, for the error of a parse.
-/

namespace ShaderRepair

/-! ## Lines -/

namespace Text

open Reach

/-- The part up to the first line feed. -/
def firstLine (s : Text) : Text :=
  s.takeWhile (· ≠ lineFeed)

theorem firstLine_of_notMem {s : Text} (h : lineFeed ∉ s) : firstLine s = s :=
  List.takeWhile_eq_self_iff.2 fun _ hb => decide_eq_true fun heq => h (heq ▸ hb)

theorem firstLine_append_cons {s : Text} (h : lineFeed ∉ s) (x : Text) :
    firstLine (s ++ lineFeed :: x) = s := by
  have hall : ∀ b ∈ s, decide (b ≠ lineFeed) = true :=
    fun b hb => decide_eq_true fun heq => h (heq ▸ hb)
  rw [firstLine, List.takeWhile_append_of_pos hall]
  simp

/-- The line in which a part of a text ends goes on to the next line feed. -/
theorem lines_append (a u : Text) :
    ∃ front behind, lines (a ++ u) = front ++ (lastLine a ++ firstLine u) :: behind ∧
      front.length = a.count lineFeed := by
  induction a using line_induction with
  | last line h =>
    rw [lastLine_of_notMem h, List.count_eq_zero.2 h]
    rcases exists_line u with hu | ⟨rest, x, rfl, hrest⟩
    · refine ⟨[], [], ?_, rfl⟩
      rw [firstLine_of_notMem hu, lines, split_of_notMem]
      · rfl
      · exact fun hmem => (List.mem_append.1 hmem).elim h hu
    · refine ⟨[], lines x, ?_, rfl⟩
      rw [firstLine_append_cons hrest, lines, ← List.append_assoc, split_append_cons]
      · rfl
      · exact fun hmem => (List.mem_append.1 hmem).elim h hrest
  | line line x h ih =>
    obtain ⟨front, behind, hlines, hcount⟩ := ih
    refine ⟨line :: front, behind, ?_, ?_⟩
    · rw [List.append_assoc, List.cons_append, lines, split_append_cons _ h,
        lastLine_append_cons]
      exact congrArg (line :: ·) hlines
    · rw [List.length_cons, hcount, List.count_append, List.count_eq_zero.2 h,
        List.count_cons_self, Nat.zero_add]

/-- A line is shown from its start up to a byte that does not end it. -/
theorem chomp_append_cons {b : UInt8} (hb : b ≠ carriageReturn) (x w : Text) :
    chomp (x ++ b :: w) = x ++ b :: chomp w := by
  rcases List.eq_nil_or_concat w with rfl | ⟨w, c, rfl⟩
  · simp [chomp, dropFinal, hb]
  · have hassoc : x ++ b :: w.concat c = (x ++ b :: w) ++ [c] := by simp
    rw [hassoc, List.concat_eq_append, chomp, chomp]
    by_cases hc : c = carriageReturn
    · subst hc
      rw [dropFinal_append, dropFinal_append]
    · have hkept : ∀ s : Text, dropFinal carriageReturn (s ++ [c]) = s ++ [c] := by
        intro s
        simp [dropFinal, hc]
      rw [hkept, hkept, List.append_assoc, List.cons_append]

/-- What is shown of the rest of a line ends where no rune goes on. -/
theorem exists_shown (u : Text) : ∃ y, u = chomp (firstLine u) ++ y ∧ NoTail y := by
  obtain ⟨x, hu, hx⟩ : ∃ x, u = firstLine u ++ x ∧ NoTail x := by
    refine ⟨u.dropWhile (· ≠ lineFeed), List.takeWhile_append_dropWhile.symm, ?_⟩
    intro b y hb
    have hhead := List.head?_dropWhile_not (fun b : UInt8 => decide (b ≠ lineFeed)) u
    rw [hb] at hhead
    have hfeed : b = lineFeed := by simpa using hhead
    rw [hfeed]
    decide
  rcases chomp_cases (firstLine u) with hsame | hmore
  · exact ⟨x, by rw [hsame]; exact hu, hx⟩
  · refine ⟨carriageReturn :: x, ?_, ?_⟩
    · rw [← List.singleton_append, ← List.append_assoc, ← hmore]
      exact hu
    · rintro b y hb
      rw [← (List.cons.inj hb).1]
      decide

end Text

/-! ## Runes of a line -/

namespace EndsRune

variable {k : Nat} {x y v : Text}

/-- Where a rune ends in between, what comes before does not matter. -/
theorem of_append (h : EndsRune k (x ++ y) v) (hx : EndsRune k x (y ++ v)) : EndsRune 0 y v := by
  induction x generalizing k with
  | nil =>
    obtain rfl : k = 0 := hx
    exact h
  | cons b x ih =>
    cases k with
    | succ k => exact ih h hx
    | zero =>
      rw [List.cons_append, EndsRune, List.append_assoc] at h
      exact ih h hx

/-- Runes may be counted from the start of a line. -/
theorem lastLine {a : Text} (h : EndsRune 0 a v) : EndsRune 0 (Text.lastLine a) v := by
  induction a using Text.line_induction with
  | last line hline => rwa [Text.lastLine_of_notMem hline]
  | line line x hline ih =>
    rw [Text.lastLine_append_cons]
    rw [← List.singleton_append, ← List.append_assoc] at h
    exact ih (h.of_append (.of_getLast? List.getLast?_concat (by decide)))

end EndsRune

/-- A token begins with the rune at which the line shows it, after as many runes as there are
before it on the line. -/
theorem Text.rune_shown {a l v : Text} {b : UInt8} (hb : b ≠ lineFeed) (hb' : b ≠ carriageReturn)
    (ha : EndsRune 0 a (b :: l ++ v)) (hl : EndsRune 0 (b :: l) v) :
    (runes (chomp (lastLine a ++ firstLine (b :: l ++ v))))[(runes (lastLine a)).length]? =
      (runes (b :: l)).head? := by
  have hfirst : firstLine (b :: l ++ v) = b :: firstLine (l ++ v) :=
    List.takeWhile_cons_of_pos (decide_eq_true hb)
  obtain ⟨y, hy, htail⟩ := exists_shown (l ++ v)
  have hshown : Rune.first b (chomp (firstLine (l ++ v))) = Rune.first b (l ++ v) := by
    conv_rhs => rw [hy, Rune.first_append htail]
  have hlexeme : Rune.first b l = Rune.first b (l ++ v) := by
    have hle : EndsRune ((Rune.first b (l ++ v)).width - 1) l v := hl
    exact Rune.first_of_prefix (List.prefix_append l v) hle.le
  have hprefix : b :: chomp (firstLine (l ++ v)) <+: b :: l ++ v := by
    refine ⟨y, ?_⟩
    rw [List.cons_append, ← hy]
    rfl
  have hruns : runes (lastLine a ++ b :: chomp (firstLine (l ++ v))) =
      runes (lastLine a) ++ runes (b :: chomp (firstLine (l ++ v))) :=
    ha.lastLine.runesAfter_append hprefix
  rw [hfirst, chomp_append_cons hb', hruns, List.getElem?_append_right (Nat.le_refl _),
    Nat.sub_self]
  change some (Rune.first b (chomp (firstLine (l ++ v)))) = some (Rune.first b l)
  rw [hshown, hlexeme]

/-! ## Where tokens stand -/

namespace Lexer

open Reach

variable {a v : Text} {k : Kind} {tags : Tags}

/-- A carriage return belongs to a line break or is blank. -/
theorem reach_carriageReturn (s : Text) :
    0 < lineBreaks (Text.carriageReturn :: s) ∨ 0 < blanks (Text.carriageReturn :: s) := by
  have hrun : Text.blankRun (Text.carriageReturn :: s) = Text.blankAfter 0 s + 1 := by
    rw [Text.blankRun, Text.blankAfter, Rune.first_of_ascii (by decide)]
    rfl
  by_cases hfeed : [Text.carriageReturn, Text.lineFeed].isPrefixOf (Text.carriageReturn :: s) = true
  · obtain ⟨x, hx⟩ := List.isPrefixOf_iff_prefix.1 hfeed
    rw [← hx]
    exact .inl (Nat.succ_pos _)
  · refine .inr (Nat.pos_of_ne_zero fun hzero => hfeed ?_)
    rw [blanks, hrun, Nat.add_sub_cancel] at hzero
    split at hzero
    · next hsplit =>
      rw [hzero, Bool.and_eq_true] at hsplit
      exact hsplit.2
    · cases hzero

/-- A token that the grammar sees begins with no byte of a line break. -/
theorem exists_head (ha : a ≠ []) (h : first (a ++ v) = (k, a, tags))
    (hk : k.isSignificant = true) :
    ∃ b l, a = b :: l ∧ b ≠ Text.lineFeed ∧ b ≠ Text.carriageReturn := by
  by_cases herror : k = .error
  · subst herror
    obtain ⟨b, l, rfl⟩ := List.exists_cons_of_ne_nil ha
    -- A pattern for white space would apply.
    have hnone : ∀ p ∈ Pattern.list, ¬0 < p.reach (b :: (l ++ v)) := fun p hp hpos =>
      kind_ne_error_of_reach hp hpos (List.cons_ne_nil _ _) h rfl
    refine ⟨b, l, rfl, ?_, ?_⟩
    · rintro rfl
      exact hnone _ Pattern.lineBreaks_mem_list (Nat.succ_pos _)
    · rintro rfl
      exact (reach_carriageReturn (l ++ v)).elim (hnone _ Pattern.lineBreaks_mem_list)
        (hnone _ Pattern.blanks_mem_list)
  · have hblank : k ≠ .blank := by
      rintro rfl
      cases hk
    have hbreak : k ≠ .lineBreak := by
      rintro rfl
      cases hk
    obtain ⟨b, l, rfl, hb⟩ := solid_of_first ha h herror hblank hbreak
    rw [isSolid, Bool.and_eq_true, decide_eq_true_eq, decide_eq_true_eq] at hb
    refine ⟨b, l, rfl, ?_, ?_⟩
    · rintro rfl
      exact absurd hb.1 (by decide)
    · rintro rfl
      exact absurd hb.1 (by decide)

/-- A token that has bytes stands behind a part of the text that ends with a rune, and is the first
token of what follows. -/
theorem exists_behind (p : Position) (s : Text) :
    ∀ t ∈ tokensAfter Pattern.list 0 p s, t.kind ≠ .endOfInput →
      ∃ a v, s = a ++ (t.lexeme ++ v) ∧ EndsRune 0 a (t.lexeme ++ v) ∧ t.start = p.advance a ∧
        t.lexeme ≠ [] ∧ first (t.lexeme ++ v) = (t.kind, t.lexeme, t.tags) := by
  induction p, s using token_induction with
  | nil p =>
    intro t ht hk
    rw [List.mem_singleton.1 ht] at hk
    exact absurd rfl hk
  | token p k a tags v ha h ih =>
    intro t ht hk
    rw [tokensAfter_append ha h] at ht
    rcases List.mem_cons.1 ht with rfl | ht
    · exact ⟨[], v, rfl, rfl, (Position.advance_nil p).symm, ha, h⟩
    · obtain ⟨u, x, rfl, hu, hstart, hlexeme, hfirst⟩ := ih t ht hk
      have hends := endsRune_of_first ha h
      refine ⟨a ++ u, x, by rw [List.append_assoc], hends.append hu, ?_, hlexeme, hfirst⟩
      rw [hstart, Position.advance_append hends (List.prefix_append u _)]

/-- Only the end of input has no bytes. -/
theorem kind_ne_endOfInput_of_mem {source : Text} {t : Token} (ht : t ∈ tokens source)
    (hne : t.lexeme ≠ []) : t.kind ≠ .endOfInput := by
  obtain ⟨body, q, hbody, hall⟩ := tokens_shape Position.start source
  rw [tokens, tokensWith, hbody] at ht
  rcases List.mem_append.1 ht with ht | ht
  · exact (hall t ht).1
  · rw [List.mem_singleton.1 ht] at hne
    exact absurd rfl hne

/-- A token is the first token of the source from its start on. -/
theorem exists_at {source : Text} {t : Token} (ht : t ∈ tokens source)
    (hend : t.kind ≠ .endOfInput) :
    ∃ v, source.drop t.start.offset.toNat = t.lexeme ++ v ∧ t.lexeme ≠ [] ∧
      first (t.lexeme ++ v) = (t.kind, t.lexeme, t.tags) := by
  obtain ⟨a, v, hsource, -, hstart, hne, hfirst⟩ := exists_behind Position.start source t ht hend
  have hzero : Position.start.offset = (0 : Nat) := rfl
  refine ⟨v, ?_, hne, hfirst⟩
  rw [hstart, advance_offset hzero, Int.toNat_natCast, Nat.zero_add, hsource, List.drop_left]

end Lexer

/-! ## Excerpts -/

namespace ParseError

open Text (ascii ofNat)

/-- The excerpt that shows `line` between its neighbours, with the caret under the rune that has
the index `column` in it. -/
def excerptAt (e : ParseError) (front : List Text) (line : Text) (behind : List Text)
    (column : Nat) : Text :=
  ascii "error: " ++ e.message ++ ascii "\n" ++
    ascii "  --> line " ++ ofNat (front.length + 1) ++ ascii ":" ++ ofNat (column + 1) ++
    ascii "\n" ++
    ascii "    |\n" ++
    front.getLast?.elim [] (numbered front.length) ++
    numbered (front.length + 1) line ++
    ascii "    | " ++ List.replicate column 32 ++ ascii "^\n" ++
    behind.head?.elim [] (numbered (front.length + 2))

variable {e : ParseError} {front behind : List Text} {line : Text} {column : Nat}

theorem text_eq (hline : e.token.start.line = front.length + 1)
    (hcolumn : e.token.start.column = column + 1) :
    e.text = ascii "line " ++ ofNat (front.length + 1) ++ ascii ", column " ++
      ofNat (column + 1) ++ ascii ": " ++ e.message := by
  rw [text, hline, hcolumn]
  rfl

/-- An excerpt shows the neighbours that the line has among the given ones. -/
theorem excerpt_eq
    (hclamp : clampColumn e.token.start.column (Text.chomp line) = column + 1) :
    e.excerpt (front ++ line :: behind) front.length line =
      e.excerptAt front line behind column := by
  have hafter : (front ++ line :: behind)[front.length + 1]? = behind.head? := by
    cases behind <;> simp
  rw [excerpt.eq_def, hclamp, hafter, excerptAt]
  rcases List.eq_nil_or_concat front with rfl | ⟨front, before, rfl⟩
  · cases behind <;> rfl
  · have hbefore : (front ++ [before] ++ line :: behind).getD front.length [] = before := by simp
    rw [List.concat_eq_append, List.length_append, List.length_singleton, List.getLast?_concat]
    simp only [hbefore]
    cases behind <;> rfl

/-- The excerpt around a line of the source, with the caret under one of its runes. -/
theorem context_eq (hsource : Text.lines e.source = front ++ line :: behind) (hne : e.source ≠ [])
    (hline : e.token.start.line = front.length + 1) (hcolumn : e.token.start.column = column + 1)
    (hwidth : column ≤ (Text.runes (Text.chomp line)).length) :
    e.context = e.excerptAt front line behind column := by
  have hempty : e.source.isEmpty = false := by simpa using hne
  have hpos : ¬e.token.start.line < 1 := by omega
  have hindex : e.token.start.line.toNat - 1 = front.length := by omega
  have hfound : (front ++ line :: behind)[front.length]? = some line := by simp
  have hclamp : clampColumn e.token.start.column (Text.chomp line) = column + 1 := by
    rw [clampColumn, hcolumn]
    omega
  rw [context, hempty, hindex, hsource]
  simp only [hpos, hfound, decide_false, Bool.or_self, Bool.false_eq_true, if_false]
  exact excerpt_eq hclamp

end ParseError

/-! ## Parses -/

namespace Document

open Text (ascii ofNat)

/-- The error of a parse is about a token of the source that the grammar sees, or about its end. -/
theorem token_of_parse_error {source : Text} {o : Options} {e : ParseError}
    (h : parse source o = .error e) :
    e.source = source ∧ e.token ∈ Lexer.tokens source ∧ e.token.isSignificant = true := by
  have hsymbols : (Stream.ofSource source).symbols =
      (Stream.ofTokens (Lexer.lex source false)).symbols := rfl
  rcases parseTokens_of_symbols hsymbols source source o with
    ⟨ns, R, -, hok, -⟩ | ⟨why, herror, -⟩
  · rw [parse, hok] at h
    cases h
  · rw [parse, herror] at h
    cases h
    exact ⟨rfl, Stream.token_mem source _, Stream.isSignificant_token source _⟩

end Document

end ShaderRepair

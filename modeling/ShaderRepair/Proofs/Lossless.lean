import Mathlib.Data.List.Chain
import ShaderRepair.Proofs.Boundary
import ShaderRepair.Proofs.Ignored

/-!
# Lexing loses nothing

Every text is cut into tokens from its first byte to its last. This file contains:
- `Lexer.Covers`, tokens that cover a text from a position on, and that those of a text do;
- what follows for the tokens: they have bytes, each starts where the one before stops, and their
  lexemes are the text;
- `Lexer.lex_lossless`, all of it for the tokens of a source, with the bounds that the patterns and
  the runes keep.
-/

namespace ShaderRepair

namespace Lexer

/-! ## Tokens that cover a text -/

/-- Tokens that cover a text which starts at `p`: each takes bytes from the front, and the end of
input stands where nothing is left. -/
inductive Covers : Position → Text → List Token → Prop where
  | finish (p : Position) : Covers p [] [Token.endAt p]
  | token {t : Token} {v : Text} {ts : List Token} (hkind : t.kind ≠ .endOfInput)
      (hlexeme : t.lexeme ≠ []) (hstop : t.stop = t.start.advance t.lexeme) :
      Covers t.stop v ts → Covers t.start (t.lexeme ++ v) (t :: ts)

theorem tokensAfter_covers (p : Position) (s : Text) :
    Covers p s (tokensAfter Pattern.list 0 p s) := by
  induction p, s using token_induction with
  | nil p => exact .finish p
  | token p k a tags v ha h ih =>
    rw [tokensAfter_append ha h]
    exact .token (t := ⟨k, a, p, p.advance a, tags⟩) (first_kind_ne ha h) ha rfl ih

namespace Covers

variable {p : Position} {s : Text} {ts : List Token}

/-- The end of input comes last, where the text ends. -/
theorem exists_body (h : Covers p s ts) :
    ∃ body q, ts = body ++ [Token.endAt q] ∧ q.offset = p.offset + s.length ∧
      ∀ t ∈ body, t.kind ≠ .endOfInput ∧ t.lexeme ≠ [] := by
  induction h with
  | finish p => exact ⟨[], p, rfl, (Int.add_zero _).symm, by simp⟩
  | token hkind hlexeme hstop h ih =>
    rename_i t v ts
    obtain ⟨body, q, rfl, hq, hbody⟩ := ih
    refine ⟨t :: body, q, rfl, ?_, ?_⟩
    · rw [hq, hstop, List.length_append]
      change t.start.offset + t.lexeme.length + v.length = _
      omega
    · intro y hy
      rcases List.mem_cons.1 hy with rfl | hy
      · exact ⟨hkind, hlexeme⟩
      · exact hbody y hy

/-- The first token stands at the start of the text. -/
theorem exists_head (h : Covers p s ts) : ∃ t more, ts = t :: more ∧ t.start = p := by
  cases h with
  | finish p => exact ⟨_, [], rfl, rfl⟩
  | token hkind hlexeme hstop h => exact ⟨_, _, rfl, rfl⟩

theorem isChain (h : Covers p s ts) : ts.IsChain fun t t' => t'.start = t.stop := by
  induction h with
  | finish p => exact .singleton _
  | token hkind hlexeme hstop h ih =>
    obtain ⟨t', more, rfl, hstart⟩ := h.exists_head
    exact List.isChain_cons_cons.2 ⟨hstart, ih⟩

theorem stop_offset (h : Covers p s ts) :
    ∀ t ∈ ts, t.stop.offset = t.start.offset + t.lexeme.length := by
  induction h with
  | finish p =>
    intro t ht
    rw [List.mem_singleton.1 ht]
    exact (Int.add_zero _).symm
  | token hkind hlexeme hstop h ih =>
    intro t ht
    rcases List.mem_cons.1 ht with rfl | ht
    · rw [hstop]
      rfl
    · exact ih t ht

theorem flatMap_lexeme (h : Covers p s ts) : ts.flatMap Token.lexeme = s := by
  induction h with
  | finish p => rfl
  | token hkind hlexeme hstop h ih => rw [List.flatMap_cons, ih]

end Covers

/-! ## The tokens of a source -/

/-- Tokens with nothing of the source lost between them: one end of input, at the end; bytes in
every other token; each token where the one before stops; and the lexemes in order. -/
structure Lossless (source : Text) (ts : List Token) : Prop where
  finish : ∃ body q, ts = body ++ [Token.endAt q] ∧ q.offset = source.length ∧
    ∀ t ∈ body, t.kind ≠ .endOfInput ∧ t.lexeme ≠ []
  head : (ts.head?.map fun t => t.start.offset) = some 0
  adjacent : ts.IsChain fun t t' => t'.start = t.stop
  width : ∀ t ∈ ts, t.stop.offset = t.start.offset + t.lexeme.length
  lexemes : ts.flatMap Token.lexeme = source

/-- Lexing is lossless, whatever the bytes are. No pattern claims more bytes than there are, and
where none applies the rune that becomes a token has at least one byte and lies within the text. -/
theorem lex_lossless (source : Text) :
    Lossless source (lex source true) ∧
      lex source false = (lex source true).filter (fun t => !t.isIgnored) ∧
      (∀ pattern ∈ Pattern.list, ∀ s, pattern.reach s ≤ s.length) ∧
      ∀ b s, 0 < (Rune.first b s).width ∧ (Rune.first b s).width ≤ (b :: s).length := by
  have h : Covers Position.start source (lex source true) := tokensAfter_covers _ source
  refine ⟨⟨?_, ?_, h.isChain, h.stop_offset, h.flatMap_lexeme⟩, rfl, fun _ => reach_le, ?_⟩
  · obtain ⟨body, q, hts, hq, hbody⟩ := h.exists_body
    refine ⟨body, q, hts, ?_, hbody⟩
    rw [hq]
    exact Int.zero_add _
  · obtain ⟨t, more, hts, hstart⟩ := h.exists_head
    rw [hts, List.head?_cons, Option.map_some, hstart]
    rfl
  · intro b s
    have hle := Text.first_width_le b s
    refine ⟨width_pos _, ?_⟩
    rw [List.length_cons]
    omega

end Lexer

end ShaderRepair

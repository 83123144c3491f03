import ShaderRepair.Proofs.Caret
import ShaderRepair.Proofs.Dispatch

/-!
# Words

The order of the keywords is free, since scanning does not ask for it, and a token that begins with
a letter or an underscore is the word that stands there. This file contains:
- `Lexer.word_of_mem`, what a token is that begins like a word;
- `Lexer.lex_keyword_order`, about all tokens and all orders of the keywords.
-/

namespace ShaderRepair

open Reach

namespace Lexer

/-- The tokens of a source under a given list of patterns, with or without the ignored ones. -/
def lexWith (patterns : List Pattern) (source : Text) (keepIgnored : Bool) : List Token :=
  if keepIgnored then tokensWith patterns source
  else (tokensWith patterns source).filter fun t => !t.isIgnored

theorem mem_tokens_of_mem_lex {source : Text} {keepIgnored : Bool} {t : Token}
    (ht : t ∈ lex source keepIgnored) : t ∈ tokens source := by
  rw [lex] at ht
  split at ht
  · exact ht
  · exact List.mem_of_mem_filter ht

/-- A token that begins like a word is the word that stands there. -/
theorem word_of_mem {source : Text} {t : Token} (ht : t ∈ tokens source) {b : UInt8} {x : Text}
    (hlexeme : t.lexeme = b :: x) (hb : isWordStart b = true) :
    t.lexeme = (source.drop t.start.offset.toNat).takeWhile isWordByte ∧
      (t.kind, t.tags) = Lexicon.classify t.lexeme := by
  have hend : t.kind ≠ .endOfInput := kind_ne_endOfInput_of_mem ht (by simp [hlexeme])
  obtain ⟨v, hdrop, -, hfirst⟩ := exists_at ht hend
  have hcons : t.lexeme ++ v = b :: (x ++ v) := by rw [hlexeme, List.cons_append]
  rw [hcons, first_word hb, ← hcons, ← hdrop] at hfirst
  have hword : (source.drop t.start.offset.toNat).takeWhile isWordByte = t.lexeme :=
    congrArg (fun content => content.2.1) hfirst
  rw [hword] at hfirst
  have hkind : (Lexicon.classify t.lexeme).1 = t.kind := congrArg Prod.fst hfirst
  have htags : (Lexicon.classify t.lexeme).2 = t.tags :=
    congrArg (fun content => content.2.2) hfirst
  exact ⟨hword.symm, by rw [← hkind, ← htags]⟩

/-- Every order of the keywords leads to the same tokens, and in each of them what begins with a
letter or an underscore is the longest run of letters, digits and underscores there, which is what
the tables say. -/
theorem lex_keyword_order {keywords : Lexicon.Table Kind} (h : keywords.Perm Lexicon.keywords)
    (source : Text) (keepIgnored : Bool) :
    lexWith (Pattern.listWith keywords) source keepIgnored = lex source keepIgnored ∧
      ∀ t ∈ lex source keepIgnored, ∀ b x, t.lexeme = b :: x → isWordStart b = true →
        t.lexeme = (source.drop t.start.offset.toNat).takeWhile isWordByte ∧
          (t.kind, t.tags) = Lexicon.classify t.lexeme := by
  constructor
  · rw [lexWith, tokensWith_eq_scan h, lex_eq_scan]
  · intro t ht b x hlexeme hb
    exact word_of_mem (mem_tokens_of_mem_lex ht) hlexeme hb

/-- The keywords in the reverse order. -/
theorem lex_keyword_reversed :
    Lexicon.keywords.reverse.Perm Lexicon.keywords ∧
      lexWith (Pattern.listWith Lexicon.keywords.reverse) (Text.ascii "if iffy in true") false =
        lex (Text.ascii "if iffy in true") false ∧
      (lex (Text.ascii "if iffy in true") false).map Token.kind =
        [.if, .identifier, .qualifier, .literal, .endOfInput] := by
  refine ⟨List.reverse_perm _, (lex_keyword_order (List.reverse_perm _) _ _).1, ?_⟩
  rw [lex_eq_scan]
  decide +kernel

end Lexer

end ShaderRepair

import ShaderRepair.Proofs.CarrySession
import ShaderRepair.Proofs.Dispatch
import ShaderRepair.Proofs.Insertions
import ShaderRepair.Proofs.PassageMap

/-!
# What the source says is in the tree

No identifier, literal or operator of a source is lost on the way to its tree, and none changes
places, whatever was missing between them. This file contains:
- what lexing has settled: a word of the language is no identifier, and every operator has the roles
  of its lexeme;
- `Token.ordinary_of_mem`, which draws from this what reading a tree relies on;
- `Document.parse_atoms`, the atoms of a module are those of its source.
-/

namespace ShaderRepair

open Grammar

/-! ## Words and operators -/

namespace Lexer

variable {a v : Text} {k : Kind} {tags : Tags}

/-- There is one pattern for identifiers and one for operators. -/
theorem pattern_of_kind {p : Pattern} (hp : p ∈ Pattern.list) :
    (p.kind = .identifier → p = Pattern.plain .identifier Reach.word) ∧
      (p.kind = .operator → p = Pattern.operator) := by
  simp only [Pattern.list, Pattern.listWith, List.mem_append, List.mem_singleton] at hp
  rcases hp with (((hp | hp) | rfl) | hp) | rfl
  · have hkind : ∀ k ∈ ((Pattern.listWith []).take 11).map Pattern.kind,
        k ≠ .identifier ∧ k ≠ .operator := by decide
    have hne := hkind p.kind (List.mem_map_of_mem hp)
    exact ⟨fun h => absurd h hne.1, fun h => absurd h hne.2⟩
  · obtain ⟨⟨w, k⟩, hwk, rfl⟩ := List.mem_map.1 hp
    have hkind : ∀ e ∈ Lexicon.keywords, e.2 ≠ .identifier ∧ e.2 ≠ .operator := by decide
    exact ⟨fun h => absurd h (hkind _ hwk).1, fun h => absurd h (hkind _ hwk).2⟩
  · exact ⟨fun _ => rfl, fun h => absurd h (by decide)⟩
  · have hkind : ∀ k ∈ Pattern.punctuation.map Pattern.kind,
        k ≠ .identifier ∧ k ≠ .operator := by decide
    have hne := hkind p.kind (List.mem_map_of_mem hp)
    exact ⟨fun h => absurd h hne.1, fun h => absurd h hne.2⟩
  · exact ⟨fun h => absurd h (by decide), fun _ => rfl⟩

/-- A qualifier is no identifier, since its pattern comes first. -/
theorem find_qualifier_of_first (ha : a ≠ [])
    (h : first (a ++ v) = (.identifier, a, tags)) : Lexicon.qualifiers.find a = none := by
  obtain ⟨p, hp, hlong, hkind, -, hreach, -⟩ := exists_pattern ha h (by decide)
  obtain rfl := (pattern_of_kind hp).1 hkind
  have hword : Reach.word (a ++ v) = a.length := hreach
  by_contra hfind
  have hqualifier : a.length ≤ Pattern.qualifier.reach (a ++ v) := by
    have hfound : (Lexicon.qualifiers.find a).isSome = true := Option.isSome_iff_ne_none.2 hfind
    have hpos := List.length_pos_iff.2 ha
    change a.length ≤ Reach.wordOf Lexicon.qualifiers (a ++ v)
    simp [Reach.wordOf, hword, hpos, hfound]
  rw [← List.take_append_drop 11 Pattern.list] at hlong
  have hmem := Pattern.mem_of_longest hlong (List.mem_of_getElem? (i := 10) rfl) hqualifier
  have hearly : ∀ k ∈ (Pattern.list.take 11).map Pattern.kind, k ≠ .identifier := by decide
  exact hearly _ (List.mem_map_of_mem hmem) rfl

/-- An operator has the roles of its lexeme. -/
theorem roles_of_first (ha : a ≠ []) (h : first (a ++ v) = (.operator, a, tags)) :
    tags.roles = (Lexicon.operators.find a).getD Roles.none := by
  obtain ⟨p, hp, -, hkind, htags, -⟩ := exists_pattern ha h (by decide)
  obtain rfl := (pattern_of_kind hp).2 hkind
  rw [← htags]
  rfl

/-- Each token of a text but the end of input is the first one of the text from there on. -/
theorem exists_first_of_mem (p : Position) (s : Text) {t : Token}
    (ht : t ∈ tokensAfter Pattern.list 0 p s) (hend : t.kind ≠ .endOfInput) :
    ∃ v, t.lexeme ≠ [] ∧ first (t.lexeme ++ v) = t.content := by
  induction p, s using token_induction with
  | nil p =>
    rcases List.mem_singleton.1 ht with rfl
    exact absurd rfl hend
  | token p k a tags v ha hfirst ih =>
    rw [tokensAfter_append ha hfirst] at ht
    rcases List.mem_cons.1 ht with rfl | ht
    · exact ⟨v, ha, hfirst⟩
    · exact ih ht

end Lexer

/-! ## Ordinary symbols -/

/-- The question mark is the only operator of a conditional. -/
theorem Lexicon.conditional_iff {w : Text}
    (h : ((operators.find w).getD Roles.none).has .conditional = true) : w = Text.ascii "?" := by
  cases hfind : operators.find w with
  | none =>
    rw [hfind] at h
    cases h
  | some roles =>
    rw [hfind] at h
    obtain ⟨l, l', hentries, -⟩ := List.lookup_eq_some_iff.1 hfind
    have hmem : (w, roles) ∈ operators := by simp [hentries]
    have honly : ∀ e ∈ operators, e.2.has .conditional = true → e.1 = Text.ascii "?" := by decide
    exact honly _ hmem h

namespace Token

variable {source : Text} {t : Token}

theorem ordinary_of_mem (ht : t ∈ Lexer.tokens source) (broken : Bool) :
    Ordinary (Symbol.ofToken broken t) := by
  refine ⟨fun hplays => ?_, fun hkind hshared => ?_⟩
  · have hkind : t.kind = .operator := Symbol.kind_of_plays hplays
    obtain ⟨v, ha, hfirst⟩ := Lexer.exists_first_of_mem _ _ ht (by rw [hkind]; decide)
    rw [Token.content, hkind] at hfirst
    refine Lexicon.conditional_iff (w := t.lexeme) ?_
    rw [← Lexer.roles_of_first ha hfirst]
    simp only [Symbol.plays, Symbol.ofToken, Bool.and_eq_true] at hplays
    exact hplays.2
  · have hkind' : t.kind = .identifier := hkind
    obtain ⟨v, ha, hfirst⟩ := Lexer.exists_first_of_mem _ _ ht (by rw [hkind']; decide)
    rw [Token.content, hkind'] at hfirst
    have hnone := Lexer.find_qualifier_of_first ha hfirst
    rw [show t.lexeme = Text.ascii "shared" from hshared] at hnone
    exact absurd hnone (by decide)

end Token

namespace Stream

/-- The symbols of a source show tokens of the source. -/
theorem exists_token_of_mem {source : Text} {x : Symbol} (hx : x ∈ (ofSource source).symbols) :
    ∃ t ∈ Lexer.tokens source, ∃ broken, x = Symbol.ofToken broken t := by
  obtain ⟨i, hi, rfl⟩ := List.getElem_of_mem hx
  obtain ⟨broken, hshown⟩ := exists_symbol (List.getElem?_eq_getElem hi)
  have hmem := List.mem_of_mem_filter (List.mem_of_getElem? (token_ofSource hi))
  exact ⟨_, hmem, broken, hshown⟩

/-- The symbols of a source show its atoms. -/
theorem atoms_symbols (source : Text) :
    (ofSource source).symbols.filterMap Symbol.atom? =
      (Lexer.lex source false).filterMap Token.atom? := by
  have hsymbols : (ofSource source).symbols.filterMap Symbol.atom? =
      (ofSource source).tokens.toList.filterMap Token.atom? := by
    simp only [ofSource, ofTokens, List.filterMap_map]
    rfl
  rw [hsymbols, tokens_ofSource, List.filterMap_filter, Lexer.lex, if_neg Bool.false_ne_true,
    List.filterMap_filter]
  -- Atoms are seen, so that it does not matter which other tokens are left out.
  refine List.filterMap_congr fun t _ => ?_
  by_cases hatom : t.atom? = none
  · simp [hatom]
  · have hkind : t.isSeen = true ∧ t.isIgnored = false := by
      unfold Token.atom? Atom.ofLexeme at hatom
      split at hatom
      · next hk => simp [Token.isSeen, Token.isSignificant, Kind.isSignificant, Token.isIgnored,
          Kind.isIgnored, hk]
      · next hk => simp [Token.isSeen, Token.isSignificant, Kind.isSignificant, Token.isIgnored,
          Kind.isIgnored, hk]
      · next hk => simp [Token.isSeen, Token.isSignificant, Kind.isSignificant, Token.isIgnored,
          Kind.isIgnored, hk]
      · exact absurd rfl hatom
    simp [hkind.1, hkind.2]

end Stream

/-! ## Sources and their trees -/

namespace Document

variable {source : Text} {o : Options} {report : Report}

/-- Nothing is lost or reordered in the tree: the identifiers, literals and operators of a source
that is parsed, under any options, with edits or without, are those of the module in order. -/
theorem parse_atoms (h : parse source o = .ok report) :
    (Lexer.lex source false).filterMap Token.atom? = report.module.atoms := by
  obtain ⟨ns, t, hmodule, hcontent⟩ := parseTokens_content h
  have hord : ∀ x ∈ (Stream.ofSource source).symbols, Ordinary x := by
    intro x hx
    obtain ⟨y, hy, broken, rfl⟩ := Stream.exists_token_of_mem hx
    exact Token.ordinary_of_mem hy broken
  calc (Lexer.lex source false).filterMap Token.atom?
      = (Stream.ofSource source).symbols.filterMap Symbol.atom? :=
        (Stream.atoms_symbols source).symm
    _ = Passage.atomsAll (Node.passagesAll ns) := hcontent.atoms hord
    _ = Module.atoms (ns.map Fragment.item) := by rw [Module.atoms, Module.passages_map_item]
    _ = report.module.atoms := by rw [hmodule, Module.atoms_mapWith]

/-- The keyword `shared` is left out, and so are the marks that are missing. -/
theorem parse_atoms_assumed :
    ∃ report, parse (Text.ascii "layout(shared, b=2) uniform B \x7b int v[3] \x7d x\nf(a ? b c)++")
        Options.all = .ok report ∧
      report.edits.length = 4 ∧
      (Lexer.lex (Text.ascii "layout(shared, b=2) uniform B \x7b int v[3] \x7d x\nf(a ? b c)++")
        false).filterMap Token.atom? = report.module.atoms := by
  have hedits : (parse
      (Text.ascii "layout(shared, b=2) uniform B \x7b int v[3] \x7d x\nf(a ? b c)++")
      Options.all).toOption.map (fun report => report.edits.length) = some 4 := by
    rw [parse, Lexer.lex_eq_scan]
    decide +kernel
  obtain ⟨report, hreport, hlen⟩ := exists_ok_of_map hedits
  exact ⟨report, hreport, hlen, parse_atoms hreport⟩

end Document

end ShaderRepair

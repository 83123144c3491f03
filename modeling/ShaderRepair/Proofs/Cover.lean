import ShaderRepair.Proofs.CarrySession
import ShaderRepair.Proofs.Dispatch
import ShaderRepair.Proofs.Family
import ShaderRepair.Proofs.PassageMap
import ShaderRepair.Proofs.Placement

/-!
# Extents in the source

Extents go from token to token. This file contains:
- the order of tokens by their number, which carries over to extents;
- `Document.InPlace`, an extent that stands in a source with others inside it;
- `Document.parse_extents`: all extents of a module are in place, and its items share out the tokens
  of the source among themselves.
-/

namespace ShaderRepair

open Grammar

/-! ## Extents of tokens -/

namespace Extent

/-- The extent covers no byte that the other one does not. -/
def Inside (x y : Extent Token) : Prop :=
  y.first.start.offset ≤ x.first.start.offset ∧ x.last.stop.offset ≤ y.last.stop.offset

/-- The extent ends before the other one starts. -/
def Before (x y : Extent Token) : Prop :=
  x.last.stop.offset ≤ y.first.start.offset

/-- The token stands inside the extent. -/
def Covers (x : Extent Token) (t : Token) : Prop :=
  x.first.start.offset ≤ t.start.offset ∧ t.stop.offset ≤ x.last.stop.offset

end Extent

namespace Document

/-- An extent of a source with those directly inside it: it goes from the start of a token to the
end of a token and is not empty, and the others stand inside it, one before the other. -/
structure InPlace (source : Text) (f : Extent Token × List (Extent Token)) : Prop where
  first : f.1.first ∈ Lexer.lex source false ∧ f.1.first.isSeen = true
  last : f.1.last ∈ Lexer.lex source false ∧ f.1.last.isSeen = true
  nonempty : f.1.first.start.offset < f.1.last.stop.offset
  inside : ∀ x ∈ f.2, x.Inside f.1
  apart : f.2.Pairwise Extent.Before

end Document

/-! ## Tokens by number -/

namespace Stream

variable {source : Text} {i j : Nat}

theorem mem_lex_iff {t : Token} (hseen : t.isSeen = true) :
    t ∈ Lexer.lex source false ↔ t ∈ Lexer.tokens source := by
  have hign : t.isIgnored = false := by
    have hsig := (Token.isSeen_iff.1 hseen).1
    simp only [Token.isSignificant, Kind.isSignificant, Bool.and_eq_true] at hsig
    simpa [Token.isIgnored] using hsig.1
  simp [Lexer.lex, hign]

/-- The tokens that have a number are those that the grammar sees. -/
theorem mem_lex_of_lt (hi : i < (ofSource source).symbols.length) :
    (ofSource source).token i ∈ Lexer.lex source false ∧
      ((ofSource source).token i).isSeen = true := by
  obtain ⟨hmem, hseen⟩ := List.mem_filter.1 (List.mem_of_getElem? (token_ofSource hi))
  exact ⟨(mem_lex_iff hseen).2 hmem, hseen⟩

theorem exists_number {t : Token} (ht : t ∈ Lexer.lex source false) (hseen : t.isSeen = true) :
    ∃ i < (ofSource source).symbols.length, (ofSource source).token i = t := by
  have hmem : t ∈ (Lexer.tokens source).filter Token.isSeen :=
    List.mem_filter.2 ⟨(mem_lex_iff hseen).1 ht, hseen⟩
  obtain ⟨i, hi, rfl⟩ := List.getElem_of_mem hmem
  rw [← length_symbols] at hi
  refine ⟨i, hi, ?_⟩
  have htoken := token_ofSource hi
  rw [List.getElem?_eq_getElem] at htoken
  exact (Option.some.inj htoken).symm

theorem start_lt_stop (hi : i < (ofSource source).symbols.length) :
    ((ofSource source).token i).start.offset < ((ofSource source).token i).stop.offset := by
  obtain ⟨hmem, hseen⟩ := mem_lex_of_lt hi
  exact Lexer.start_lt_stop ((mem_lex_iff hseen).1 hmem) hseen

section Order

variable (hi : i < (ofSource source).symbols.length) (hj : j < (ofSource source).symbols.length)
include hi hj

/-- Of two tokens one lies behind the other, in the order of their numbers. -/
theorem order_cases :
    i < j ∧ ((ofSource source).token i).stop.offset ≤ ((ofSource source).token j).start.offset ∨
      i = j ∨
      j < i ∧ ((ofSource source).token j).stop.offset ≤ ((ofSource source).token i).start.offset :=
  match Nat.lt_trichotomy i j with
  | .inl hlt => .inl ⟨hlt, (Document.token_ordered hlt hj).2⟩
  | .inr (.inl heq) => .inr (.inl heq)
  | .inr (.inr hlt) => .inr (.inr ⟨hlt, (Document.token_ordered hlt hi).2⟩)

/-- A token ends before another one starts if its number is smaller. -/
theorem stop_le_start_iff :
    ((ofSource source).token i).stop.offset ≤ ((ofSource source).token j).start.offset ↔ i < j := by
  have hi' := start_lt_stop hi
  have hj' := start_lt_stop hj
  rcases order_cases hi hj with ⟨hlt, h⟩ | rfl | ⟨hlt, h⟩ <;> omega

theorem start_le_iff :
    ((ofSource source).token i).start.offset ≤ ((ofSource source).token j).start.offset ↔
      i ≤ j := by
  have hi' := start_lt_stop hi
  have hj' := start_lt_stop hj
  rcases order_cases hi hj with ⟨hlt, h⟩ | rfl | ⟨hlt, h⟩ <;> omega

theorem stop_le_iff :
    ((ofSource source).token i).stop.offset ≤ ((ofSource source).token j).stop.offset ↔
      i ≤ j := by
  have hi' := start_lt_stop hi
  have hj' := start_lt_stop hj
  rcases order_cases hi hj with ⟨hlt, h⟩ | rfl | ⟨hlt, h⟩ <;> omega

end Order

end Stream

/-! ## Modules -/

namespace Document

variable {source : Text} {o : Options} {report : Report}

/-- A family that is in order between the symbols of a source is in place. -/
theorem inPlace_of_nests {f : Extent Nat × List (Extent Nat)} (h : Nests f)
    (hle : f.1.first ≤ f.1.last) (hlt : f.1.last < (Stream.ofSource source).symbols.length) :
    InPlace source (Passage.mapFamily (Stream.ofSource source).token f) := by
  have hfirst := Nat.lt_of_le_of_lt hle hlt
  refine ⟨Stream.mem_lex_of_lt hfirst, Stream.mem_lex_of_lt hlt, ?_, ?_, ?_⟩
  · have hstart := (Stream.start_le_iff hfirst hlt).2 hle
    have hlast := Stream.start_lt_stop hlt
    simp only [Passage.mapFamily, Extent.map]
    omega
  · intro x hx
    obtain ⟨y, hy, rfl⟩ := List.mem_map.1 hx
    obtain ⟨hyfirst, hyle, hylast⟩ := h.bounds hy
    exact ⟨(Stream.start_le_iff hfirst (by omega)).2 hyfirst,
      (Stream.stop_le_iff (by omega) hlt).2 (by omega)⟩
  · refine List.pairwise_map.2 (h.pairwise.imp_of_mem fun {x y} hx hy hxy => ?_)
    have hxb := h.bounds hx
    have hyb := h.bounds hy
    exact (Stream.stop_le_start_iff (by omega) (by omega)).2 hxy

/-- Extents that follow each other without a gap share out the tokens: each one belongs to exactly
one of them. -/
theorem existsUnique_covers {xs : List (Extent Nat)}
    (h : Tiles 0 xs (Stream.ofSource source).symbols.length) {t : Token}
    (ht : t ∈ Lexer.lex source false) (hseen : t.isSeen = true) :
    ∃! k : Nat, ∃ y : Extent Token,
      (xs.map (Extent.map (Stream.ofSource source).token))[k]? = some y ∧ y.Covers t := by
  obtain ⟨i, hi, rfl⟩ := Stream.exists_number ht hseen
  -- An extent covers a token if the number of the token is in it.
  have hiff : ∀ x ∈ xs, (x.map (Stream.ofSource source).token).Covers
      ((Stream.ofSource source).token i) ↔ x.first ≤ i ∧ i ≤ x.last := by
    intro x hx
    obtain ⟨-, hle, hlast⟩ := h.row.bounds hx
    exact and_congr (Stream.start_le_iff (by omega) hi) (Stream.stop_le_iff hi hlast)
  obtain ⟨k, x, hx, hcover⟩ := h.exists_covering (Nat.zero_le i) hi
  refine ⟨k, ⟨_, by rw [List.getElem?_map, hx]; rfl,
    (hiff x (List.mem_of_getElem? hx)).2 hcover⟩, ?_⟩
  rintro k' ⟨y, hy, hcover'⟩
  rw [List.getElem?_map, Option.map_eq_some_iff] at hy
  obtain ⟨x', hx', rfl⟩ := hy
  rw [hiff x' (List.mem_of_getElem? hx')] at hcover'
  obtain ⟨hk, rfl⟩ := List.getElem?_eq_some_iff.1 hx
  obtain ⟨hk', rfl⟩ := List.getElem?_eq_some_iff.1 hx'
  have hpair := List.pairwise_iff_getElem.1 h.row.pairwise
  rcases Nat.lt_trichotomy k k' with hlt | heq | hlt
  · have := hpair k k' hk hk' hlt
    omega
  · exact heq.symm
  · have := hpair k' k hk' hk hlt
    omega

/-- The extents of a tree are a cover of the tokens without overlaps. Every node, member, case and
expression starts at the start of a token and ends at the end of one, is not empty, and has what it
holds inside it, one before the other. The items stand in source order, and each token that the
grammar sees belongs to exactly one of them. -/
theorem parse_extents (h : parse source o = .ok report) :
    (∀ n ∈ report.module.nodes, InPlace source n.family ∧
      (∀ l ∈ n.members, InPlace source l.family) ∧ ∀ c ∈ n.cases, InPlace source c.family) ∧
    (∀ e ∈ report.module.arena, InPlace source (Passage.family e)) ∧
    (report.module.items.map Node.extent).Pairwise Extent.Before ∧
    ∀ t ∈ Lexer.lex source false, t.isSeen = true →
      ∃! k : Nat, ∃ n : Declaration, report.module.items[k]? = some n ∧ n.extent.Covers t := by
  obtain ⟨ns, t, hmodule, hcontent⟩ := parseTokens_content h
  have hstop : t.passed = (Stream.ofSource source).symbols.length := by
    rw [hcontent.passed]
    exact Nat.zero_add _
  have hlaid := hcontent.laid
  have htiles := hcontent.tiles
  rw [hstop] at hlaid htiles
  -- Every node, member, case and expression is the head of a family, so one argument serves all.
  have hfamilies : ∀ f ∈ report.module.families, InPlace source f := by
    intro f hf
    rw [hmodule, Module.families_mapWith, Module.families, Module.passages_map_item] at hf
    obtain ⟨g, hg, rfl⟩ := List.mem_map.1 hf
    obtain ⟨-, hle, hlt⟩ := hlaid.bounds g hg
    exact inPlace_of_nests (hlaid.nested g hg) hle hlt
  have hitems : report.module.items.map Node.extent =
      (ns.map Node.extent).map (Extent.map (Stream.ofSource source).token) := by
    rw [hmodule, Module.items_mapWith, Module.items_map_item, List.map_map, List.map_map]
    exact List.map_congr_left fun n _ => Node.extent_map _ _ n
  refine ⟨fun n hn => ⟨?_, fun l hl => ?_, fun c hc => ?_⟩, fun e he => ?_, ?_, ?_⟩
  · exact hfamilies _ (Module.family_mem hn)
  · exact hfamilies _ (Module.member_family_mem hn hl)
  · exact hfamilies _ (Module.case_family_mem hn hc)
  · rw [hmodule, Module.mapWith_map_item, Module.arena_map_item] at he
    obtain ⟨n, hn, he⟩ := List.mem_flatMap.1 he
    have hitem : n ∈ report.module.items := by
      rw [hmodule, Module.mapWith_map_item, Module.items_map_item]
      exact hn
    exact hfamilies _ (Module.expr_family_mem hitem he)
  · rw [hitems, List.pairwise_map]
    refine htiles.row.pairwise.imp_of_mem fun {x y} hx hy hxy => ?_
    have hxb := htiles.row.bounds hx
    have hyb := htiles.row.bounds hy
    exact (Stream.stop_le_start_iff (by omega) (by omega)).2 hxy
  · intro t ht hseen
    have hunique := existsUnique_covers htiles ht hseen
    rw [← hitems] at hunique
    simpa only [List.getElem?_map, Option.map_eq_some_iff, exists_exists_and_eq_and] using hunique

/-- Parentheses widen an expression, also where the closing one is missing. -/
theorem parse_extents_widened :
    ∃ report, parse (Text.ascii "struct S \x7b int a[(2] \x7d\nswitch ((x) \x7b case 1 y \x7d")
        Options.all = .ok report ∧
      report.edits.length = 6 ∧
      ∀ e ∈ report.module.arena, InPlace
        (Text.ascii "struct S \x7b int a[(2] \x7d\nswitch ((x) \x7b case 1 y \x7d")
        (Passage.family e) := by
  have hedits : (parse
      (Text.ascii "struct S \x7b int a[(2] \x7d\nswitch ((x) \x7b case 1 y \x7d")
      Options.all).toOption.map (fun report => report.edits.length) = some 6 := by
    rw [parse, Lexer.lex_eq_scan]
    decide +kernel
  obtain ⟨report, hreport, hlen⟩ := exists_ok_of_map hedits
  exact ⟨report, hreport, hlen, (parse_extents hreport).2.1⟩

end Document

end ShaderRepair

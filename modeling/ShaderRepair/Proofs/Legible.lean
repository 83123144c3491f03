import ShaderRepair.Proofs.OperatorFamily
import ShaderRepair.Proofs.Reformat
import ShaderRepair.Proofs.Traversal
import ShaderRepair.Proofs.Verbatim

/-!
# Trees that say what they mean

The words in the tree of a source are tokens of the source, so each of them alone says what it is:
a name, a literal of some kind, or an operator of some family. This file contains:
- `Atom.symbol`, the symbol that is spelled as an atom, and `Stream.spelled_of_atom`, which says
  that the atoms of a source are spelled;
- `Expr.Legible`, an expression with such words only, and what it passes on to its operands;
- `Document.parse_legible`, for every expression of a parsed module.
-/

namespace ShaderRepair

open Grammar

/-! ## Words of a source -/

/-- The symbol of an identifier, a literal or an operator. -/
def Atom.symbol : Atom → Symbol
  | .identifier name => .name name
  | .literal kind text => .literal kind text
  | .operator op => .operator op

namespace Lexer

variable {a v : Text} {k : Kind} {tags : Tags}

/-- Literals carry nothing but the kind of literal. -/
theorem tags_of_literal {p : Pattern} (hp : p ∈ Pattern.list) (hkind : p.kind = .literal)
    (w : Text) : p.tags w = ⟨Roles.none, (p.tags w).literal, .none⟩ := by
  simp only [Pattern.list, Pattern.listWith, List.mem_append, List.mem_cons, List.not_mem_nil,
    or_false] at hp
  rcases hp with (((hp | hp) | rfl) | hp) | rfl
  · rcases hp with rfl | rfl | rfl | rfl | rfl | rfl | rfl | rfl | rfl | rfl | rfl
    iterate 4
      · cases hkind
    iterate 6
      · rfl
    · cases hkind
  · obtain ⟨⟨w, k⟩, -, rfl⟩ := List.mem_map.1 hp
    rfl
  · rfl
  · obtain ⟨k, -, rfl⟩ := List.mem_map.1 hp
    rfl
  · cases hkind

/-- What a word stands for decides its symbol. -/
theorem symbol_of_first (ha : a ≠ []) (h : first (a ++ v) = (k, a, tags)) {x : Atom}
    (hx : Atom.ofLexeme k a tags.literal = some x) : x.symbol = ⟨k, a, tags, false⟩ := by
  unfold Atom.ofLexeme at hx
  split at hx
  · cases hx
    obtain ⟨p, hp, -, hkind, rfl, -⟩ := exists_pattern ha h (by decide)
    obtain rfl := (pattern_of_kind hp).1 hkind
    rfl
  · cases hx
    obtain ⟨p, hp, -, hkind, rfl, -⟩ := exists_pattern ha h (by decide)
    rw [tags_of_literal hp hkind]
    rfl
  · cases hx
    obtain ⟨p, hp, -, hkind, rfl, -⟩ := exists_pattern ha h (by decide)
    obtain rfl := (pattern_of_kind hp).2 hkind
    rfl
  · cases hx

/-- A word that stands for something is spelled. -/
theorem spelled_of_first (ha : a ≠ []) (h : first (a ++ v) = (k, a, tags)) {x : Atom}
    (hx : Atom.ofLexeme k a tags.literal = some x) : x.symbol.Spelled := by
  have hkind : k.isSignificant = true ∧ k ≠ .error := by
    unfold Atom.ofLexeme at hx
    split at hx
    · exact ⟨rfl, by decide⟩
    · exact ⟨rfl, by decide⟩
    · exact ⟨rfl, by decide⟩
    · cases hx
  rw [symbol_of_first ha h hx]
  exact ⟨ha, first_alone ha h hkind.2 hkind.1, hkind.1, hkind.2, rfl⟩

end Lexer

namespace Stream

variable {source : Text} {x : Symbol}

/-- The atoms of a source are spelled. -/
theorem spelled_of_atom (hx : x ∈ (ofSource source).symbols) {a : Atom}
    (ha : x.atom? = some a) : a.symbol.Spelled := by
  obtain ⟨t, ht, broken, rfl⟩ := exists_token_of_mem hx
  have hend : t.kind ≠ .endOfInput := by
    intro hend
    have hatom : Atom.ofLexeme t.kind t.lexeme t.tags.literal = some a := ha
    rw [hend] at hatom
    cases hatom
  obtain ⟨v, hlexeme, hfirst⟩ := Lexer.exists_first_of_mem _ _ ht hend
  exact Lexer.spelled_of_first hlexeme hfirst ha

theorem tabled_of_mem (hx : x ∈ (ofSource source).symbols) : x.Tabled := by
  obtain ⟨t, ht, broken, rfl⟩ := exists_token_of_mem hx
  intro r hplays
  have hkind : t.kind = .operator := Symbol.kind_of_plays hplays
  obtain ⟨v, hlexeme, hfirst⟩ := Lexer.exists_first_of_mem _ _ ht (by rw [hkind]; decide)
  rw [Token.content, hkind] at hfirst
  have hroles := Lexer.roles_of_first hlexeme hfirst
  simpa [Symbol.plays, Symbol.ofToken, Symbol.operator, hkind, hroles] using hplays

end Stream

/-! ## Words of a tree -/

section Atoms

variable {μ α : Type}

mutual

/-- Reading meets the atoms of every expression that is met. -/
theorem Passage.atoms_subset_atoms {e : Expr α} (p : Passage μ (Expr α)) (he : e ∈ p.exprs) :
    e.atoms ⊆ p.atoms := by
  match p with
  | .atom a => exact nomatch he
  | .expr e' =>
    obtain rfl := List.mem_singleton.1 he
    exact List.Subset.refl _
  | .span x parts => exact Passage.atoms_subset_atomsAll parts he

theorem Passage.atoms_subset_atomsAll {e : Expr α} (ps : List (Passage μ (Expr α)))
    (he : e ∈ exprsAll ps) : e.atoms ⊆ atomsAll ps := by
  match ps with
  | [] => exact nomatch he
  | p :: more =>
    rw [exprsAll_cons, List.mem_append] at he
    rw [atomsAll_cons]
    rcases he with he | he
    · exact List.Subset.trans (Passage.atoms_subset_atoms p he) (List.subset_append_left _ _)
    · exact List.Subset.trans (Passage.atoms_subset_atomsAll more he)
        (List.subset_append_right _ _)

end

end Atoms

namespace Expr

variable {α β : Type} {e c : Expr α}

theorem atoms_subset_of_mem_children (h : c ∈ e.children) : c.atoms ⊆ e.atoms := by
  rw [← exprsAll_parts (μ := Unit)] at h
  rw [← atomsAll_parts (μ := Unit) e]
  exact Passage.atoms_subset_atomsAll _ h

/-- The words of the expression are spelled, and its operators are of their families. -/
structure Legible (e : Expr α) : Prop where
  words : ∀ a ∈ e.atoms, a.symbol.Spelled
  classed : ∀ a ∈ e.postorder, a.Classed

namespace Legible

theorem child (h : e.Legible) (hc : c ∈ e.children) : c.Legible :=
  ⟨fun a ha => h.words a (atoms_subset_of_mem_children hc ha),
    fun a ha => h.classed a ((postorder_sublist (mem_postorder_of_mem_children hc)).subset ha)⟩

/-- So are all expressions inside it. -/
theorem of_mem_postorder (h : e.Legible) (hc : c ∈ e.postorder) : c.Legible := by
  induction e using operandInduction with
  | step e ih =>
    rw [postorder_eq, List.mem_append, List.mem_flatMap, List.mem_singleton] at hc
    rcases hc with ⟨operand, hoperand, hc⟩ | rfl
    · exact ih operand hoperand (h.child hoperand) hc
    · exact h

theorem map (h : e.Legible) (f : α → β) : (e.map f).Legible := by
  refine ⟨by rw [atoms_map]; exact h.words, fun a ha => ?_⟩
  rw [postorder_map] at ha
  obtain ⟨g, hg, rfl⟩ := List.mem_map.1 ha
  have hclassed := h.classed g hg
  cases g with
  | binary X family op l r => exact hclassed
  | _ => trivial

end Legible

end Expr

/-! ## Parsed modules -/

namespace Document

variable {source : Text} {o : Options} {report : Report}

/-- The expressions of a parsed module are legible. -/
theorem parse_legible (h : parse source o = .ok report) :
    ∀ e ∈ report.module.arena, e.Legible := by
  obtain ⟨ns, t, hmodule, hcontent, hclassed⟩ := parseTokens_items
    (J := fun s => (∀ x ∈ s.rest, x.Tabled) ∧ s.pending = [])
    (P := fun n => ∀ e ∈ n.slots, ∀ a ∈ e.postorder, a.Classed)
    (fun hn hJ => ⟨(classed_of_item hn hJ.1 hJ.2).1, (classed_of_item hn hJ.1 hJ.2).2, rfl⟩)
    ⟨fun x hx => Stream.tabled_of_mem hx, rfl⟩ h
  -- Every word of an expression is one of the source.
  have hatoms : (Stream.ofSource source).symbols.filterMap Symbol.atom? =
      Passage.atomsAll (Node.passagesAll ns) := by
    refine hcontent.atoms fun x hx => ?_
    obtain ⟨y, hy, broken, rfl⟩ := Stream.exists_token_of_mem hx
    exact Token.ordinary_of_mem hy broken
  intro e he
  rw [hmodule, Module.arena_mapWith, Module.arena_map_item] at he
  obtain ⟨g, hg, rfl⟩ := List.mem_map.1 he
  obtain ⟨n, hn, hg⟩ := List.mem_flatMap.1 hg
  obtain ⟨root, hroot, hg⟩ := List.mem_flatMap.1 hg
  have hlegible : root.Legible := by
    refine ⟨fun a ha => ?_, hclassed n hn root hroot⟩
    have hmet : root ∈ Passage.exprsAll (Node.passagesAll ns) := by
      rw [Node.exprsAll_passagesAll, Node.slotsAll_eq]
      exact List.mem_flatMap.2 ⟨n, hn, hroot⟩
    have hmem := Passage.atoms_subset_atomsAll _ hmet ha
    rw [← hatoms] at hmem
    obtain ⟨x, hx, hatom⟩ := List.mem_filterMap.1 hmem
    exact Stream.spelled_of_atom hx hatom
  exact (hlegible.of_mem_postorder hg).map _

end Document

end ShaderRepair

import ShaderRepair.Proofs.CarrySession
import ShaderRepair.Proofs.Dispatch
import ShaderRepair.Proofs.Insertions
import ShaderRepair.Proofs.PassageMap
import ShaderRepair.Proofs.Resolution

/-!
# The forest of expressions

The expressions of a module stand in a row, by number, and form a forest. This file contains:
- `Module.IsForest`, with what walking over a forest and typing it meets;
- `Module.isForest_of_placed`: expressions that stand by number are a forest of finished items;
- `Document.parse_forest`: the module of a parse is a forest.
-/

namespace ShaderRepair

open Grammar

namespace Module

variable {μ α : Type}

/-- Every expression stands at the place of its number, its operands before it, and every number is
held once: by an expression that it is an operand of, or by a node that has it in a slot. -/
structure IsForest (m : Module μ (Expr (Nat × α))) : Prop where
  placed : m.arena.map Expr.handle = List.range m.arena.length
  operands : ∀ e ∈ m.arena, ∀ c ∈ e.children,
    c.handle < e.handle ∧ m.arena[c.handle]? = some c
  slots : ∀ n ∈ m.nodes, ∀ r ∈ n.roots, m.arena[r.handle]? = some r
  held : ((m.arena.flatMap Expr.children ++ m.nodes.flatMap Node.roots).map Expr.handle).Perm
    (List.range m.arena.length)

/-! ## Arenas -/

theorem arena_eq (m : Module μ (Expr α)) :
    m.arena = (m.flatMap Fragment.slots).flatMap Expr.postorder :=
  List.flatMap_assoc.symm

theorem nodes_roots_perm (m : Module μ (Expr α)) :
    (m.nodes.flatMap Node.roots).Perm (m.items.flatMap Node.slots) := by
  rw [nodes, List.flatMap_assoc]
  exact .flatMap_left _ fun n _ => n.within_roots_perm

section Numbered

variable {m : Module μ (Expr (Nat × α))}

/-- An expression is found by its number. -/
theorem getElem?_handle (h : m.arena.map Expr.handle = List.range m.arena.length)
    {e : Expr (Nat × α)} (he : e ∈ m.arena) : m.arena[e.handle]? = some e := by
  obtain ⟨i, hi, rfl⟩ := List.getElem_of_mem he
  have hnumber : (m.arena[i]).handle = i := by
    have hget : (m.arena.map Expr.handle)[i]? = (List.range m.arena.length)[i]? := by rw [h]
    simpa [hi] using hget
  rw [hnumber, List.getElem?_eq_getElem hi]

/-- What is in an expression of the arena is there as well, in the same order. -/
theorem postorder_sublist_arena {e : Expr (Nat × α)} (he : e ∈ m.arena) :
    e.postorder.Sublist m.arena := by
  rw [arena_eq] at he ⊢
  obtain ⟨r, hr, he⟩ := List.mem_flatMap.1 he
  rw [List.flatMap_def]
  exact (Expr.postorder_sublist he).trans
    (List.sublist_flatten_of_mem (List.mem_map_of_mem hr))

/-- Numbered expressions that are all in the slots of items form a forest. -/
theorem isForest_of_placed (h : m.arena.map Expr.handle = List.range m.arena.length)
    (hitems : m.flatMap Fragment.slots = m.items.flatMap Node.slots) : m.IsForest := by
  have hperm := nodes_roots_perm m
  rw [← hitems] at hperm
  refine ⟨h, fun e he c hc => ?_, fun n hn r hr => ?_, ?_⟩
  · have hsub := postorder_sublist_arena he
    refine ⟨?_, getElem?_handle h (hsub.subset (Expr.mem_postorder_of_mem_children hc))⟩
    have hchild : c ∈ e.children.flatMap Expr.postorder :=
      List.mem_flatMap.2 ⟨c, hc, c.mem_postorder_self⟩
    have hpair : (e.postorder.map Expr.handle).Pairwise (· < ·) :=
      (h ▸ List.pairwise_lt_range).sublist (hsub.map Expr.handle)
    rw [Expr.postorder_eq, List.map_append, List.pairwise_append] at hpair
    exact hpair.2.2 _ (List.mem_map_of_mem hchild) _ (by simp)
  · have hslot : r ∈ m.flatMap Fragment.slots :=
      hperm.subset (List.mem_flatMap.2 ⟨n, hn, hr⟩)
    refine getElem?_handle h ?_
    rw [arena_eq]
    exact List.mem_flatMap.2 ⟨r, hslot, r.mem_postorder_self⟩
  · have hforest := Expr.children_perm_all (m.flatMap Fragment.slots)
    rw [← arena_eq] at hforest
    rw [← h]
    exact ((hperm.append_left _).trans hforest).map Expr.handle

/-! ## Walking and typing -/

variable (hitems : m.flatMap Fragment.slots = m.items.flatMap Node.slots)
include hitems

theorem roots_perm_arena :
    ((m.nodes.flatMap Node.roots).flatMap Expr.postorder).Perm m.arena := by
  rw [arena_eq, hitems]
  exact (nodes_roots_perm m).flatMap_right _

/-- Walking over a module meets the whole arena. -/
theorem walk_perm_arena : (m.walk fun _ => true).Perm m.arena := by
  rw [walk, ← List.flatMap_assoc]
  exact (List.Perm.flatMap_left _ fun r _ => r.preorder_perm).trans (roots_perm_arena hitems)

variable (h : m.arena.map Expr.handle = List.range m.arena.length)
include h

theorem nodup_roots :
    (((m.nodes.flatMap Node.roots).flatMap Expr.postorder).map Expr.handle).Nodup := by
  refine ((roots_perm_arena hitems).map Expr.handle).symm.nodup ?_
  rw [h]
  exact List.nodup_range

/-- Typing a module makes an entry for each number. -/
theorem resolve_perm : (m.resolve.map Prod.fst).Perm (List.range m.arena.length) := by
  rw [resolve_eq (nodup_roots hitems h), TypeTable.map_fst_note, List.map_nil, List.append_nil, ← h]
  exact (List.reverse_perm _).trans ((roots_perm_arena hitems).map Expr.handle)

theorem resolve_lookup {e : Expr (Nat × α)} (he : e ∈ m.arena) :
    m.resolve.lookup e.handle = some e.type := by
  rw [resolve_eq (nodup_roots hitems h)]
  exact (TypeTable.Fresh.nil (nodup_roots hitems h)).lookup_note
    ((roots_perm_arena hitems).symm.subset he)

omit hitems in
/-- Typing one expression makes an entry for each number that the walk down from it meets. -/
theorem resolveTypes_perm {e : Expr (Nat × α)} (he : e ∈ m.arena) :
    (e.resolveTypes.map Prod.fst).Perm ((e.preorder fun _ => true).map Expr.handle) := by
  have hnodup : (e.postorder.map Expr.handle).Nodup :=
    (h ▸ List.nodup_range).sublist ((postorder_sublist_arena he).map Expr.handle)
  rw [Expr.resolveTypes_eq hnodup, TypeTable.map_fst_note, List.map_nil, List.append_nil]
  exact (List.reverse_perm _).trans (e.preorder_perm.symm.map Expr.handle)

end Numbered

/-! ## Numbering -/

section Numbering

variable {ε η : Type} (f : ε → StateM Nat η)

theorem mapM_slots_fragment (x : Fragment μ ε) :
    x.slots.mapM f = Fragment.slots <$> x.traverse f := by
  cases x <;> simp [Fragment.slots, Fragment.traverse, Node.mapM_slots]

theorem mapM_traverse_item (ns : List (Node μ ε)) :
    (ns.map Fragment.item).mapM (Fragment.traverse f) =
      List.map Fragment.item <$> ns.mapM (Node.traverse f) := by
  induction ns with
  | nil => simp
  | cons n ns ih => simp [Fragment.traverse, ih]

end Numbering

/-- Numbering numbers the slots one after the other. -/
theorem slots_numbered (m : Module μ (Expr α)) :
    (numbered m).flatMap Fragment.slots = Expr.numberAll 0 (m.flatMap Fragment.slots) := by
  have hslots := mapM_flatMap Expr.numberNext (mapM_slots_fragment (μ := μ) Expr.numberNext) m
  have hrun := congrArg (fun c => (StateT.run c 0).1) hslots
  exact hrun.symm.trans (congrArg Prod.fst (Expr.mapM_numberNext 0 _))

/-- Also where loose expressions are left, each expression gets the number of its place. -/
theorem handles_numbered (m : Module μ (Expr α)) :
    (numbered m).arena.map Expr.handle = List.range (numbered m).arena.length := by
  have hhandles : (numbered m).arena.map Expr.handle =
      List.range' 0 (Expr.sizeAll (m.flatMap Fragment.slots)) := by
    rw [arena_eq, slots_numbered, Expr.handles_numberAll]
  have hlength := congrArg List.length hhandles
  rw [List.length_map, List.length_range'] at hlength
  rw [hhandles, hlength, List.range_eq_range']

theorem numbered_map_item (ns : List (Node μ (Expr α))) :
    ∃ ns' : List (Node μ (Expr (Nat × α))),
      numbered (ns.map Fragment.item) = ns'.map Fragment.item := by
  refine ⟨((ns.mapM (Node.traverse Expr.numberNext)).run 0).1, ?_⟩
  exact congrArg (fun c => (StateT.run c 0).1) (mapM_traverse_item Expr.numberNext ns)

theorem slots_map_item (ns : List (Node μ (Expr α))) :
    (ns.map Fragment.item).flatMap Fragment.slots =
      (items (ns.map Fragment.item)).flatMap Node.slots := by
  rw [items_map_item, List.flatMap_map]
  rfl

end Module

namespace Document

variable {tokens : List Token} {source : Text} {o : Options} {report : Report}

/-- A parse that succeeds leaves no expression outside of finished items. -/
theorem slots_of_parse (h : parseTokens tokens source o = .ok report) :
    (Module.numbered report.module).flatMap Fragment.slots =
      (Module.numbered report.module).items.flatMap Node.slots := by
  obtain ⟨ns, t, hmodule, -⟩ := parseTokens_content h
  obtain ⟨ns', hns'⟩ := Module.numbered_map_item (ns.map (Node.map
    (Stream.ofTokens tokens).token (Expr.map (Extent.map (Stream.ofTokens tokens).token))))
  have hm : Module.numbered report.module = ns'.map Fragment.item := by
    rw [← hns', ← Module.mapWith_map_item, ← hmodule]
  rw [hm]
  exact Module.slots_map_item ns'

/-- The expressions of a parsed module form a forest, whose trees are what the nodes hold in their
slots. Walking over the module meets every number once. Typing the module makes one entry for every
number, with the type of the expression; typing a single expression makes one for every number that
the walk down from it meets. No expression that was built for an item is left out of its slots. -/
theorem parse_forest (h : parseTokens tokens source o = .ok report) :
    let m := Module.numbered report.module
    m.IsForest ∧
    ((m.walk fun _ => true).map Expr.handle).Perm (List.range m.arena.length) ∧
    (m.resolve.map Prod.fst).Perm (List.range m.arena.length) ∧
    (∀ e ∈ m.arena, m.resolve.lookup e.handle = some e.type) ∧
    (∀ e ∈ m.arena,
      (e.resolveTypes.map Prod.fst).Perm ((e.preorder fun _ => true).map Expr.handle)) ∧
    ∀ s n t, s.pending = [] → item? s = .accepted n t → t.pending.reverse = n.slots := by
  intro m
  have hplaced : m.arena.map Expr.handle = List.range m.arena.length :=
    Module.handles_numbered report.module
  have hitems : m.flatMap Fragment.slots = m.items.flatMap Node.slots := slots_of_parse h
  refine ⟨Module.isForest_of_placed hplaced hitems, ?_, Module.resolve_perm hitems hplaced,
    fun e he => Module.resolve_lookup hitems hplaced he,
    fun e he => Module.resolveTypes_perm hplaced he,
    fun s n t hs hn => item?_pending hn hs⟩
  rw [← hplaced]
  exact (Module.walk_perm_arena hitems).map Expr.handle

/-- A loop, an array and a conditional, with a semicolon missing. -/
theorem parse_forest_loop :
    ∃ report, parse (Text.ascii "void f() \x7b for (int i = 0; i < n; ++i) a[i] = b ? c : 2 \x7d")
        Options.all = .ok report ∧
      (Module.numbered report.module).arena.length = 14 ∧
      (Module.numbered report.module).IsForest := by
  have hcount : (parse
      (Text.ascii "void f() \x7b for (int i = 0; i < n; ++i) a[i] = b ? c : 2 \x7d")
      Options.all).toOption.map (fun report => (Module.numbered report.module).arena.length) =
        some 14 := by
    rw [parse, Lexer.lex_eq_scan]
    decide +kernel
  obtain ⟨report, hreport, hlen⟩ := exists_ok_of_map hcount
  exact ⟨report, hreport, hlen, (parse_forest hreport).1⟩

end Document

end ShaderRepair

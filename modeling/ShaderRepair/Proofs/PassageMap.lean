import ShaderRepair.Proofs.Passage
import ShaderRepair.Proofs.Shape

/-!
# Passages at other marks

Marks and annotations may be changed before or after a tree is read. This file contains:
- `Expr.atoms_map` and `Expr.postorder_map`, for expressions;
- `Passage.atomsAll_map`, `Passage.familiesAll_map` and `Passage.exprsAll_map`, for what is read off
  passages;
- `Node.passage_map`, for reading a node, and `Node.slots_map`;
- `Module.atoms_mapWith`, `Module.families_mapWith` and `Module.arena_mapWith`, for a whole module.
-/

namespace ShaderRepair

/-! ## Expressions -/

namespace Expr

variable {α β : Type}

mutual

/-- Annotations are not read. -/
theorem atoms_map (f : α → β) (e : Expr α) : (e.map f).atoms = e.atoms := by
  match e with
  | .sequence a items => exact atomsAll_map f items
  | .initializers a items => exact atomsAll_map f items
  | .conditional a c y n => simp only [map, atoms, atoms_map f c, atoms_map f y, atoms_map f n]
  | .binary a family op l r => simp only [map, atoms, atoms_map f l, atoms_map f r]
  | .unary a op .before e => simp only [map, atoms, atoms_map f e]
  | .unary a op .after e => simp only [map, atoms, atoms_map f e]
  | .call a callee args => simp only [map, atoms, atoms_map f callee, atomsAll_map f args]
  | .member a e name => simp only [map, atoms, atoms_map f e]
  | .index a e i => simp only [map, atoms, atoms_map f e, atoms_map f i]
  | .unsized a e => exact atoms_map f e
  | .identifier a name => rfl
  | .literal a kind text => rfl

theorem atomsAll_map (f : α → β) (es : List (Expr α)) : atomsAll (mapAll f es) = atomsAll es := by
  match es with
  | [] => rfl
  | e :: more => simp only [mapAll, atomsAll, atoms_map f e, atomsAll_map f more]

end

theorem children_map (f : α → β) (e : Expr α) : (e.map f).children = e.children.map (map f) := by
  cases e <;> simp [map, children, mapAll_eq_map]

theorem note_map (f : α → β) (e : Expr α) : (e.map f).note = f e.note := by
  cases e <;> rfl

mutual

theorem postorder_map (f : α → β) (e : Expr α) :
    (e.map f).postorder = e.postorder.map (map f) := by
  match e with
  | .sequence a items => simp [map, postorder, postorderAll_map f items]
  | .initializers a items => simp [map, postorder, postorderAll_map f items]
  | .conditional a c y n =>
    simp [map, postorder, postorder_map f c, postorder_map f y, postorder_map f n]
  | .binary a family op l r => simp [map, postorder, postorder_map f l, postorder_map f r]
  | .unary a op side e => simp [map, postorder, postorder_map f e]
  | .call a callee args => simp [map, postorder, postorder_map f callee, postorderAll_map f args]
  | .member a e name => simp [map, postorder, postorder_map f e]
  | .index a e i => simp [map, postorder, postorder_map f e, postorder_map f i]
  | .unsized a e => simp [map, postorder, postorder_map f e]
  | .identifier a name => rfl
  | .literal a kind text => rfl

theorem postorderAll_map (f : α → β) (es : List (Expr α)) :
    postorderAll (mapAll f es) = (postorderAll es).map (map f) := by
  match es with
  | [] => rfl
  | e :: more => simp [mapAll, postorderAll, postorder_map f e, postorderAll_map f more]

end

end Expr

/-! ## Passages -/

namespace Passage

variable {μ ν ε η α β : Type}

section Map

variable (f : μ → ν) (g : Expr α → Expr β)

mutual

theorem atoms_map (h : ∀ e, (g e).atoms = e.atoms) (p : Passage μ (Expr α)) :
    (p.map f g).atoms = p.atoms := by
  match p with
  | .atom a => rfl
  | .expr e => exact h e
  | .span x parts => exact atomsAll_map h parts

theorem atomsAll_map (h : ∀ e, (g e).atoms = e.atoms) (ps : List (Passage μ (Expr α))) :
    atomsAll (mapAll f g ps) = atomsAll ps := by
  match ps with
  | [] => rfl
  | p :: more => simp only [mapAll, atomsAll, atoms_map h p, atomsAll_map h more]

end

/-- An extent with those inside it, at other marks. -/
def mapFamily (x : Extent μ × List (Extent μ)) : Extent ν × List (Extent ν) :=
  (x.1.map f, x.2.map (Extent.map f))

theorem family_map (e : Expr (Extent μ)) :
    family (e.map (Extent.map f)) = mapFamily f (family e) := by
  simp [family, mapFamily, Expr.note_map, Expr.children_map, Function.comp_def]

theorem extents_map (ps : List (Passage μ (Expr (Extent μ)))) :
    extents (ps.map (map f (Expr.map (Extent.map f)))) = (extents ps).map (Extent.map f) := by
  induction ps with
  | nil => rfl
  | cons p ps ih =>
    cases p <;> simp [map, ih, Expr.note_map]

mutual

theorem families_map (p : Passage μ (Expr (Extent μ))) :
    (p.map f (Expr.map (Extent.map f))).families = p.families.map (mapFamily f) := by
  match p with
  | .atom a => rfl
  | .expr e => simp [map, Expr.postorder_map, family_map, Function.comp_def]
  | .span x parts =>
    rw [map, families_span, familiesAll_map parts, mapAll_eq_map, extents_map]
    rfl

theorem familiesAll_map (ps : List (Passage μ (Expr (Extent μ)))) :
    familiesAll (mapAll f (Expr.map (Extent.map f)) ps) = (familiesAll ps).map (mapFamily f) := by
  match ps with
  | [] => rfl
  | p :: more =>
    rw [mapAll, familiesAll_cons, families_map p, familiesAll_map more, familiesAll_cons,
      List.map_append]

end

end Map

mutual

theorem exprs_map (f : μ → ν) (g : ε → η) (p : Passage μ ε) :
    (p.map f g).exprs = p.exprs.map g := by
  match p with
  | .atom a => rfl
  | .expr e => rfl
  | .span x parts => exact exprsAll_map f g parts

theorem exprsAll_map (f : μ → ν) (g : ε → η) (ps : List (Passage μ ε)) :
    exprsAll (mapAll f g ps) = (exprsAll ps).map g := by
  match ps with
  | [] => rfl
  | p :: more =>
    simp only [mapAll, exprsAll, exprs_map f g p, exprsAll_map f g more, List.map_append]

end

end Passage

/-! ## Nodes at other marks -/

section MapParts

open Passage

variable {μ ν ε η : Type} (f : μ → ν) (g : ε → η)

theorem Name.passage_map (n : Name μ) :
    ((n.map f).passage : Passage ν η) = (n.passage : Passage μ ε).map f g := rfl

theorem map_sizes (dims : List (Option ε)) :
    (sizes dims).map (Passage.map f g) =
      (sizes (dims.map (Option.map g)) : List (Passage ν η)) := by
  induction dims with
  | nil => rfl
  | cons d dims ih =>
    cases d with
    | none => exact ih
    | some e => exact congrArg (expr (g e) :: ·) ih

theorem map_assigned (e : Option ε) :
    (assigned e).map (Passage.map f g) = (assigned (e.map g) : List (Passage ν η)) := by
  cases e <;> rfl

theorem map_optional (e : Option ε) :
    (optional e).map (Passage.map f g) = (optional (e.map g) : List (Passage ν η)) := by
  cases e <;> rfl

theorem map_flatMap_passages {γ δ : Type} {h : γ → δ} {P : γ → List (Passage μ ε)}
    {Q : δ → List (Passage ν η)} (hPQ : ∀ x, (P x).map (Passage.map f g) = Q (h x))
    (xs : List γ) : (xs.flatMap P).map (Passage.map f g) = (xs.map h).flatMap Q := by
  induction xs with
  | nil => rfl
  | cons x xs ih => simp [hPQ, ih]

theorem LayoutParam.passages_map (p : LayoutParam μ ε) :
    p.passages.map (Passage.map f g) = (p.map f g).passages := by
  unfold passages
  rw [show (p.map f g).name.text = p.name.text from rfl]
  split
  · exact map_assigned f g p.value
  · exact congrArg (_ :: ·) (map_assigned f g p.value)

theorem Qualifiers.passages_map (q : Qualifiers μ ε) :
    q.passages.map (Passage.map f g) = (q.map f g).passages :=
  map_flatMap_passages f g (LayoutParam.passages_map f g) q.layout

theorem TypeSpec.passages_map (t : TypeSpec μ ε) :
    t.passages.map (Passage.map f g) = (t.map f g).passages :=
  congrArg (_ :: ·) (map_sizes f g t.dims)

theorem Declarator.passages_map (d : Declarator μ ε) :
    d.passages.map (Passage.map f g) = (d.map f g).passages := by
  rw [passages, List.map_cons, List.map_append, map_sizes, map_assigned]
  rfl

theorem Declarator.flatMap_passages_map (ds : List (Declarator μ ε)) :
    (ds.flatMap passages).map (Passage.map f g) =
      (ds.map (Declarator.map f g)).flatMap passages :=
  map_flatMap_passages f g (passages_map f g) ds

theorem Member.passage_map (m : Member μ ε) : m.passage.map f g = (m.map f g).passage := by
  rw [passage, Passage.map, mapAll_eq_map, List.map_append, List.map_append,
    Qualifiers.passages_map, TypeSpec.passages_map, Declarator.flatMap_passages_map]
  rfl

theorem Param.passages_map (p : Param μ ε) :
    p.passages.map (Passage.map f g) = (p.map f g).passages := by
  rw [passages, List.map_append, List.map_append, List.map_append, Qualifiers.passages_map,
    TypeSpec.passages_map, map_sizes]
  obtain ⟨q, t, name, dims⟩ := p
  cases name <;> rfl

theorem Variables.passages_map (v : Variables μ ε) :
    v.passages.map (Passage.map f g) = (v.map f g).passages := by
  rw [passages, List.map_append, List.map_append, Qualifiers.passages_map, TypeSpec.passages_map,
    Declarator.flatMap_passages_map]
  rfl

theorem Signature.passages_map (s : Signature μ ε) :
    s.passages.map (Passage.map f g) = (s.map f g).passages := by
  rw [passages, List.map_append, List.map_append, List.map_cons, Qualifiers.passages_map,
    TypeSpec.passages_map, map_flatMap_passages f g (Param.passages_map f g)]
  rfl

theorem ForInit.passages_map (i : ForInit μ ε) :
    i.passages.map (Passage.map f g) = (i.map f g).passages := by
  cases i with
  | none => rfl
  | vars x v => simp [passages, ForInit.map, Passage.map, mapAll_eq_map, Variables.passages_map]
  | expression x e => rfl

theorem Node.extent_map (n : Node μ ε) : (n.map f g).extent = n.extent.map f := by
  cases n <;> rfl

mutual

theorem Node.parts_map (n : Node μ ε) : n.parts.map (Passage.map f g) = (n.map f g).parts := by
  match n with
  | .struct x q name ms ds =>
    cases name <;>
      simp [Node.parts, Node.map, Qualifiers.passages_map, Member.passage_map,
        Declarator.flatMap_passages_map, Function.comp_def, Name.passage_map f g]
  | .interface x q name ms ds =>
    simp [Node.parts, Node.map, Qualifiers.passages_map, Member.passage_map,
      Declarator.flatMap_passages_map, Function.comp_def, Name.passage_map f g]
  | .vars x v => exact Variables.passages_map f g v
  | .prototype x s => exact Signature.passages_map f g s
  | .function x s y body =>
    simp [Node.parts, Node.map, Signature.passages_map, Passage.map, mapAll_eq_map,
      Node.passagesAll_map body]
  | .precision x word t => exact TypeSpec.passages_map f g t
  | .qualifiers x q names =>
    simp [Node.parts, Node.map, Qualifiers.passages_map, Function.comp_def, Name.passage_map f g]
  | .expression x e => rfl
  | .empty x => rfl
  | .block x body => exact Node.passagesAll_map body
  | .ifThen x c yes =>
    simp [Node.parts, Node.map, Passage.map, mapAll_eq_map, Node.extent_map, Node.parts_map yes]
  | .ifElse x c yes no =>
    simp [Node.parts, Node.map, Passage.map, mapAll_eq_map, Node.extent_map, Node.parts_map yes,
      Node.parts_map no]
  | .switch x e cases => simp [Node.parts, Node.map, Passage.map, Case.passagesAll_map cases]
  | .forLoop x init c u body =>
    simp [Node.parts, Node.map, Passage.map, mapAll_eq_map, ForInit.passages_map, map_optional,
      Node.extent_map, Node.parts_map body]
  | .whileLoop x c body =>
    simp [Node.parts, Node.map, Passage.map, mapAll_eq_map, Node.extent_map, Node.parts_map body]
  | .doWhile x body c =>
    simp [Node.parts, Node.map, Passage.map, mapAll_eq_map, Node.extent_map, Node.parts_map body]
  | .break x => rfl
  | .continue x => rfl
  | .return x value => exact map_optional f g value
  | .discard x => rfl

theorem Node.passagesAll_map (ns : List (Node μ ε)) :
    (Node.passagesAll ns).map (Passage.map f g) = Node.passagesAll (Node.mapAll f g ns) := by
  match ns with
  | [] => rfl
  | n :: more =>
    simp [Node.passagesAll, Node.mapAll, Passage.map, mapAll_eq_map, Node.extent_map,
      Node.parts_map n, Node.passagesAll_map more]

theorem Case.parts_map (c : Case μ ε) : c.parts.map (Passage.map f g) = (c.map f g).parts := by
  match c with
  | .mk x label body => simp [Case.parts, Case.map, map_optional, Node.passagesAll_map body]

theorem Case.passagesAll_map (cs : List (Case μ ε)) :
    (Case.passagesAll cs).map (Passage.map f g) = Case.passagesAll (Case.mapAll f g cs) := by
  match cs with
  | [] => rfl
  | .mk x label body :: more =>
    rw [Case.passagesAll, Case.mapAll, Case.passagesAll, List.map_cons,
      Case.passagesAll_map more, Passage.map, mapAll_eq_map, Case.parts_map (.mk x label body)]
    rfl

end

theorem Node.passage_map (n : Node μ ε) : n.passage.map f g = (n.map f g).passage := by
  rw [passage, Passage.map, mapAll_eq_map, parts_map, passage, extent_map]

/-- The slots of a node are met when it is read. -/
theorem Node.slots_map (n : Node μ ε) : (n.map f g).slots = n.slots.map g := by
  rw [← exprsAll_parts, ← parts_map, ← mapAll_eq_map, exprsAll_map, exprsAll_parts]

end MapParts

theorem Node.mapAll_eq_map {μ ν ε η : Type} (f : μ → ν) (g : ε → η) (ns : List (Node μ ε)) :
    Node.mapAll f g ns = ns.map (Node.map f g) := by
  induction ns with
  | nil => rfl
  | cons n ns ih => exact congrArg (n.map f g :: ·) ih

/-! ## Modules at other marks -/

namespace Module

variable {μ ν ε η α : Type} (f : μ → ν)

theorem items_mapWith (g : ε → η) (m : Module μ ε) :
    (m.mapWith f g).items = m.items.map (Node.map f g) := by
  induction m with
  | nil => rfl
  | cons x m ih =>
    cases x with
    | item n => exact congrArg (n.map f g :: ·) ih
    | loose es => exact ih

theorem passages_mapWith (g : ε → η) (m : Module μ ε) :
    (m.mapWith f g).passages = Passage.mapAll f g m.passages := by
  rw [passages, items_mapWith, passages, Passage.mapAll_eq_map, List.map_map, List.map_map]
  exact List.map_congr_left fun n _ => (Node.passage_map f g n).symm

/-- Changing marks does not change what is read. -/
theorem atoms_mapWith {β : Type} (h : α → β) (m : Module μ (Expr α)) :
    (m.mapWith f (Expr.map h)).atoms = m.atoms := by
  rw [atoms, passages_mapWith, Passage.atomsAll_map f _ (Expr.atoms_map h)]
  rfl

theorem families_mapWith (m : Module μ (Expr (Extent μ))) :
    (m.mapWith f (Expr.map (Extent.map f))).families = m.families.map (Passage.mapFamily f) := by
  rw [families, passages_mapWith, Passage.familiesAll_map]
  rfl

theorem arena_mapWith {β : Type} (h : α → β) (m : Module μ (Expr α)) :
    (m.mapWith f (Expr.map h)).arena = m.arena.map (Expr.map h) := by
  rw [arena, mapWith, List.flatMap_map, arena, List.map_flatMap]
  refine List.flatMap_congr fun x _ => ?_
  cases x with
  | item n =>
    simp [Fragment.map, Fragment.slots, Node.slots_map, Expr.postorder_map, List.flatMap_map,
      List.map_flatMap]
  | loose es =>
    simp [Fragment.map, Fragment.slots, Expr.postorder_map, List.flatMap_map, List.map_flatMap]

theorem items_map_item (ns : List (Node μ ε)) :
    Module.items (ns.map Fragment.item) = ns := by
  induction ns with
  | nil => rfl
  | cons n ns ih => exact congrArg (n :: ·) ih

theorem mapWith_map_item (g : ε → η) (ns : List (Node μ ε)) :
    Module.mapWith f g (ns.map Fragment.item) = (ns.map (Node.map f g)).map Fragment.item := by
  rw [mapWith, List.map_map, List.map_map]
  rfl

/-- The arena of finished items. -/
theorem arena_map_item (ns : List (Node μ (Expr α))) :
    Module.arena (ns.map Fragment.item) = ns.flatMap fun n => n.slots.flatMap Expr.postorder := by
  rw [arena, List.flatMap_map]
  rfl

theorem passages_map_item (ns : List (Node μ ε)) :
    Module.passages (ns.map Fragment.item) = Node.passagesAll ns := by
  rw [passages, items_map_item, Node.passagesAll_eq]

end Module

end ShaderRepair

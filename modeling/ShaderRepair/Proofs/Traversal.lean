import Mathlib.Data.List.Perm.Basic
import ShaderRepair.Proofs.Passage

/-!
# Walks over trees

There are several ways to go over the expressions of a tree: parents first, operands first, as
operands of one another, or slot by slot. They all meet the same expressions. This file contains:
- `Expr.operandInduction`, induction from the operands of an expression;
- `Expr.preorder_perm` and `Expr.children_perm`: the walk down meets each expression once, and each
  one but the top is the operand of one other;
- `Node.within_roots_perm`: the slots of a node are those of the nodes on the way down;
- `Node.mapM_slots` and its companions: going over a node changes its slots one after the other;
- `Expr.handles_numberAll`: numbering gives the numbers in a row, operands first.
-/

namespace ShaderRepair

/-! ## Expressions -/

namespace Expr

variable {α : Type} {e g c : Expr α}

theorem size_le_sizeAll {es : List (Expr α)} (h : e ∈ es) : e.size ≤ sizeAll es := by
  induction es with
  | nil => cases h
  | cons d es ih =>
    rw [sizeAll]
    obtain rfl | h := List.mem_cons.1 h
    · exact Nat.le_add_right _ _
    · exact Nat.le_trans (ih h) (Nat.le_add_left _ _)

theorem size_lt_of_mem_children (h : c ∈ e.children) : c.size < e.size := by
  cases e with
  | sequence a items => exact Nat.lt_succ_of_le (size_le_sizeAll h)
  | initializers a items => exact Nat.lt_succ_of_le (size_le_sizeAll h)
  | call a callee args =>
    rw [size]
    obtain rfl | h := List.mem_cons.1 h
    · omega
    · have := size_le_sizeAll h
      omega
  | identifier a name => cases h
  | literal a kind text => cases h
  | _ =>
    simp only [children, List.mem_cons, List.not_mem_nil, or_false] at h
    rw [size]
    grind

/-- What holds of an expression if it holds of its operands holds of every expression. -/
theorem operandInduction {P : Expr α → Prop} (step : ∀ e, (∀ c ∈ e.children, P c) → P e)
    (e : Expr α) : P e := by
  induction h : e.size using Nat.strongRecOn generalizing e with
  | ind n ih =>
    subst h
    exact step e fun c hc => ih c.size (size_lt_of_mem_children hc) c rfl

theorem mem_postorder_of_mem_children (h : c ∈ e.children) : c ∈ e.postorder := by
  rw [postorder_eq]
  exact List.mem_append_left _ (List.mem_flatMap.2 ⟨c, h, c.mem_postorder_self⟩)

/-- The part of an expression comes as a whole in the order of all. -/
theorem postorder_sublist (h : g ∈ e.postorder) : g.postorder.Sublist e.postorder := by
  induction e using operandInduction with
  | step e ih =>
    rw [postorder_eq, List.mem_append, List.mem_flatMap, List.mem_singleton] at h
    obtain ⟨c, hc, hg⟩ | rfl := h
    · rw [postorder_eq e, List.flatMap_def]
      exact ((ih c hc hg).trans (List.sublist_flatten_of_mem (List.mem_map_of_mem hc))).trans
        (List.sublist_append_left _ _)
    · exact List.Sublist.refl _

theorem preorderAll_eq (enter : Expr α → Bool) (es : List (Expr α)) :
    preorderAll enter es = es.flatMap (preorder enter) := by
  induction es with
  | nil => rfl
  | cons e es ih => simp [preorderAll, ih]

theorem preorder_eq (enter : Expr α → Bool) (e : Expr α) :
    e.preorder enter = e :: if enter e then e.children.flatMap (preorder enter) else [] := by
  cases e <;> simp [preorder, children, preorderAll_eq]

/-- The walk down meets every expression once. -/
theorem preorder_perm (e : Expr α) : (e.preorder fun _ => true).Perm e.postorder := by
  induction e using operandInduction with
  | step e ih =>
    rw [preorder_eq, postorder_eq, if_pos rfl]
    exact (List.Perm.cons e (.flatMap_left _ ih)).trans (List.perm_append_singleton e _).symm

/-- Every expression but the top is an operand of one other. -/
theorem children_perm (e : Expr α) :
    (e.postorder.flatMap children ++ [e]).Perm e.postorder := by
  induction e using operandInduction with
  | step e ih =>
    have hoperands : (e.children.flatMap fun c => c.postorder.flatMap children ++ [c]).Perm
        (e.children.flatMap postorder) := .flatMap_left _ ih
    have hsplit := List.flatMap_append_perm e.children (fun c => c.postorder.flatMap children)
      fun c => [c]
    rw [← List.map_eq_flatMap, List.map_id'] at hsplit
    rw [postorder_eq, List.flatMap_append, List.flatMap_assoc, List.flatMap_singleton]
    exact (hsplit.trans hoperands).append_right [e]

/-- The operands in a forest together with its roots are all its expressions. -/
theorem children_perm_all (es : List (Expr α)) :
    ((es.flatMap postorder).flatMap children ++ es).Perm (es.flatMap postorder) := by
  have hsplit := List.flatMap_append_perm es (fun e => e.postorder.flatMap children) fun e => [e]
  rw [← List.map_eq_flatMap, List.map_id', ← List.flatMap_assoc] at hsplit
  exact hsplit.trans (.flatMap_left _ fun e _ => children_perm e)

end Expr

/-! ## Nodes -/

section Within

variable {μ ε : Type}

theorem Node.slotsAll_eq (ns : List (Node μ ε)) : slotsAll ns = ns.flatMap slots := by
  induction ns with
  | nil => rfl
  | cons n ns ih => rw [slotsAll, ih, List.flatMap_cons]

mutual

/-- The slots of a node are those of all the nodes on the way down. -/
theorem Node.within_roots_perm (n : Node μ ε) : (n.within.flatMap Node.roots).Perm n.slots := by
  match n with
  | .function x s y body => exact (Node.within_roots_perm_all body).append_left s.roots
  | .block x body => exact Node.within_roots_perm_all body
  | .ifThen x c yes => exact (Node.within_roots_perm yes).cons c
  | .ifElse x c yes no =>
    simp only [Node.within, Node.inspect, if_true, List.flatMap_cons, List.flatMap_append]
    exact ((Node.within_roots_perm yes).append (Node.within_roots_perm no)).cons c
  | .switch x e cases => exact (Case.within_roots_perm_all cases).cons e
  | .forLoop x init c u body =>
    have hinit : init.node?.toList.flatMap Node.roots = init.slots := by
      cases init <;> simp [ForInit.node?, ForInit.slots, Node.roots]
    simp only [Node.within, Node.inspect, if_true, List.flatMap_cons, List.flatMap_append, hinit]
    rw [← List.append_assoc, Node.slots, List.append_assoc init.slots]
    exact List.perm_append_comm.append (Node.within_roots_perm body)
  | .whileLoop x c body => exact (Node.within_roots_perm body).cons c
  | .doWhile x body c =>
    exact ((Node.within_roots_perm body).cons c).trans (List.perm_append_singleton c _).symm
  | .struct x q name ms ds => exact .of_eq (List.append_nil _)
  | .interface x q name ms ds => exact .of_eq (List.append_nil _)
  | .vars x v => exact .of_eq (List.append_nil _)
  | .prototype x s => exact .of_eq (List.append_nil _)
  | .precision x word t => exact .of_eq (List.append_nil _)
  | .qualifiers x q names => exact .of_eq (List.append_nil _)
  | .expression x e => exact .of_eq (List.append_nil _)
  | .empty x => exact .of_eq (List.append_nil _)
  | .break x => exact .of_eq (List.append_nil _)
  | .continue x => exact .of_eq (List.append_nil _)
  | .return x value => exact .of_eq (List.append_nil _)
  | .discard x => exact .of_eq (List.append_nil _)

theorem Node.within_roots_perm_all (ns : List (Node μ ε)) :
    ((Node.inspectAll (fun _ => true) ns).flatMap Node.roots).Perm (Node.slotsAll ns) := by
  match ns with
  | [] => exact .refl _
  | n :: more =>
    rw [Node.inspectAll, List.flatMap_append]
    exact (Node.within_roots_perm n).append (Node.within_roots_perm_all more)

/-- A switch holds the labels of its cases itself. -/
theorem Case.within_roots_perm_all (cs : List (Case μ ε)) :
    (cs.filterMap Case.label ++ (Node.inspectCases (fun _ => true) cs).flatMap Node.roots).Perm
      (Case.slotsAll cs) := by
  match cs with
  | [] => exact .refl _
  | .mk x label body :: more =>
    have hlabels : (Case.mk x label body :: more).filterMap Case.label =
        label.toList ++ more.filterMap Case.label := by
      cases label <;> rfl
    rw [hlabels, Node.inspectCases, Node.inspectCase, List.flatMap_append, List.append_assoc,
      Case.slotsAll, Case.slots, List.append_assoc]
    refine .append_left _ ?_
    exact (List.perm_append_comm_assoc _ _ _).trans
      ((Node.within_roots_perm_all body).append (Case.within_roots_perm_all more))

end

end Within

/-! ## Going over slots -/

section Traverse

variable {μ ε η : Type} (f : ε → StateM Nat η)

theorem mapM_toList (x : Option ε) :
    x.toList.mapM f = Option.toList <$> traverseOption f x := by
  cases x <;> simp [traverseOption]

/-- Going over parts one after the other goes over what is in them. -/
theorem mapM_flatMap {α β : Type} {t : α → StateM Nat β} {r : α → List ε} {r' : β → List η}
    (h : ∀ x, (r x).mapM f = r' <$> t x) (xs : List α) :
    (xs.flatMap r).mapM f = List.flatMap r' <$> xs.mapM t := by
  induction xs with
  | nil => simp
  | cons x xs ih => simp [h, ih]

theorem mapM_sizes (xs : List (Option ε)) :
    (xs.filterMap id).mapM f = List.filterMap id <$> xs.mapM (traverseOption f) := by
  have hsizes : List.filterMap id = List.flatMap (fun x : Option η => x.toList) :=
    funext fun ys => List.filterMap_eq_flatMap_toList id ys
  rw [hsizes, ← mapM_flatMap f (mapM_toList f)]
  exact congrArg (List.mapM f) (List.filterMap_eq_flatMap_toList id xs)

theorem LayoutParam.mapM_roots (p : LayoutParam μ ε) :
    p.roots.mapM f = LayoutParam.roots <$> p.traverse f := by
  simp [roots, traverse, mapM_toList]

theorem Qualifiers.mapM_roots (q : Qualifiers μ ε) :
    q.roots.mapM f = Qualifiers.roots <$> q.traverse f := by
  simp [roots, traverse, mapM_flatMap f (LayoutParam.mapM_roots f)]

theorem TypeSpec.mapM_roots (t : TypeSpec μ ε) :
    t.roots.mapM f = TypeSpec.roots <$> t.traverse f := by
  simp [roots, traverse, mapM_sizes, -id_eq]

theorem Declarator.mapM_roots (d : Declarator μ ε) :
    d.roots.mapM f = Declarator.roots <$> d.traverse f := by
  simp [roots, traverse, mapM_sizes, mapM_toList, -id_eq]

theorem Member.mapM_roots (m : Member μ ε) :
    m.roots.mapM f = Member.roots <$> m.traverse f := by
  simp [roots, traverse, Qualifiers.mapM_roots, TypeSpec.mapM_roots,
    mapM_flatMap f (Declarator.mapM_roots f)]

theorem Param.mapM_roots (p : Param μ ε) : p.roots.mapM f = Param.roots <$> p.traverse f := by
  simp [roots, traverse, Qualifiers.mapM_roots, TypeSpec.mapM_roots, mapM_sizes, -id_eq]

theorem Variables.mapM_roots (v : Variables μ ε) :
    v.roots.mapM f = Variables.roots <$> v.traverse f := by
  simp [roots, traverse, Qualifiers.mapM_roots, TypeSpec.mapM_roots,
    mapM_flatMap f (Declarator.mapM_roots f)]

theorem Signature.mapM_roots (s : Signature μ ε) :
    s.roots.mapM f = Signature.roots <$> s.traverse f := by
  simp [roots, traverse, Qualifiers.mapM_roots, TypeSpec.mapM_roots,
    mapM_flatMap f (Param.mapM_roots f)]

theorem ForInit.mapM_slots (i : ForInit μ ε) :
    i.slots.mapM f = ForInit.slots <$> i.traverse f := by
  cases i <;> simp [slots, traverse, Variables.mapM_roots]

mutual

/-- Going over a node changes its slots one after the other. -/
theorem Node.mapM_slots (n : Node μ ε) : n.slots.mapM f = Node.slots <$> n.traverse f := by
  match n with
  | .struct x q name ms ds | .interface x q name ms ds =>
    simp [Node.slots, Node.roots, Node.traverse, Qualifiers.mapM_roots,
      mapM_flatMap f (Member.mapM_roots f), mapM_flatMap f (Declarator.mapM_roots f)]
  | .vars x v => simp [Node.slots, Node.roots, Node.traverse, Variables.mapM_roots]
  | .prototype x s => simp [Node.slots, Node.roots, Node.traverse, Signature.mapM_roots]
  | .function x s y body =>
    simp [Node.slots, Node.traverse, Signature.mapM_roots, Node.mapM_slotsAll body]
  | .precision x word t => simp [Node.slots, Node.roots, Node.traverse, TypeSpec.mapM_roots]
  | .qualifiers x q names => simp [Node.slots, Node.roots, Node.traverse, Qualifiers.mapM_roots]
  | .expression x e => simp [Node.slots, Node.roots, Node.traverse]
  | .block x body => simp [Node.slots, Node.traverse, Node.mapM_slotsAll body]
  | .ifThen x c yes => simp [Node.slots, Node.traverse, Node.mapM_slots yes]
  | .ifElse x c yes no => simp [Node.slots, Node.traverse, Node.mapM_slots yes, Node.mapM_slots no]
  | .switch x e cases => simp [Node.slots, Node.traverse, Case.mapM_slotsAll cases]
  | .forLoop x init c u body =>
    simp [Node.slots, Node.traverse, ForInit.mapM_slots, mapM_toList, Node.mapM_slots body]
  | .whileLoop x c body => simp [Node.slots, Node.traverse, Node.mapM_slots body]
  | .doWhile x body c => simp [Node.slots, Node.traverse, Node.mapM_slots body]
  | .return x value => simp [Node.slots, Node.roots, Node.traverse, mapM_toList]
  | .empty x | .break x | .continue x | .discard x => simp [Node.slots, Node.roots, Node.traverse]

theorem Node.mapM_slotsAll (ns : List (Node μ ε)) :
    (Node.slotsAll ns).mapM f = Node.slotsAll <$> Node.traverseAll f ns := by
  match ns with
  | [] => simp [Node.slotsAll, Node.traverseAll]
  | n :: more => simp [Node.slotsAll, Node.traverseAll, Node.mapM_slots n, Node.mapM_slotsAll more]

theorem Case.mapM_slots (c : Case μ ε) : c.slots.mapM f = Case.slots <$> c.traverse f := by
  match c with
  | .mk x label body => simp [Case.slots, Case.traverse, mapM_toList, Node.mapM_slotsAll body]

theorem Case.mapM_slotsAll (cs : List (Case μ ε)) :
    (Case.slotsAll cs).mapM f = Case.slotsAll <$> Case.traverseAll f cs := by
  match cs with
  | [] => simp [Case.slotsAll, Case.traverseAll]
  | c :: more => simp [Case.slotsAll, Case.traverseAll, Case.mapM_slots c, Case.mapM_slotsAll more]

end

end Traverse

/-! ## Numbers -/

namespace Expr

variable {α : Type}

mutual

/-- Numbering gives the numbers from `base` on in a row, operands first. -/
theorem handles_number (base : Nat) (e : Expr α) :
    (e.number base).postorder.map handle = List.range' base e.size := by
  match e with
  | .sequence a items | .initializers a items =>
    simp [number, postorder, postorderAll_eq, handles_numberAll base items, size, handle, note,
      List.range'_1_concat]
  | .conditional a c y n =>
    simp [number, postorder, handles_number base c, handles_number (base + c.size) y,
      handles_number (base + (c.size + y.size)) n, size, handle, note, List.range'_1_concat,
      ← List.range'_append_1, Nat.add_assoc]
  | .binary a family op l r =>
    simp [number, postorder, handles_number base l, handles_number (base + l.size) r, size, handle,
      note, List.range'_1_concat, ← List.range'_append_1, Nat.add_assoc]
  | .unary a op side e =>
    simp [number, postorder, handles_number base e, size, handle, note, List.range'_1_concat]
  | .call a callee args =>
    simp [number, postorder, postorderAll_eq, handles_number base callee,
      handles_numberAll (base + callee.size) args, size, handle, note, List.range'_1_concat,
      ← List.range'_append_1, Nat.add_assoc]
  | .member a e name =>
    simp [number, postorder, handles_number base e, size, handle, note, List.range'_1_concat]
  | .index a e i =>
    simp [number, postorder, handles_number base e, handles_number (base + e.size) i, size, handle,
      note, List.range'_1_concat, ← List.range'_append_1, Nat.add_assoc]
  | .unsized a e =>
    simp [number, postorder, handles_number base e, size, handle, note, List.range'_1_concat]
  | .identifier a name | .literal a kind text => rfl

theorem handles_numberAll (base : Nat) (es : List (Expr α)) :
    ((numberAll base es).flatMap postorder).map handle = List.range' base (sizeAll es) := by
  match es with
  | [] => rfl
  | e :: more =>
    simp [numberAll, sizeAll, handles_number base e, handles_numberAll (base + e.size) more,
      ← List.range'_append_1]

end

/-- Going over expressions with the next number at hand numbers them all. -/
theorem mapM_numberNext (base : Nat) (es : List (Expr α)) :
    (es.mapM numberNext).run base = (numberAll base es, base + sizeAll es) := by
  induction es generalizing base with
  | nil => rfl
  | cons e es ih =>
    have hcons : ((e :: es).mapM numberNext).run base =
        ((e.number base :: ((es.mapM numberNext).run (base + e.size)).1),
          ((es.mapM numberNext).run (base + e.size)).2) := by
      rw [List.mapM_cons]
      rfl
    rw [hcons, ih, numberAll, sizeAll, Nat.add_assoc]

end Expr

end ShaderRepair

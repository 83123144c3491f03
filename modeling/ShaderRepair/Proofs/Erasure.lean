import ShaderRepair.Proofs.PassageMap
import ShaderRepair.Tree.Numbering

/-!
# Numbers change nothing else

Numbering the expressions of a module leaves everything else as it was: without their numbers, the
expressions stand where they stood. This file contains:
- `Answers`, what a computation with a counter answers wherever the counter starts;
- `Node.map_traverse` and its companions, by the parts of a node;
- `Module.mapWith_numbered`, which takes the numbers away again;
- `Node.inspect_map` and `Module.nodes_mapWith`: the nodes inside a changed node are the changed
  nodes inside it.
-/

namespace ShaderRepair

/-! ## Expressions -/

namespace Expr

variable {α : Type}

mutual

theorem map_snd_number (base : Nat) (e : Expr α) : (e.number base).map Prod.snd = e := by
  match e with
  | .sequence a items => simp only [number, map, mapAll_snd_numberAll base items]
  | .initializers a items => simp only [number, map, mapAll_snd_numberAll base items]
  | .conditional a c y n =>
    simp only [number, map, map_snd_number _ c, map_snd_number _ y, map_snd_number _ n]
  | .binary a family op l r => simp only [number, map, map_snd_number _ l, map_snd_number _ r]
  | .unary a op side e => simp only [number, map, map_snd_number _ e]
  | .call a callee args =>
    simp only [number, map, map_snd_number _ callee, mapAll_snd_numberAll _ args]
  | .member a e name => simp only [number, map, map_snd_number _ e]
  | .index a e i => simp only [number, map, map_snd_number _ e, map_snd_number _ i]
  | .unsized a e => simp only [number, map, map_snd_number _ e]
  | .identifier a name => rfl
  | .literal a kind text => rfl

theorem mapAll_snd_numberAll (base : Nat) (es : List (Expr α)) :
    mapAll Prod.snd (numberAll base es) = es := by
  match es with
  | [] => rfl
  | e :: more => simp only [numberAll, mapAll, map_snd_number _ e, mapAll_snd_numberAll _ more]

end

end Expr

/-! ## Answers -/

/-- Wherever the counter starts, the answer is such a one. -/
def Answers {α : Type} (c : StateM Nat α) (P : α → Prop) : Prop :=
  ∀ base, P (c.run base).1

namespace Answers

variable {α β : Type}

theorem pure {P : α → Prop} {a : α} (h : P a) : Answers (Pure.pure a) P :=
  fun _ => h

theorem bind {P : α → Prop} {Q : β → Prop} {c : StateM Nat α} {k : α → StateM Nat β}
    (hc : Answers c P) (hk : ∀ a, P a → Answers (k a) Q) : Answers (c >>= k) Q :=
  fun base => hk _ (hc base) _

/-- A list whose elements are taken one after the other. -/
theorem mapM {t : α → StateM Nat β} {r : β → α} (h : ∀ x, Answers (t x) fun y => r y = x)
    (xs : List α) : Answers (xs.mapM t) fun ys => ys.map r = xs := by
  induction xs with
  | nil => exact .pure rfl
  | cons x xs ih =>
    rw [List.mapM_cons]
    refine (h x).bind fun y hy => ih.bind fun ys hys => .pure ?_
    rw [List.map_cons, hy, hys]

end Answers

/-! ## Parts of nodes -/

section Parts

variable {μ ε η : Type} {f : ε → StateM Nat η} {g : η → ε}
  (h : ∀ e, Answers (f e) fun e' => g e' = e)
include h

theorem map_traverseOption (x : Option ε) :
    Answers (traverseOption f x) fun y => y.map g = x := by
  cases x with
  | none => exact .pure rfl
  | some e => exact (h e).bind fun e' he => .pure (congrArg some he)

theorem map_traverse_sizes (dims : List (Option ε)) :
    Answers (dims.mapM (traverseOption f)) fun dims' => dims'.map (Option.map g) = dims :=
  .mapM (map_traverseOption h) dims

theorem LayoutParam.map_traverse (p : LayoutParam μ ε) :
    Answers (p.traverse f) fun p' => p'.map id g = p :=
  (map_traverseOption h p.value).bind fun value hvalue => .pure (by rw [map, hvalue]; rfl)

theorem Qualifiers.map_traverse (q : Qualifiers μ ε) :
    Answers (q.traverse f) fun q' => q'.map id g = q := by
  refine (Answers.mapM (LayoutParam.map_traverse h) q.layout).bind fun layout hlayout => .pure ?_
  have hwords : q.words.map (Qualifier.map id) = q.words := List.map_id q.words
  rw [map, hlayout, hwords]

theorem TypeSpec.map_traverse (t : TypeSpec μ ε) :
    Answers (t.traverse f) fun t' => t'.map id g = t :=
  (map_traverse_sizes h t.dims).bind fun dims hdims => .pure (by rw [map, hdims]; rfl)

theorem Declarator.map_traverse (d : Declarator μ ε) :
    Answers (d.traverse f) fun d' => d'.map id g = d := by
  refine (map_traverse_sizes h d.dims).bind fun dims hdims => ?_
  refine (map_traverseOption h d.init).bind fun init hinit => .pure ?_
  rw [map, hdims, hinit]
  rfl

theorem Declarator.map_traverse_all (ds : List (Declarator μ ε)) :
    Answers (ds.mapM (Declarator.traverse f)) fun ds' => ds'.map (Declarator.map id g) = ds :=
  .mapM (Declarator.map_traverse h) ds

theorem Member.map_traverse (m : Member μ ε) :
    Answers (m.traverse f) fun m' => m'.map id g = m := by
  refine (m.qualifiers.map_traverse h).bind fun q hq => (m.type.map_traverse h).bind fun t ht => ?_
  refine (Declarator.map_traverse_all h m.declarators).bind fun ds hds => .pure ?_
  rw [map, hq, ht, hds]
  rfl

theorem Param.map_traverse (p : Param μ ε) :
    Answers (p.traverse f) fun p' => p'.map id g = p := by
  refine (p.qualifiers.map_traverse h).bind fun q hq => (p.type.map_traverse h).bind fun t ht => ?_
  refine (map_traverse_sizes h p.dims).bind fun dims hdims => .pure ?_
  have hname : p.name.map (Name.map id) = p.name := congrFun Option.map_id p.name
  rw [map, hq, ht, hdims, hname]

theorem Variables.map_traverse (v : Variables μ ε) :
    Answers (v.traverse f) fun v' => v'.map id g = v := by
  refine (v.qualifiers.map_traverse h).bind fun q hq => (v.type.map_traverse h).bind fun t ht => ?_
  refine (Declarator.map_traverse_all h v.declarators).bind fun ds hds => .pure ?_
  rw [map, hq, ht, hds]

theorem Signature.map_traverse (s : Signature μ ε) :
    Answers (s.traverse f) fun s' => s'.map id g = s := by
  refine (s.qualifiers.map_traverse h).bind fun q hq => ?_
  refine (s.result.map_traverse h).bind fun t ht => ?_
  refine (Answers.mapM (Param.map_traverse h) s.params).bind fun ps hps => .pure ?_
  rw [map, hq, ht, hps]
  rfl

theorem ForInit.map_traverse (i : ForInit μ ε) :
    Answers (i.traverse f) fun i' => i'.map id g = i := by
  cases i with
  | none => exact .pure rfl
  | vars x v => exact (v.map_traverse h).bind fun v' hv => .pure (by rw [map, hv]; rfl)
  | expression x e => exact (h e).bind fun e' he => .pure (by rw [map, he]; rfl)

omit h

mutual

/-- A node is what it was. -/
theorem Node.map_traverse (h : ∀ e, Answers (f e) fun e' => g e' = e) (n : Node μ ε) :
    Answers (n.traverse f) fun n' => n'.map id g = n := by
  -- The parts are asked in the order of the traversal, and every one of them answers itself.
  match n with
  | .struct x q name ms ds =>
    refine (q.map_traverse h).bind fun q' hq => ?_
    refine (Answers.mapM (Member.map_traverse h) ms).bind fun ms' hms => ?_
    refine (Declarator.map_traverse_all h ds).bind fun ds' hds => .pure ?_
    have hname : name.map (Name.map id) = name := congrFun Option.map_id name
    rw [Node.map, hq, hms, hds, hname]
    rfl
  | .interface x q name ms ds =>
    refine (q.map_traverse h).bind fun q' hq => ?_
    refine (Answers.mapM (Member.map_traverse h) ms).bind fun ms' hms => ?_
    refine (Declarator.map_traverse_all h ds).bind fun ds' hds => .pure ?_
    rw [Node.map, hq, hms, hds]
    rfl
  | .vars x v => exact (v.map_traverse h).bind fun v' hv => .pure (by rw [Node.map, hv]; rfl)
  | .prototype x s => exact (s.map_traverse h).bind fun s' hs => .pure (by rw [Node.map, hs]; rfl)
  | .function x s y body =>
    refine (s.map_traverse h).bind fun s' hs => ?_
    refine (Node.mapAll_traverseAll h body).bind fun body' hbody => .pure ?_
    rw [Node.map, hs, hbody]
    rfl
  | .precision x word t =>
    exact (t.map_traverse h).bind fun t' ht => .pure (by rw [Node.map, ht]; rfl)
  | .qualifiers x q names =>
    refine (q.map_traverse h).bind fun q' hq => .pure ?_
    have hnames : names.map (Name.map id) = names := List.map_id names
    rw [Node.map, hq, hnames]
    rfl
  | .expression x e => exact (h e).bind fun e' he => .pure (by rw [Node.map, he]; rfl)
  | .empty x => exact .pure rfl
  | .block x body =>
    refine (Node.mapAll_traverseAll h body).bind fun body' hbody => .pure ?_
    rw [Node.map, hbody]
    rfl
  | .ifThen x c yes =>
    refine (h c).bind fun c' hc => (Node.map_traverse h yes).bind fun yes' hyes => .pure ?_
    rw [Node.map, hc, hyes]
    rfl
  | .ifElse x c yes no =>
    refine (h c).bind fun c' hc => (Node.map_traverse h yes).bind fun yes' hyes => ?_
    refine (Node.map_traverse h no).bind fun no' hno => .pure ?_
    rw [Node.map, hc, hyes, hno]
    rfl
  | .switch x e cases =>
    refine (h e).bind fun e' he => (Case.mapAll_traverseAll h cases).bind fun cs hcs => .pure ?_
    rw [Node.map, he, hcs]
    rfl
  | .forLoop x init c u body =>
    refine (init.map_traverse h).bind fun init' hinit => ?_
    refine (map_traverseOption h c).bind fun c' hc => ?_
    refine (map_traverseOption h u).bind fun u' hu => ?_
    refine (Node.map_traverse h body).bind fun body' hbody => .pure ?_
    rw [Node.map, hinit, hc, hu, hbody]
    rfl
  | .whileLoop x c body =>
    refine (h c).bind fun c' hc => (Node.map_traverse h body).bind fun body' hbody => .pure ?_
    rw [Node.map, hc, hbody]
    rfl
  | .doWhile x body c =>
    refine (Node.map_traverse h body).bind fun body' hbody => (h c).bind fun c' hc => .pure ?_
    rw [Node.map, hbody, hc]
    rfl
  | .break x => exact .pure rfl
  | .continue x => exact .pure rfl
  | .return x value =>
    exact (map_traverseOption h value).bind fun v hv => .pure (by rw [Node.map, hv]; rfl)
  | .discard x => exact .pure rfl

theorem Node.mapAll_traverseAll (h : ∀ e, Answers (f e) fun e' => g e' = e)
    (ns : List (Node μ ε)) :
    Answers (Node.traverseAll f ns) fun ns' => Node.mapAll id g ns' = ns := by
  match ns with
  | [] => exact .pure rfl
  | n :: more =>
    refine (Node.map_traverse h n).bind fun n' hn => ?_
    refine (Node.mapAll_traverseAll h more).bind fun more' hmore => .pure ?_
    rw [Node.mapAll, hn, hmore]

theorem Case.mapAll_traverseAll (h : ∀ e, Answers (f e) fun e' => g e' = e)
    (cs : List (Case μ ε)) :
    Answers (Case.traverseAll f cs) fun cs' => Case.mapAll id g cs' = cs := by
  match cs with
  | [] => exact .pure rfl
  | .mk x label body :: more =>
    have hcase : Answers (Case.traverse f (.mk x label body)) fun c =>
        c.map id g = .mk x label body := by
      refine (map_traverseOption h label).bind fun label' hlabel => ?_
      refine (Node.mapAll_traverseAll h body).bind fun body' hbody => .pure ?_
      rw [Case.map, hlabel, hbody]
      rfl
    refine hcase.bind fun c' hc => ?_
    refine (Case.mapAll_traverseAll h more).bind fun more' hmore => .pure ?_
    rw [Case.mapAll, hc, hmore]

end

include h

theorem Fragment.map_traverse (x : Fragment μ ε) :
    Answers (x.traverse f) fun x' => x'.map id g = x := by
  cases x with
  | item n => exact (n.map_traverse h).bind fun n' hn => .pure (congrArg Fragment.item hn)
  | loose es => exact (Answers.mapM h es).bind fun es' hes => .pure (congrArg Fragment.loose hes)

end Parts

/-- Numbers can be taken away again. -/
theorem Module.mapWith_numbered {μ α : Type} (m : Module μ (Expr α)) :
    (numbered m).mapWith id (Expr.map Prod.snd) = m :=
  Answers.mapM (Fragment.map_traverse fun e base => e.map_snd_number base) m 0

/-! ## Nodes inside nodes -/

section Within

variable {μ ν ε η : Type} (f : μ → ν) (g : ε → η)

theorem ForInit.node?_map (i : ForInit μ ε) :
    (i.map f g).node?.toList = i.node?.toList.map (Node.map f g) := by
  cases i <;> rfl

mutual

theorem Node.inspect_map (n : Node μ ε) :
    Node.inspect (fun _ => true) (n.map f g) =
      (Node.inspect (fun _ => true) n).map (Node.map f g) := by
  match n with
  | .function x s y body => simp [Node.map, Node.inspect, Node.inspectAll_map body]
  | .block x body => simp [Node.map, Node.inspect, Node.inspectAll_map body]
  | .ifThen x c yes => simp [Node.map, Node.inspect, Node.inspect_map yes]
  | .ifElse x c yes no =>
    simp [Node.map, Node.inspect, Node.inspect_map yes, Node.inspect_map no]
  | .switch x e cases => simp [Node.map, Node.inspect, Node.inspectCases_map cases]
  | .forLoop x init c u body =>
    simp [Node.map, Node.inspect, Node.inspect_map body, ForInit.node?_map]
  | .whileLoop x c body => simp [Node.map, Node.inspect, Node.inspect_map body]
  | .doWhile x body c => simp [Node.map, Node.inspect, Node.inspect_map body]
  | .struct .. | .interface .. | .vars .. | .prototype .. | .precision .. | .qualifiers ..
  | .expression .. | .empty .. | .break .. | .continue .. | .return .. | .discard .. => rfl

theorem Node.inspectAll_map (ns : List (Node μ ε)) :
    Node.inspectAll (fun _ => true) (Node.mapAll f g ns) =
      (Node.inspectAll (fun _ => true) ns).map (Node.map f g) := by
  match ns with
  | [] => rfl
  | n :: more =>
    simp [Node.mapAll, Node.inspectAll, Node.inspect_map n, Node.inspectAll_map more]

theorem Node.inspectCases_map (cs : List (Case μ ε)) :
    Node.inspectCases (fun _ => true) (Case.mapAll f g cs) =
      (Node.inspectCases (fun _ => true) cs).map (Node.map f g) := by
  match cs with
  | [] => rfl
  | .mk x label body :: more =>
    simp [Case.mapAll, Case.map, Node.inspectCases, Node.inspectCase, Node.inspectAll_map body,
      Node.inspectCases_map more]

end

theorem Module.nodes_mapWith (m : Module μ ε) :
    (m.mapWith f g).nodes = m.nodes.map (Node.map f g) := by
  rw [nodes, items_mapWith, List.flatMap_map, nodes, List.map_flatMap]
  exact List.flatMap_congr fun n _ => n.inspect_map f g

end Within

end ShaderRepair

import Mathlib.Data.List.Basic
import ShaderRepair.Grammar.Rule
import ShaderRepair.Tree.Numbering
import ShaderRepair.Typing

/-!
# Shapes of trees

What is left of a tree when nothing is said about places any more, and the trees that conversions
of initializers make. This file contains:
- `bare` for expressions, parts of declarations, nodes and modules;
- `Expr.type_map`, which says that types do not depend on annotations;
- `convert`, which wraps chosen initializers in a call of the declared type;
- `Node.bare_convert_map`, which says that it does not matter whether marks are changed before.
-/

namespace ShaderRepair

/-! ## Expressions -/

namespace Expr

variable {α β : Type}

theorem mapAll_eq_map (f : α → β) (es : List (Expr α)) : mapAll f es = es.map (map f) := by
  induction es with
  | nil => rfl
  | cons e es ih => simp [mapAll, ih]

/-- The expression without annotations. -/
def bare (e : Expr α) : Expr Unit :=
  e.map fun _ => ()

section Constructors

variable (a : α) (e c y n : Expr α) (es : List (Expr α)) (name : Text)

@[simp] theorem bare_sequence : (sequence a es).bare = .sequence () (es.map bare) := by
  simp only [bare, map, mapAll_eq_map]
  rfl

@[simp] theorem bare_initializers : (initializers a es).bare = .initializers () (es.map bare) := by
  simp only [bare, map, mapAll_eq_map]
  rfl

@[simp] theorem bare_call : (call a e es).bare = .call () e.bare (es.map bare) := by
  simp only [bare, map, mapAll_eq_map]
  rfl

@[simp] theorem bare_conditional :
    (conditional a c y n).bare = .conditional () c.bare y.bare n.bare := rfl

@[simp] theorem bare_binary (family : Family) :
    (binary a family name y n).bare = .binary () family name y.bare n.bare := rfl

@[simp] theorem bare_unary (side : Side) :
    (unary a name side e).bare = .unary () name side e.bare := rfl

@[simp] theorem bare_member : (member a e name).bare = .member () e.bare name := rfl
@[simp] theorem bare_index : (index a e y).bare = .index () e.bare y.bare := rfl
@[simp] theorem bare_unsized : (unsized a e).bare = .unsized () e.bare := rfl
@[simp] theorem bare_identifier : (identifier a name).bare = .identifier () name := rfl

@[simp] theorem bare_literal (kind : LiteralKind) :
    (literal a kind name).bare = .literal () kind name := rfl

@[simp] theorem bare_setNote : (e.setNote a).bare = e.bare := by
  cases e <;> rfl

@[simp] theorem note_setNote : (e.setNote a).note = a := by
  cases e <;> rfl

end Constructors

mutual

theorem map_map {γ : Type} (f : α → β) (g : β → γ) (e : Expr α) :
    (e.map f).map g = e.map (g ∘ f) := by
  match e with
  | .sequence a items => simp only [map, mapAll_map, Function.comp]
  | .initializers a items => simp only [map, mapAll_map, Function.comp]
  | .conditional a c y n =>
    simp only [map, map_map f g c, map_map f g y, map_map f g n, Function.comp]
  | .binary a family op l r => simp only [map, map_map f g l, map_map f g r, Function.comp]
  | .unary a op side e => simp only [map, map_map f g e, Function.comp]
  | .call a callee args => simp only [map, map_map f g callee, mapAll_map, Function.comp]
  | .member a e name => simp only [map, map_map f g e, Function.comp]
  | .index a e i => simp only [map, map_map f g e, map_map f g i, Function.comp]
  | .unsized a e => simp only [map, map_map f g e, Function.comp]
  | .identifier a name => rfl
  | .literal a kind text => rfl

theorem mapAll_map {γ : Type} (f : α → β) (g : β → γ) (es : List (Expr α)) :
    mapAll g (mapAll f es) = mapAll (g ∘ f) es := by
  match es with
  | [] => rfl
  | e :: more => simp only [mapAll, map_map f g e, mapAll_map f g more]

end

@[simp] theorem bare_map (f : α → β) (e : Expr α) : (e.map f).bare = e.bare :=
  map_map f _ e

/-- What a call constructs does not depend on annotations. -/
theorem constructed_map (f : α → β) (e : Expr α) : (e.map f).constructed = e.constructed := by
  cases e <;> rfl

mutual

/-- Annotations have no influence on types. -/
theorem type_map (f : α → β) (e : Expr α) : (e.map f).type = e.type := by
  match e with
  | .sequence a items => simp only [map, type, typeLast_map f items]
  | .initializers a items => rfl
  | .conditional a c y n => simp only [map, type, type_map f y, type_map f n]
  | .binary a family op l r => simp only [map, type, type_map f l, type_map f r]
  | .unary a op side e => simp only [map, type, type_map f e]
  | .call a callee args => simp only [map, type, constructed_map f callee]
  | .member a e name => rfl
  | .index a e i => rfl
  | .unsized a e => rfl
  | .identifier a name => rfl
  | .literal a kind text => rfl

theorem typeLast_map (f : α → β) (es : List (Expr α)) : typeLast (mapAll f es) = typeLast es := by
  match es with
  | [] => rfl
  | [e] => simp only [mapAll, typeLast, type_map f e]
  | _ :: e :: more => exact typeLast_map f (e :: more)

end

/-- Whether a conversion is needed shows in the shape. -/
theorem needsConversion_congr {e : Expr α} {e' : Expr β} (h : e.bare = e'.bare) (T : Text) :
    e.needsConversion T = e'.needsConversion T := by
  have htype : e.type = e'.type := by
    have := congrArg type h
    rwa [bare, bare, type_map, type_map] at this
  simp only [needsConversion, htype]

end Expr

/-! ## Parts of declarations -/

section Parts

variable {μ ν : Type} {α : Type}

def Name.bare (n : Name μ) : Name Unit :=
  n.map fun _ => ()

def LayoutParam.bare (p : LayoutParam μ (Expr α)) : LayoutParam Unit (Expr Unit) :=
  p.map (fun _ => ()) Expr.bare

def Qualifiers.bare (q : Qualifiers μ (Expr α)) : Qualifiers Unit (Expr Unit) :=
  q.map (fun _ => ()) Expr.bare

def TypeSpec.bare (t : TypeSpec μ (Expr α)) : TypeSpec Unit (Expr Unit) :=
  t.map (fun _ => ()) Expr.bare

def Declarator.bare (d : Declarator μ (Expr α)) : Declarator Unit (Expr Unit) :=
  d.map (fun _ => ()) Expr.bare

def Member.bare (m : Member μ (Expr α)) : Member Unit (Expr Unit) :=
  m.map (fun _ => ()) Expr.bare

def Param.bare (p : Param μ (Expr α)) : Param Unit (Expr Unit) :=
  p.map (fun _ => ()) Expr.bare

def Variables.bare (v : Variables μ (Expr α)) : Variables Unit (Expr Unit) :=
  v.map (fun _ => ()) Expr.bare

def Signature.bare (s : Signature μ (Expr α)) : Signature Unit (Expr Unit) :=
  s.map (fun _ => ()) Expr.bare

def ForInit.bare (i : ForInit μ (Expr α)) : ForInit Unit (Expr Unit) :=
  i.map (fun _ => ()) Expr.bare

def Node.bare (n : Node μ (Expr α)) : Node Unit (Expr Unit) :=
  n.map (fun _ => ()) Expr.bare

def Node.bareAll (ns : List (Node μ (Expr α))) : List (Node Unit (Expr Unit)) :=
  Node.mapAll (fun _ => ()) Expr.bare ns

def Case.bareAll (cs : List (Case μ (Expr α))) : List (Case Unit (Expr Unit)) :=
  Case.mapAll (fun _ => ()) Expr.bare cs

/-- The module without places. -/
def Module.bare (m : Module μ (Expr α)) : Module Unit (Expr Unit) :=
  m.mapWith (fun _ => ()) Expr.bare

/-! ## Converting initializers -/

/-- An initializer that starts at a mark chosen by `C` for the type `T` becomes the argument of a
call of `T`. -/
def Expr.convert (C : μ → Text → Bool) (T : Text) (e : Expr (Extent μ)) : Expr (Extent μ) :=
  if C e.note.first T then .call e.note (.identifier e.note T) [e] else e

def Declarator.convert (C : μ → Text → Bool) (T : Text) (d : Declarator μ (Expr (Extent μ))) :
    Declarator μ (Expr (Extent μ)) :=
  { d with init := d.init.map (Expr.convert C T) }

/-- The variables with converted initializers. -/
def Variables.convert (C : μ → Text → Bool) (v : Variables μ (Expr (Extent μ))) :
    Variables μ (Expr (Extent μ)) :=
  { v with declarators := v.declarators.map (Declarator.convert C v.type.name.text) }

def ForInit.convert (C : μ → Text → Bool) :
    ForInit μ (Expr (Extent μ)) → ForInit μ (Expr (Extent μ))
  | .none => .none
  | .vars x v => .vars x (v.convert C)
  | .expression x e => .expression x e

mutual

/-- The node with converted initializers, wherever variables are declared in it. -/
def Node.convert (C : μ → Text → Bool) : Node μ (Expr (Extent μ)) → Node μ (Expr (Extent μ))
  | .vars x v => .vars x (v.convert C)
  | .function x s y body => .function x s y (Node.convertAll C body)
  | .block x body => .block x (Node.convertAll C body)
  | .ifThen x c yes => .ifThen x c (Node.convert C yes)
  | .ifElse x c yes no => .ifElse x c (Node.convert C yes) (Node.convert C no)
  | .switch x e cases => .switch x e (Case.convertAll C cases)
  | .forLoop x init c u body => .forLoop x (init.convert C) c u (Node.convert C body)
  | .whileLoop x c body => .whileLoop x c (Node.convert C body)
  | .doWhile x body c => .doWhile x (Node.convert C body) c
  | n => n

def Node.convertAll (C : μ → Text → Bool) :
    List (Node μ (Expr (Extent μ))) → List (Node μ (Expr (Extent μ)))
  | [] => []
  | n :: more => Node.convert C n :: Node.convertAll C more

def Case.convert (C : μ → Text → Bool) : Case μ (Expr (Extent μ)) → Case μ (Expr (Extent μ))
  | .mk x label body => .mk x label (Node.convertAll C body)

def Case.convertAll (C : μ → Text → Bool) :
    List (Case μ (Expr (Extent μ))) → List (Case μ (Expr (Extent μ)))
  | [] => []
  | c :: more => Case.convert C c :: Case.convertAll C more

end

def Fragment.convert (C : μ → Text → Bool) :
    Fragment μ (Expr (Extent μ)) → Fragment μ (Expr (Extent μ))
  | .item n => .item (n.convert C)
  | .loose es => .loose es

theorem Node.convertAll_eq_map (C : μ → Text → Bool) (ns : List (Node μ (Expr (Extent μ)))) :
    Node.convertAll C ns = ns.map (Node.convert C) := by
  induction ns with
  | nil => rfl
  | cons n ns ih => rw [Node.convertAll, ih, List.map_cons]

theorem Node.bareAll_eq_map (ns : List (Node μ (Expr α))) :
    Node.bareAll ns = ns.map Node.bare := by
  induction ns with
  | nil => rfl
  | cons n ns ih => exact congrArg (Node.bare n :: ·) ih

/-- The module with converted initializers. -/
def Module.convert (C : μ → Text → Bool) (m : Module μ (Expr (Extent μ))) :
    Module μ (Expr (Extent μ)) :=
  List.map (Fragment.convert C) m

end Parts

/-! ## Nothing to convert -/

section Never

variable {μ : Type}

theorem Variables.convert_never (v : Variables μ (Expr (Extent μ))) :
    v.convert (fun _ _ => false) = v := by
  have hd : ∀ d : Declarator μ (Expr (Extent μ)),
      d.convert (fun _ _ => false) v.type.name.text = d := by
    intro d
    cases hi : d.init <;> simp [Declarator.convert, hi, Expr.convert] <;> rw [← hi]
  have hds : v.declarators.map (Declarator.convert (fun _ _ => false) v.type.name.text) =
      v.declarators :=
    (List.map_congr_left fun d _ => hd d).trans (List.map_id _)
  rw [Variables.convert, hds]

mutual

theorem Node.convert_never (n : Node μ (Expr (Extent μ))) : n.convert (fun _ _ => false) = n := by
  match n with
  | .vars x v => exact congrArg (Node.vars x) v.convert_never
  | .function x s y body => exact congrArg (Node.function x s y) (Node.convertAll_never body)
  | .block x body => exact congrArg (Node.block x) (Node.convertAll_never body)
  | .ifThen x c yes => exact congrArg (Node.ifThen x c) (Node.convert_never yes)
  | .ifElse x c yes no => rw [Node.convert, Node.convert_never yes, Node.convert_never no]
  | .switch x e cases => exact congrArg (Node.switch x e) (Case.convertAll_never cases)
  | .forLoop x init c u body =>
    have hinit : init.convert (fun _ _ => false) = init := by
      cases init with
      | none => rfl
      | vars x v => exact congrArg (ForInit.vars x) v.convert_never
      | expression x e => rfl
    rw [Node.convert, hinit, Node.convert_never body]
  | .whileLoop x c body => exact congrArg (Node.whileLoop x c) (Node.convert_never body)
  | .doWhile x body c => rw [Node.convert, Node.convert_never body]
  | .struct .. | .interface .. | .prototype .. | .precision .. | .qualifiers .. | .expression ..
  | .empty _ | .break _ | .continue _ | .return .. | .discard _ => rfl

theorem Node.convertAll_never (ns : List (Node μ (Expr (Extent μ)))) :
    Node.convertAll (fun _ _ => false) ns = ns := by
  match ns with
  | [] => rfl
  | n :: more => rw [Node.convertAll, Node.convert_never n, Node.convertAll_never more]

theorem Case.convertAll_never (cs : List (Case μ (Expr (Extent μ)))) :
    Case.convertAll (fun _ _ => false) cs = cs := by
  match cs with
  | [] => rfl
  | .mk x label body :: more =>
    rw [Case.convertAll, Case.convert, Node.convertAll_never body, Case.convertAll_never more]

end

end Never

/-! ## Changing marks -/

section Marks

variable {μ ν : Type} (f : μ → ν)

theorem Name.bare_map (n : Name μ) : (n.map f).bare = n.bare := rfl

theorem Qualifiers.bare_map (q : Qualifiers μ (Expr (Extent μ))) :
    (q.map f (Expr.map (Extent.map f))).bare = q.bare := by
  simp [Qualifiers.bare, Qualifiers.map, LayoutParam.map, Qualifier.map, Name.map,
    Function.comp_def]

theorem TypeSpec.bare_map (t : TypeSpec μ (Expr (Extent μ))) :
    (t.map f (Expr.map (Extent.map f))).bare = t.bare := by
  simp [TypeSpec.bare, TypeSpec.map, Name.map, Function.comp_def]

theorem Declarator.bare_map (d : Declarator μ (Expr (Extent μ))) :
    (d.map f (Expr.map (Extent.map f))).bare = d.bare := by
  simp [Declarator.bare, Declarator.map, Name.map, Function.comp_def]

theorem Member.bare_map (m : Member μ (Expr (Extent μ))) :
    (m.map f (Expr.map (Extent.map f))).bare = m.bare := by
  simp only [Member.bare, Member.map, Member.mk.injEq, List.map_map]
  refine ⟨rfl, m.qualifiers.bare_map f, m.type.bare_map f, ?_⟩
  exact List.map_congr_left fun d _ => d.bare_map f

theorem Param.bare_map (p : Param μ (Expr (Extent μ))) :
    (p.map f (Expr.map (Extent.map f))).bare = p.bare := by
  simp only [Param.bare, Param.map, Param.mk.injEq, List.map_map, Option.map_map]
  refine ⟨p.qualifiers.bare_map f, p.type.bare_map f, rfl, ?_⟩
  simp [Function.comp_def]

theorem Signature.bare_map (s : Signature μ (Expr (Extent μ))) :
    (s.map f (Expr.map (Extent.map f))).bare = s.bare := by
  simp only [Signature.bare, Signature.map, Signature.mk.injEq, List.map_map]
  refine ⟨s.qualifiers.bare_map f, s.result.bare_map f, rfl, ?_⟩
  exact List.map_congr_left fun p _ => p.bare_map f

variable {C : ν → Text → Bool}

theorem Expr.bare_convert_map (T : Text) (e : Expr (Extent μ)) :
    ((e.map (Extent.map f)).convert C T).bare = (e.convert (fun i => C (f i)) T).bare := by
  have hnote : (e.map (Extent.map f)).note.first = f e.note.first := by
    cases e <;> rfl
  simp only [Expr.convert, hnote]
  split <;> simp

theorem Declarator.bare_convert_map (T : Text) (d : Declarator μ (Expr (Extent μ))) :
    ((d.map f (Expr.map (Extent.map f))).convert C T).bare =
      (d.convert (fun i => C (f i)) T).bare := by
  simp only [Declarator.bare, Declarator.convert, Declarator.map, Declarator.mk.injEq,
    List.map_map, Option.map_map]
  refine ⟨rfl, by simp [Function.comp_def], ?_⟩
  cases d.init with
  | none => rfl
  | some e => exact congrArg some (Expr.bare_convert_map f T e)

theorem Variables.bare_convert_map (v : Variables μ (Expr (Extent μ))) :
    ((v.map f (Expr.map (Extent.map f))).convert C).bare =
      (v.convert fun i => C (f i)).bare := by
  simp only [Variables.bare, Variables.convert, Variables.map, Variables.mk.injEq, List.map_map]
  refine ⟨v.qualifiers.bare_map f, v.type.bare_map f, ?_⟩
  exact List.map_congr_left fun d _ => d.bare_convert_map f _

theorem ForInit.bare_convert_map (i : ForInit μ (Expr (Extent μ))) :
    ((i.map f (Expr.map (Extent.map f))).convert C).bare =
      (i.convert fun i => C (f i)).bare := by
  cases i with
  | none => rfl
  | vars x v => exact congrArg (ForInit.vars _) (v.bare_convert_map f)
  | expression x e => exact congrArg (ForInit.expression _) (e.bare_map _)

mutual

/-- Marks may be changed before or after the conversion. -/
theorem Node.bare_convert_map (n : Node μ (Expr (Extent μ))) :
    ((n.map f (Expr.map (Extent.map f))).convert C).bare = (n.convert fun i => C (f i)).bare := by
  -- Only initializers are converted; in all other parts the marks are all that changes.
  match n with
  | .struct x q name ms ds =>
    simp only [Node.map, Node.convert, Node.bare, Node.struct.injEq, List.map_map, Option.map_map]
    refine ⟨rfl, q.bare_map f, rfl, ?_, ?_⟩
    · exact List.map_congr_left fun m _ => m.bare_map f
    · exact List.map_congr_left fun d _ => d.bare_map f
  | .interface x q name ms ds =>
    simp only [Node.map, Node.convert, Node.bare, Node.interface.injEq, List.map_map]
    refine ⟨rfl, q.bare_map f, rfl, ?_, ?_⟩
    · exact List.map_congr_left fun m _ => m.bare_map f
    · exact List.map_congr_left fun d _ => d.bare_map f
  | .vars x v => exact congrArg (Node.vars _) (v.bare_convert_map f)
  | .prototype x s => exact congrArg (Node.prototype _) (s.bare_map f)
  | .function x s y body =>
    exact congr (congrArg (Node.function _ · _) (s.bare_map f)) (Node.bareAll_convert_map body)
  | .precision x word t => exact congrArg (Node.precision _ _) (t.bare_map f)
  | .qualifiers x q names =>
    simp only [Node.map, Node.convert, Node.bare, Node.qualifiers.injEq, List.map_map]
    exact ⟨rfl, q.bare_map f, rfl⟩
  | .expression x e => exact congrArg (Node.expression _) (e.bare_map _)
  | .empty x => rfl
  | .block x body => exact congrArg (Node.block _) (Node.bareAll_convert_map body)
  | .ifThen x c yes =>
    exact congr (congrArg (Node.ifThen _) (c.bare_map _)) (Node.bare_convert_map yes)
  | .ifElse x c yes no =>
    exact congr (congr (congrArg (Node.ifElse _) (c.bare_map _)) (Node.bare_convert_map yes))
      (Node.bare_convert_map no)
  | .switch x e cases =>
    exact congr (congrArg (Node.switch _) (e.bare_map _)) (Case.bareAll_convert_map cases)
  | .forLoop x init c u body =>
    have hoption : ∀ o : Option (Expr (Extent μ)),
        (o.map (Expr.map (Extent.map f))).map Expr.bare = o.map Expr.bare := by
      simp [Function.comp_def]
    exact congr (congr (congr (congrArg (Node.forLoop _) (init.bare_convert_map f)) (hoption c))
      (hoption u)) (Node.bare_convert_map body)
  | .whileLoop x c body =>
    exact congr (congrArg (Node.whileLoop _) (c.bare_map _)) (Node.bare_convert_map body)
  | .doWhile x body c =>
    exact congr (congrArg (Node.doWhile _) (Node.bare_convert_map body)) (c.bare_map _)
  | .break x => rfl
  | .continue x => rfl
  | .return x value =>
    simp [Node.map, Node.convert, Node.bare, Extent.map, Function.comp_def]
  | .discard x => rfl

theorem Node.bareAll_convert_map (ns : List (Node μ (Expr (Extent μ)))) :
    Node.bareAll (Node.convertAll C (Node.mapAll f (Expr.map (Extent.map f)) ns)) =
      Node.bareAll (Node.convertAll (fun i => C (f i)) ns) := by
  match ns with
  | [] => rfl
  | n :: more =>
    exact congr (congrArg List.cons (Node.bare_convert_map n)) (Node.bareAll_convert_map more)

theorem Case.bareAll_convert_map (cs : List (Case μ (Expr (Extent μ)))) :
    Case.bareAll (Case.convertAll C (Case.mapAll f (Expr.map (Extent.map f)) cs)) =
      Case.bareAll (Case.convertAll (fun i => C (f i)) cs) := by
  match cs with
  | [] => rfl
  | .mk x label body :: more =>
    have hlabel : (label.map (Expr.map (Extent.map f))).map Expr.bare = label.map Expr.bare := by
      simp [Function.comp_def]
    exact congr (congrArg List.cons (congr (congrArg (Case.mk _) hlabel)
      (Node.bareAll_convert_map body))) (Case.bareAll_convert_map more)

end

/-- Changing marks does not change the shape. -/
theorem Node.bare_map (n : Node μ (Expr (Extent μ))) :
    (n.map f (Expr.map (Extent.map f))).bare = n.bare := by
  have h := n.bare_convert_map (C := fun _ _ => false) f
  rwa [Node.convert_never, Node.convert_never] at h

theorem Module.bare_map (ns : List (Node μ (Expr (Extent μ)))) :
    Module.bare (Module.mapWith f (Expr.map (Extent.map f)) (ns.map Fragment.item)) =
      ns.map fun n => .item n.bare := by
  induction ns with
  | nil => rfl
  | cons n ns ih => exact congr (congrArg List.cons (congrArg _ (n.bare_map f))) ih

/-- A module of finished items whose marks are changed. -/
theorem Module.bare_convert_map (ns : List (Node μ (Expr (Extent μ)))) :
    Module.bare (Module.convert C
        (Module.mapWith f (Expr.map (Extent.map f)) (ns.map Fragment.item))) =
      ns.map fun n => .item (n.convert fun i => C (f i)).bare := by
  induction ns with
  | nil => rfl
  | cons n ns ih => exact congr (congrArg List.cons (congrArg _ (n.bare_convert_map f))) ih

end Marks

end ShaderRepair

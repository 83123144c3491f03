import ShaderRepair.Grammar.Symbol
import ShaderRepair.Tree.Numbering

/-!
# Passages

A tree read in the order of its source. What is read are atoms (identifiers, literals and
operators), expressions, and spans: nodes, members and cases, with what stands inside them.
Keywords and punctuation leave no trace in a tree and are not read. This file contains:
- `Atom`, and the atom that a token or a symbol stands for;
- `Expr.atoms`, the atoms of an expression in order;
- `Passage`, with `parts` of expressions, nodes and their parts;
- the three things that are read off passages: atoms, expressions, and `families`, which are extents
  with the extents directly inside them;
- `Module.atoms` and `Module.families`, for a whole module;
- `Node.exprsAll_parts`, which says that reading a node meets its slots.
-/

namespace ShaderRepair

/-! ## Atoms -/

/-- An identifier, a literal or an operator. -/
inductive Atom where
  | identifier (name : Text)
  | literal (kind : LiteralKind) (text : Text)
  | operator (op : Text)
  deriving DecidableEq, Repr

/-- The atom that a lexeme of some kind stands for. -/
def Atom.ofLexeme (kind : Kind) (lexeme : Text) (literal : LiteralKind) : Option Atom :=
  match kind with
  | .identifier => some (.identifier lexeme)
  | .literal => some (.literal literal lexeme)
  | .operator => some (.operator lexeme)
  | _ => none

def Token.atom? (t : Token) : Option Atom :=
  Atom.ofLexeme t.kind t.lexeme t.tags.literal

def Symbol.atom? (x : Symbol) : Option Atom :=
  Atom.ofLexeme x.kind x.lexeme x.tags.literal

namespace Expr

variable {α : Type}

mutual

/-- The atoms of an expression from left to right. A question mark stands behind its condition, a
member name behind its object. -/
def atoms : Expr α → List Atom
  | .sequence _ items => atomsAll items
  | .initializers _ items => atomsAll items
  | .conditional _ c y n => atoms c ++ .operator (Text.ascii "?") :: (atoms y ++ atoms n)
  | .binary _ _ op l r => atoms l ++ .operator op :: atoms r
  | .unary _ op .before e => .operator op :: atoms e
  | .unary _ op .after e => atoms e ++ [.operator op]
  | .call _ callee args => atoms callee ++ atomsAll args
  | .member _ e name => atoms e ++ [.identifier name]
  | .index _ e i => atoms e ++ atoms i
  | .unsized _ e => atoms e
  | .identifier _ name => [.identifier name]
  | .literal _ kind text => [.literal kind text]

def atomsAll : List (Expr α) → List Atom
  | [] => []
  | e :: more => atoms e ++ atomsAll more

end

theorem atomsAll_eq (es : List (Expr α)) : atomsAll es = es.flatMap atoms := by
  induction es with
  | nil => rfl
  | cons e es ih => simp [atomsAll, ih]

@[simp] theorem atoms_setNote (a : α) (e : Expr α) : (e.setNote a).atoms = e.atoms := by
  cases e with
  | unary b op side e => cases side <;> rfl
  | _ => rfl

/-! ## Postorder and operands -/

theorem postorderAll_eq (es : List (Expr α)) : postorderAll es = es.flatMap postorder := by
  induction es with
  | nil => rfl
  | cons e es ih => simp [postorderAll, ih]

/-- The operands with everything in them come first. -/
theorem postorder_eq (e : Expr α) : e.postorder = e.children.flatMap postorder ++ [e] := by
  cases e <;> simp [postorder, children, postorderAll_eq]

theorem mem_postorder_self (e : Expr α) : e ∈ e.postorder := by
  rw [postorder_eq]
  exact List.mem_append_right _ (List.mem_singleton_self e)

end Expr

/-! ## Passages -/

/-- What is met when a tree is read in source order. -/
inductive Passage (μ ε : Type) where
  | atom (a : Atom)
  | expr (e : ε)
  | span (extent : Extent μ) (parts : List (Passage μ ε))
  deriving Repr

namespace Passage

variable {μ ν ε η α : Type}

mutual

def exprs : Passage μ ε → List ε
  | .atom _ => []
  | .expr e => [e]
  | .span _ parts => exprsAll parts

/-- The expressions that are met, without the operands in them. -/
def exprsAll : List (Passage μ ε) → List ε
  | [] => []
  | p :: more => exprs p ++ exprsAll more

end

mutual

def atoms : Passage μ (Expr α) → List Atom
  | .atom a => [a]
  | .expr e => e.atoms
  | .span _ parts => atomsAll parts

/-- The atoms that are met, those of expressions among them. -/
def atomsAll : List (Passage μ (Expr α)) → List Atom
  | [] => []
  | p :: more => atoms p ++ atomsAll more

end

/-- Where an expression or a span stands. -/
def extent? : Passage μ (Expr (Extent μ)) → Option (Extent μ)
  | .atom _ => none
  | .expr e => some e.note
  | .span x _ => some x

/-- The extents of the passages that have one. -/
def extents (ps : List (Passage μ (Expr (Extent μ)))) : List (Extent μ) :=
  ps.filterMap extent?

/-- An expression's extent with those of its operands. -/
def family (e : Expr (Extent μ)) : Extent μ × List (Extent μ) :=
  (e.note, e.children.map Expr.note)

mutual

def families : Passage μ (Expr (Extent μ)) → List (Extent μ × List (Extent μ))
  | .atom _ => []
  | .expr e => e.postorder.map family
  | .span x parts => (x, extents parts) :: familiesAll parts

/-- All extents that are met, each with the extents directly inside it. -/
def familiesAll : List (Passage μ (Expr (Extent μ))) → List (Extent μ × List (Extent μ))
  | [] => []
  | p :: more => families p ++ familiesAll more

end

mutual

/-- Changes marks and expressions. -/
def map (f : μ → ν) (g : ε → η) : Passage μ ε → Passage ν η
  | .atom a => .atom a
  | .expr e => .expr (g e)
  | .span x parts => .span (x.map f) (mapAll f g parts)

def mapAll (f : μ → ν) (g : ε → η) : List (Passage μ ε) → List (Passage ν η)
  | [] => []
  | p :: more => map f g p :: mapAll f g more

end

/-! ### Lists of passages -/

section Lists

variable (ps qs : List (Passage μ ε)) (es : List ε)

theorem exprsAll_eq : exprsAll ps = ps.flatMap exprs := by
  induction ps with
  | nil => rfl
  | cons p ps ih => simp [exprsAll, ih]

@[simp] theorem exprsAll_nil : exprsAll ([] : List (Passage μ ε)) = [] := rfl

@[simp] theorem exprsAll_append : exprsAll (ps ++ qs) = exprsAll ps ++ exprsAll qs := by
  simp [exprsAll_eq]

@[simp] theorem exprsAll_cons (p : Passage μ ε) : exprsAll (p :: ps) = p.exprs ++ exprsAll ps := rfl

@[simp] theorem exprs_atom (a : Atom) : (atom a : Passage μ ε).exprs = [] := rfl

@[simp] theorem exprs_expr (e : ε) : (expr e : Passage μ ε).exprs = [e] := rfl

@[simp] theorem exprs_span (x : Extent μ) : (span x ps).exprs = exprsAll ps := rfl

@[simp] theorem exprsAll_map_expr : exprsAll (es.map (expr : ε → Passage μ ε)) = es := by
  induction es with
  | nil => rfl
  | cons e es ih => simp [ih]

@[simp] theorem exprsAll_map_atom (as : List Atom) :
    exprsAll (as.map (atom : Atom → Passage μ ε)) = [] := by
  induction as with
  | nil => rfl
  | cons a as ih => simp [ih]

theorem mapAll_eq_map (f : μ → ν) (g : ε → η) : mapAll f g ps = ps.map (map f g) := by
  induction ps with
  | nil => rfl
  | cons p ps ih => simp [mapAll, ih]

end Lists

section Atoms

variable (ps qs : List (Passage μ (Expr α))) (es : List (Expr α))

theorem atomsAll_eq : atomsAll ps = ps.flatMap atoms := by
  induction ps with
  | nil => rfl
  | cons p ps ih => simp [atomsAll, ih]

@[simp] theorem atomsAll_nil : atomsAll ([] : List (Passage μ (Expr α))) = [] := rfl

@[simp] theorem atomsAll_append : atomsAll (ps ++ qs) = atomsAll ps ++ atomsAll qs := by
  simp [atomsAll_eq]

@[simp] theorem atomsAll_cons (p : Passage μ (Expr α)) :
    atomsAll (p :: ps) = p.atoms ++ atomsAll ps := rfl

@[simp] theorem atoms_atom (a : Atom) : (atom a : Passage μ (Expr α)).atoms = [a] := rfl

@[simp] theorem atoms_expr (e : Expr α) : (expr e : Passage μ (Expr α)).atoms = e.atoms := rfl

@[simp] theorem atoms_span (x : Extent μ) : (span x ps).atoms = atomsAll ps := rfl

@[simp] theorem atomsAll_map_atom (as : List Atom) :
    atomsAll (as.map (atom : Atom → Passage μ (Expr α))) = as := by
  induction as with
  | nil => rfl
  | cons a as ih => simp [ih]

@[simp] theorem atomsAll_map_expr :
    atomsAll (es.map (expr : Expr α → Passage μ (Expr α))) = es.flatMap Expr.atoms := by
  induction es with
  | nil => rfl
  | cons e es ih => simp [ih]

end Atoms

section Families

variable (ps qs : List (Passage μ (Expr (Extent μ)))) (es : List (Expr (Extent μ)))

theorem familiesAll_eq : familiesAll ps = ps.flatMap families := by
  induction ps with
  | nil => rfl
  | cons p ps ih => simp [familiesAll, ih]

@[simp] theorem familiesAll_nil : familiesAll ([] : List (Passage μ (Expr (Extent μ)))) = [] := rfl

@[simp] theorem familiesAll_append : familiesAll (ps ++ qs) = familiesAll ps ++ familiesAll qs := by
  simp [familiesAll_eq]

@[simp] theorem familiesAll_cons (p : Passage μ (Expr (Extent μ))) :
    familiesAll (p :: ps) = p.families ++ familiesAll ps := rfl

@[simp] theorem families_atom (a : Atom) : (atom a : Passage μ (Expr (Extent μ))).families = [] :=
  rfl

@[simp] theorem families_expr (e : Expr (Extent μ)) :
    (expr e).families = e.postorder.map family := rfl

@[simp] theorem families_span (x : Extent μ) :
    (span x ps).families = (x, extents ps) :: familiesAll ps := rfl

@[simp] theorem familiesAll_map_expr :
    familiesAll (es.map expr) = (es.flatMap Expr.postorder).map family := by
  induction es with
  | nil => rfl
  | cons e es ih => simp [ih]

@[simp] theorem extents_nil : extents ([] : List (Passage μ (Expr (Extent μ)))) = [] := rfl

@[simp] theorem extents_atom (a : Atom) : extents (atom a :: ps) = extents ps := rfl

@[simp] theorem extents_expr (e : Expr (Extent μ)) :
    extents (expr e :: ps) = e.note :: extents ps := rfl

@[simp] theorem extents_span (x : Extent μ) : extents (span x qs :: ps) = x :: extents ps := rfl

@[simp] theorem extents_append : extents (ps ++ qs) = extents ps ++ extents qs :=
  List.filterMap_append

@[simp] theorem extents_map_expr : extents (es.map expr) = es.map Expr.note := by
  induction es with
  | nil => rfl
  | cons e es ih => simp [ih]

end Families

end Passage

/-! ## Expressions in parts -/

/-- The operands of an expression, and the atoms between them. -/
def Expr.parts {μ α : Type} : Expr α → List (Passage μ (Expr α))
  | .sequence _ items => items.map .expr
  | .initializers _ items => items.map .expr
  | .conditional _ c y n => [.expr c, .atom (.operator (Text.ascii "?")), .expr y, .expr n]
  | .binary _ _ op l r => [.expr l, .atom (.operator op), .expr r]
  | .unary _ op .before e => [.atom (.operator op), .expr e]
  | .unary _ op .after e => [.expr e, .atom (.operator op)]
  | .call _ callee args => .expr callee :: args.map .expr
  | .member _ e name => [.expr e, .atom (.identifier name)]
  | .index _ e i => [.expr e, .expr i]
  | .unsized _ e => [.expr e]
  | .identifier _ name => [.atom (.identifier name)]
  | .literal _ kind text => [.atom (.literal kind text)]

namespace Expr

variable {μ α : Type}

theorem exprsAll_parts (e : Expr α) :
    Passage.exprsAll (e.parts : List (Passage μ (Expr α))) = e.children := by
  cases e with
  | unary a op side e => cases side <;> rfl
  | _ => simp [parts, children]

theorem atomsAll_parts (e : Expr α) :
    Passage.atomsAll (e.parts : List (Passage μ (Expr α))) = e.atoms := by
  cases e with
  | unary a op side e => cases side <;> simp [parts, atoms]
  | _ => simp [parts, atoms, atomsAll_eq]

theorem extents_parts (e : Expr (Extent μ)) :
    Passage.extents e.parts = e.children.map note := by
  cases e with
  | unary a op side e => cases side <;> rfl
  | _ => simp [parts, children]

theorem familiesAll_parts (e : Expr (Extent μ)) :
    Passage.familiesAll e.parts = (e.children.flatMap postorder).map Passage.family := by
  cases e with
  | unary a op side e => cases side <;> simp [parts, children]
  | _ => simp [parts, children]

end Expr

/-! ## Parts of declarations -/

section Parts

variable {μ ε : Type}

def Name.passage (n : Name μ) : Passage μ ε :=
  .atom (.identifier n.text)

/-- The sizes among array dimensions. -/
def sizes (dims : List (Option ε)) : List (Passage μ ε) :=
  (dims.filterMap id).map .expr

/-- A value behind an assignment sign. -/
def assigned : Option ε → List (Passage μ ε)
  | some e => [.atom (.operator (Text.ascii "=")), .expr e]
  | none => []

/-- Where a value may be missing. -/
def optional (e : Option ε) : List (Passage μ ε) :=
  e.toList.map .expr

/-- The name `shared` is a keyword and no atom. -/
def LayoutParam.passages (p : LayoutParam μ ε) : List (Passage μ ε) :=
  if p.name.text = Text.ascii "shared" then assigned p.value else p.name.passage :: assigned p.value

def Qualifiers.passages (q : Qualifiers μ ε) : List (Passage μ ε) :=
  q.layout.flatMap LayoutParam.passages

def TypeSpec.passages (t : TypeSpec μ ε) : List (Passage μ ε) :=
  t.name.passage :: sizes t.dims

def Declarator.passages (d : Declarator μ ε) : List (Passage μ ε) :=
  d.name.passage :: (sizes d.dims ++ assigned d.init)

def Member.passage (m : Member μ ε) : Passage μ ε :=
  .span m.extent
    (m.qualifiers.passages ++ (m.type.passages ++ m.declarators.flatMap Declarator.passages))

def Param.passages (p : Param μ ε) : List (Passage μ ε) :=
  p.qualifiers.passages ++ (p.type.passages ++ (p.name.toList.map Name.passage ++ sizes p.dims))

def Variables.passages (v : Variables μ ε) : List (Passage μ ε) :=
  v.qualifiers.passages ++ (v.type.passages ++ v.declarators.flatMap Declarator.passages)

def Signature.passages (s : Signature μ ε) : List (Passage μ ε) :=
  s.qualifiers.passages ++ (s.result.passages ++ s.name.passage :: s.params.flatMap Param.passages)

def ForInit.passages : ForInit μ ε → List (Passage μ ε)
  | .none => []
  | .vars x v => [.span x v.passages]
  | .expression x e => [.span x [.expr e]]

/-! ## Nodes -/

mutual

/-- What stands inside a node. The body of a function is a span of its own. -/
def Node.parts : Node μ ε → List (Passage μ ε)
  | .struct _ q name ms ds =>
    q.passages ++ (name.toList.map Name.passage ++
      (ms.map Member.passage ++ ds.flatMap Declarator.passages))
  | .interface _ q name ms ds =>
    q.passages ++ name.passage :: (ms.map Member.passage ++ ds.flatMap Declarator.passages)
  | .vars _ v => v.passages
  | .prototype _ s => s.passages
  | .function _ s y body => s.passages ++ [.span y (Node.passagesAll body)]
  | .precision _ _ t => t.passages
  | .qualifiers _ q names => q.passages ++ names.map Name.passage
  | .expression _ e => [.expr e]
  | .empty _ => []
  | .block _ body => Node.passagesAll body
  | .ifThen _ c yes => [.expr c, .span yes.extent (Node.parts yes)]
  | .ifElse _ c yes no =>
    [.expr c, .span yes.extent (Node.parts yes), .span no.extent (Node.parts no)]
  | .switch _ e cases => .expr e :: Case.passagesAll cases
  | .forLoop _ init c u body =>
    init.passages ++ (optional c ++ (optional u ++ [.span body.extent (Node.parts body)]))
  | .whileLoop _ c body => [.expr c, .span body.extent (Node.parts body)]
  | .doWhile _ body c => [.span body.extent (Node.parts body), .expr c]
  | .break _ => []
  | .continue _ => []
  | .return _ value => optional value
  | .discard _ => []

def Node.passagesAll : List (Node μ ε) → List (Passage μ ε)
  | [] => []
  | n :: more => .span n.extent (Node.parts n) :: Node.passagesAll more

/-- A label with what follows it. -/
def Case.parts : Case μ ε → List (Passage μ ε)
  | .mk _ label body => optional label ++ Node.passagesAll body

def Case.passagesAll : List (Case μ ε) → List (Passage μ ε)
  | [] => []
  | c :: more => .span c.extent (Case.parts c) :: Case.passagesAll more

end

def Node.passage (n : Node μ ε) : Passage μ ε :=
  .span n.extent n.parts

def Case.passage (c : Case μ ε) : Passage μ ε :=
  .span c.extent c.parts

theorem Node.passagesAll_eq (ns : List (Node μ ε)) : passagesAll ns = ns.map passage := by
  induction ns with
  | nil => rfl
  | cons n ns ih => rw [passagesAll, ih, List.map_cons, passage]

theorem Case.passagesAll_eq (cs : List (Case μ ε)) : passagesAll cs = cs.map passage := by
  induction cs with
  | nil => rfl
  | cons c cs ih => rw [passagesAll, ih, List.map_cons, passage]

end Parts

/-! ## Modules -/

namespace Module

variable {μ ε α : Type}

/-- What is met when the finished items of a module are read. -/
def passages (m : Module μ ε) : List (Passage μ ε) :=
  m.items.map Node.passage

/-- The atoms of a module in order. -/
def atoms (m : Module μ (Expr α)) : List Atom :=
  Passage.atomsAll m.passages

/-- All extents of a module, each with the extents directly inside it. -/
def families (m : Module μ (Expr (Extent μ))) : List (Extent μ × List (Extent μ)) :=
  Passage.familiesAll m.passages

end Module

/-! ## Slots are met in order -/

section Slots

open Passage

variable {μ ε : Type}

@[simp] theorem Name.exprs_passage (n : Name μ) : (n.passage : Passage μ ε).exprs = [] := rfl

@[simp] theorem exprsAll_map_name (names : List (Name μ)) :
    exprsAll (names.map Name.passage : List (Passage μ ε)) = [] := by
  induction names with
  | nil => rfl
  | cons n names ih => simp [ih]

@[simp] theorem exprsAll_sizes (dims : List (Option ε)) :
    exprsAll (sizes dims : List (Passage μ ε)) = dims.filterMap id :=
  exprsAll_map_expr _

@[simp] theorem exprsAll_assigned (e : Option ε) :
    exprsAll (assigned e : List (Passage μ ε)) = e.toList := by
  cases e <;> rfl

@[simp] theorem exprsAll_optional (e : Option ε) :
    exprsAll (optional e : List (Passage μ ε)) = e.toList :=
  exprsAll_map_expr _

theorem exprsAll_flatMap {γ : Type} {f : γ → List (Passage μ ε)} {g : γ → List ε}
    (h : ∀ x, exprsAll (f x) = g x) (xs : List γ) : exprsAll (xs.flatMap f) = xs.flatMap g := by
  induction xs with
  | nil => rfl
  | cons x xs ih => simp [h, ih]

theorem LayoutParam.exprsAll_passages (p : LayoutParam μ ε) : exprsAll p.passages = p.roots := by
  unfold passages roots
  split <;> simp

@[simp] theorem Qualifiers.exprsAll_passages (q : Qualifiers μ ε) : exprsAll q.passages = q.roots :=
  exprsAll_flatMap LayoutParam.exprsAll_passages q.layout

@[simp] theorem TypeSpec.exprsAll_passages (t : TypeSpec μ ε) : exprsAll t.passages = t.roots := by
  simp [passages, roots]

theorem Declarator.exprsAll_passages (d : Declarator μ ε) : exprsAll d.passages = d.roots := by
  simp [passages, roots]

@[simp] theorem Declarator.exprsAll_flatMap_passages (ds : List (Declarator μ ε)) :
    exprsAll (ds.flatMap passages) = ds.flatMap roots :=
  exprsAll_flatMap exprsAll_passages ds

theorem Member.exprs_passage (m : Member μ ε) : m.passage.exprs = m.roots := by
  simp [passage, roots]

@[simp] theorem Member.exprsAll_map_passage (ms : List (Member μ ε)) :
    exprsAll (ms.map passage) = ms.flatMap roots := by
  induction ms with
  | nil => rfl
  | cons m ms ih => simp [ih, exprs_passage]

theorem Param.exprsAll_passages (p : Param μ ε) : exprsAll p.passages = p.roots := by
  simp [passages, roots]

@[simp] theorem Variables.exprsAll_passages (v : Variables μ ε) :
    exprsAll v.passages = v.roots := by
  simp [passages, roots]

@[simp] theorem Signature.exprsAll_passages (s : Signature μ ε) :
    exprsAll s.passages = s.roots := by
  simp [passages, roots, exprsAll_flatMap Param.exprsAll_passages]

@[simp] theorem ForInit.exprsAll_passages (i : ForInit μ ε) : exprsAll i.passages = i.slots := by
  cases i <;> simp [passages, slots]

mutual

/-- The expressions in a node are its slots. -/
theorem Node.exprsAll_parts (n : Node μ ε) : exprsAll n.parts = n.slots := by
  match n with
  | .struct x q name ms ds => simp [Node.parts, Node.slots, Node.roots]
  | .interface x q name ms ds => simp [Node.parts, Node.slots, Node.roots]
  | .vars x v => simp [Node.parts, Node.slots, Node.roots]
  | .prototype x s => simp [Node.parts, Node.slots, Node.roots]
  | .function x s y body => simp [Node.parts, Node.slots, Node.exprsAll_passagesAll body]
  | .precision x word t => simp [Node.parts, Node.slots, Node.roots]
  | .qualifiers x q names => simp [Node.parts, Node.slots, Node.roots]
  | .expression x e => rfl
  | .empty x => rfl
  | .block x body => exact Node.exprsAll_passagesAll body
  | .ifThen x c yes => simp [Node.parts, Node.slots, Node.exprsAll_parts yes]
  | .ifElse x c yes no =>
    simp [Node.parts, Node.slots, Node.exprsAll_parts yes, Node.exprsAll_parts no]
  | .switch x e cases => simp [Node.parts, Node.slots, Case.exprsAll_passagesAll cases]
  | .forLoop x init c u body => simp [Node.parts, Node.slots, Node.exprsAll_parts body]
  | .whileLoop x c body => simp [Node.parts, Node.slots, Node.exprsAll_parts body]
  | .doWhile x body c => simp [Node.parts, Node.slots, Node.exprsAll_parts body]
  | .break x => rfl
  | .continue x => rfl
  | .return x value => simp [Node.parts, Node.slots, Node.roots]
  | .discard x => rfl

theorem Node.exprsAll_passagesAll (ns : List (Node μ ε)) :
    exprsAll (Node.passagesAll ns) = Node.slotsAll ns := by
  match ns with
  | [] => rfl
  | n :: more =>
    simp [Node.passagesAll, Node.slotsAll, Node.exprsAll_parts n, Node.exprsAll_passagesAll more]

theorem Case.exprsAll_parts (c : Case μ ε) : exprsAll c.parts = c.slots := by
  match c with
  | .mk x label body => simp [Case.parts, Case.slots, Node.exprsAll_passagesAll body]

theorem Case.exprsAll_passagesAll (cs : List (Case μ ε)) :
    exprsAll (Case.passagesAll cs) = Case.slotsAll cs := by
  match cs with
  | [] => rfl
  | c :: more =>
    simp [Case.passagesAll, Case.slotsAll, Case.exprsAll_parts c, Case.exprsAll_passagesAll more]

end

end Slots

end ShaderRepair

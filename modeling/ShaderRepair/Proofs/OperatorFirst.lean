import ShaderRepair.Outline
import ShaderRepair.Proofs.Dispatch
import ShaderRepair.Proofs.Legible
import ShaderRepair.Proofs.Sexp

/-!
# Operator-first notation

The text of an expression can be read back. The word that a list begins with says what the list is,
unless the last of two words is an operator: an operator stands for no operand, so it trails the
one before it. A name is no operator, whatever it is. This file contains:
- `Expr.sexp`, the symbolic expression that is written, and `Expr.write_sexp`;
- `Sexp.expr`, which reads a symbolic expression, and `Expr.expr_sexp`, which says that it finds the
  expression again;
- `Document.parse_unambiguous`, for the expressions of parsed modules.
-/

namespace ShaderRepair

open Text (ascii)

/-! ## Writing -/

namespace Expr

variable {α β : Type}

mutual

/-- An expression as a symbolic expression. -/
def sexp : Expr α → Sexp
  | .sequence _ items => .list .paren (.word (ascii ",") :: sexpAll items)
  | .initializers _ items => .list .brace (sexpAll items)
  | .conditional _ c y n => .list .paren [.word (ascii "?"), sexp c, sexp y, sexp n]
  | .binary _ _ op l r => .list .paren [.word op, sexp l, sexp r]
  | .unary _ op .before e => .list .paren [.word op, sexp e]
  | .unary _ op .after e => .list .paren [sexp e, .word op]
  | .call _ callee args => .list .paren (.word (ascii "call") :: sexp callee :: sexpAll args)
  | .member _ e name => .list .paren [.word (ascii "."), sexp e, .word name]
  | .index _ e i => .list .paren [.word (ascii "[]"), sexp e, sexp i]
  | .unsized _ e => .list .paren [.word (ascii "[]"), sexp e]
  | .identifier _ name => .word name
  | .literal _ _ text => .word text

def sexpAll : List (Expr α) → List Sexp
  | [] => []
  | e :: more => sexp e :: sexpAll more

end

mutual

/-- The text of an expression is that of its symbolic expression. -/
theorem write_sexp (e : Expr α) (tail : Text) : e.sexp.write tail = e.write tail := by
  match e with
  | .sequence _ items =>
    rw [write, ← writeAll_sexpAll items]
    rfl
  | .initializers _ items =>
    rw [write, ← writeWords_sexpAll items]
    rfl
  | .conditional _ c y n =>
    rw [write, ← write_sexp c, ← write_sexp y, ← write_sexp n]
    rfl
  | .binary _ _ op l r =>
    rw [write, ← write_sexp l, ← write_sexp r]
    rfl
  | .unary _ op .before e =>
    rw [write, ← write_sexp e]
    rfl
  | .unary _ op .after e =>
    rw [write, ← write_sexp e]
    rfl
  | .call _ callee args =>
    rw [write, ← write_sexp callee, ← writeAll_sexpAll args]
    rfl
  | .member _ e name =>
    rw [write, ← write_sexp e]
    rfl
  | .index _ e i =>
    rw [write, ← write_sexp e, ← write_sexp i]
    rfl
  | .unsized _ e =>
    rw [write, ← write_sexp e]
    rfl
  | .identifier _ name => rfl
  | .literal _ kind text => rfl

theorem writeAll_sexpAll (es : List (Expr α)) (tail : Text) :
    Sexp.writeAll (sexpAll es) tail = writeAll es tail := by
  match es with
  | [] => rfl
  | e :: more =>
    rw [writeAll, ← writeAll_sexpAll more, ← write_sexp e]
    rfl

theorem writeWords_sexpAll (es : List (Expr α)) (tail : Text) :
    Sexp.writeWords (sexpAll es) tail = writeWords es tail := by
  match es with
  | [] => rfl
  | e :: more =>
    rw [writeWords, ← writeAll_sexpAll more, ← write_sexp e]
    rfl

end

mutual

/-- Annotations are not written. -/
theorem sexp_map (f : α → β) (e : Expr α) : (e.map f).sexp = e.sexp := by
  match e with
  | .sequence _ items => simp only [map, sexp, sexpAll_map f items]
  | .initializers _ items => simp only [map, sexp, sexpAll_map f items]
  | .conditional _ c y n => simp only [map, sexp, sexp_map f c, sexp_map f y, sexp_map f n]
  | .binary _ _ op l r => simp only [map, sexp, sexp_map f l, sexp_map f r]
  | .unary _ op .before e => simp only [map, sexp, sexp_map f e]
  | .unary _ op .after e => simp only [map, sexp, sexp_map f e]
  | .call _ callee args => simp only [map, sexp, sexp_map f callee, sexpAll_map f args]
  | .member _ e name => simp only [map, sexp, sexp_map f e]
  | .index _ e i => simp only [map, sexp, sexp_map f e, sexp_map f i]
  | .unsized _ e => simp only [map, sexp, sexp_map f e]
  | .identifier _ name => rfl
  | .literal _ kind text => rfl

theorem sexpAll_map (f : α → β) (es : List (Expr α)) : sexpAll (mapAll f es) = sexpAll es := by
  match es with
  | [] => rfl
  | e :: more => simp only [mapAll, sexpAll, sexp_map f e, sexpAll_map f more]

end

/-- Only the shape of an expression is written. -/
theorem format_bare (e : Expr α) : e.bare.format = e.format := by
  rw [format, format, ← write_sexp, ← write_sexp, bare, sexp_map]

end Expr

/-! ## Words -/

/-- Names, literals and operators can be told from what surrounds them. -/
theorem Symbol.Spelled.isWord {s : Symbol} (h : s.Spelled) (hk : s.kind.isPunctuation = false) :
    Sexp.IsWord s.lexeme := by
  have hmarks : ∀ b ∈ ascii " ()\x7b\x7d",
      Reach.isNumberByte b = false ∧ Reach.isOperatorByte b = false := by
    decide +kernel
  refine ⟨h.lexeme, fun b hb => ?_⟩
  by_contra hmark
  have hmem : b ∈ ascii " ()\x7b\x7d" := by simpa [Sexp.isMark] using hmark
  have hbyte := h.bytes hk b hb
  rw [(hmarks b hmem).1, (hmarks b hmem).2] at hbyte
  exact hbyte.elim nofun nofun

/-- So can the words that stand for a form of expressions. -/
theorem Sexp.isWord_heads :
    ∀ w ∈ [ascii ",", ascii "?", ascii "call", ascii ".", ascii "[]"], IsWord w := by
  have hheads : ∀ w ∈ [ascii ",", ascii "?", ascii "call", ascii ".", ascii "[]"],
      w ≠ [] ∧ ∀ b ∈ w, isMark b = false := by
    decide +kernel
  exact fun w hw => ⟨(hheads w hw).1, (hheads w hw).2⟩

namespace Expr.Legible

variable {α : Type} {e : Expr α}

theorem isWord_of_atom (h : e.Legible) {a : Atom} (ha : a ∈ e.atoms) :
    Sexp.IsWord a.symbol.lexeme := by
  refine (h.words a ha).isWord ?_
  cases a <;> rfl

theorem areTidy_sexpAll {es : List (Expr α)} (h : ∀ e ∈ es, e.sexp.IsTidy) :
    Sexp.AreTidy (sexpAll es) := by
  induction es with
  | nil => trivial
  | cons e es ih =>
    rw [List.forall_mem_cons] at h
    exact ⟨h.1, ih h.2⟩

/-- A legible expression is written with such words only. -/
theorem isTidy_sexp (h : e.Legible) : e.sexp.IsTidy := by
  induction e using operandInduction with
  | step e ih =>
    have hoperands : ∀ c ∈ e.children, c.sexp.IsTidy := fun c hc => ih c hc (h.child hc)
    have htidy := areTidy_sexpAll hoperands
    cases e with
    | sequence X items => exact ⟨Sexp.isWord_heads _ (by simp), htidy⟩
    | initializers X items => exact htidy
    | conditional X c y n => exact ⟨Sexp.isWord_heads _ (by simp), htidy⟩
    | binary X family op l r =>
      exact ⟨h.isWord_of_atom (a := .operator op) (by simp [atoms]), htidy⟩
    | unary X op side e =>
      have hop : Sexp.IsWord op := by
        refine h.isWord_of_atom (a := .operator op) ?_
        cases side <;> simp [atoms]
      cases side with
      | before => exact ⟨hop, htidy⟩
      | after => exact ⟨htidy.1, hop, trivial⟩
    | call X callee args => exact ⟨Sexp.isWord_heads _ (by simp), htidy⟩
    | member X e name =>
      exact ⟨Sexp.isWord_heads _ (by simp), htidy.1,
        h.isWord_of_atom (a := .identifier name) (by simp [atoms]), trivial⟩
    | index X e i => exact ⟨Sexp.isWord_heads _ (by simp), htidy⟩
    | unsized X e => exact ⟨Sexp.isWord_heads _ (by simp), htidy⟩
    | identifier X name => exact h.isWord_of_atom (a := .identifier name) (by simp [atoms])
    | literal X kind text => exact h.isWord_of_atom (a := .literal kind text) (by simp [atoms])

end Expr.Legible

/-! ## Reading -/

namespace Sexp

/-- The kind of a word on its own. -/
def kind (w : Text) : Kind :=
  (Lexer.first w).1

/-- What a word is read as. What stands for no expression is passed on as a name, to the list that
the word is in. -/
def leaf (w : Text) : Expr Unit :=
  if kind w = .literal then .literal () (Lexer.first w).2.2.literal w else .identifier () w

/-- What a word of some kind makes of the expressions behind it. -/
def headed (head : Text) : Kind → List (Expr Unit) → Expr Unit
  | .operator, [e] => .unary () head .before e
  | .operator, [l, r] => .binary () ((Family.ofOperator head).getD .assignment) head l r
  | .operator, [c, y, n] => .conditional () c y n
  | .identifier, callee :: args => .call () callee args
  | .dot, [e, .identifier _ name] => .member () e name
  | .leftBracket, [e, i] => .index () e i
  | .leftBracket, [e] => .unsized () e
  | _, es => .sequence () es

/-- Two expressions of which the last one is a word that is an operator. -/
def trailing? : List (Expr Unit) → Option (Expr Unit × Text)
  | [e, .identifier _ op] => if kind op = .operator then some (e, op) else none
  | _ => none

/-- What a list in parentheses stands for, whose items have been read. -/
def combine (es : List (Expr Unit)) : Expr Unit :=
  match trailing? es, es with
  | some (e, op), _ => .unary () op .after e
  | none, .identifier _ head :: more => headed head (kind head) more
  | none, es => .sequence () es

mutual

/-- Reads a symbolic expression. -/
def expr : Sexp → Expr Unit
  | .word w => leaf w
  | .list .paren items => combine (exprs items)
  | .list .brace items => .initializers () (exprs items)

def exprs : List Sexp → List (Expr Unit)
  | [] => []
  | x :: more => expr x :: exprs more

end

/-! ### Words -/

theorem leaf_of_ne {w : Text} (h : kind w ≠ .literal) : leaf w = .identifier () w :=
  if_neg h

theorem kind_of_spelled {s : Symbol} (h : s.Spelled) : kind s.lexeme = s.kind :=
  congrArg Prod.fst h.first

theorem leaf_literal {k : LiteralKind} {w : Text} (h : (Symbol.literal k w).Spelled) :
    leaf w = .literal () k w := by
  have hfirst : Lexer.first w = (.literal, w, ⟨Roles.none, k, .none⟩) := h.first
  rw [leaf, if_pos (by rw [kind, hfirst]), hfirst]

/-! ### Lists -/

theorem trailing?_three (x y z : Expr Unit) (more : List (Expr Unit)) :
    trailing? (x :: y :: z :: more) = none := by
  cases y <;> rfl

theorem expr_headed {head : Text} {k : Kind} {items : List Sexp} (hk : kind head = k)
    (hne : k ≠ .literal) (h : trailing? (.identifier () head :: exprs items) = none) :
    expr (.list .paren (.word head :: items)) = headed head k (exprs items) := by
  subst hk
  rw [expr, exprs, expr, leaf_of_ne hne]
  unfold combine
  rw [h]

theorem expr_trailing {op : Text} (h : kind op = .operator) (x : Sexp) :
    expr (.list .paren [x, .word op]) = .unary () op .after x.expr := by
  have htrailing : trailing? [x.expr, .identifier () op] = some (x.expr, op) := if_pos h
  rw [expr]
  simp only [exprs, expr]
  rw [leaf_of_ne (by rw [h]; decide)]
  unfold combine
  rw [htrailing]

/-- The words that stand for a form of expressions. -/
theorem kind_heads : kind (ascii ",") = .comma ∧ kind (ascii "?") = .operator ∧
    kind (ascii "call") = .identifier ∧ kind (ascii ".") = .dot ∧
    kind (ascii "[]") = .leftBracket := by
  decide +kernel

end Sexp

namespace Expr

open Sexp

variable {α β : Type} {e : Expr α} {es : List (Expr α)}

theorem exprs_sexpAll (h : ∀ e ∈ es, e.sexp.expr = e.bare) :
    exprs (sexpAll es) = es.map bare := by
  induction es with
  | nil => rfl
  | cons e es ih =>
    rw [List.forall_mem_cons] at h
    rw [sexpAll, exprs, h.1, ih h.2, List.map_cons]

theorem Legible.kind_of_atom (h : e.Legible) {a : Atom} (ha : a ∈ e.atoms) :
    kind a.symbol.lexeme = a.symbol.kind :=
  kind_of_spelled (h.words a ha)

/-- No operand is an operator. -/
theorem trailing?_legible (x : Expr Unit) (h : ∀ e ∈ es, e.Legible) :
    trailing? (x :: es.map bare) = none := by
  match es with
  | [] => rfl
  | e :: e' :: more => exact trailing?_three _ _ _ _
  | [e] =>
    cases e with
    | identifier X name =>
      have hkind : kind name = .identifier :=
        (h _ List.mem_cons_self).kind_of_atom (a := .identifier name) List.mem_cons_self
      simp [trailing?, hkind]
    | _ => rfl

/-- A word with operands behind it. -/
theorem expr_operands {head : Text} {k : Kind} (hk : kind head = k) (hne : k ≠ .literal)
    (hlegible : ∀ e ∈ es, e.Legible) (hread : ∀ e ∈ es, e.sexp.expr = e.bare) :
    expr (.list .paren (.word head :: sexpAll es)) = headed head k (es.map bare) := by
  have hes := exprs_sexpAll hread
  rw [expr_headed hk hne (hes ▸ trailing?_legible _ hlegible), hes]

/-- A legible expression is read back. -/
theorem expr_sexp (h : e.Legible) : e.sexp.expr = e.bare := by
  obtain ⟨hcomma, hsign, hcall, hdot, hbracket⟩ := kind_heads
  induction e using operandInduction with
  | step e ih =>
    have hlegible : ∀ c ∈ e.children, c.Legible := fun c hc => h.child hc
    have hread : ∀ c ∈ e.children, c.sexp.expr = c.bare := fun c hc => ih c hc (h.child hc)
    -- Most expressions are lists with a head of their own, whose kind tells what is meant. Only
    -- members, trailing operators, lists in braces and single words are read otherwise.
    cases e with
    | sequence X items =>
      rw [bare_sequence]
      exact expr_operands hcomma (by decide) hlegible hread
    | initializers X items =>
      rw [bare_initializers]
      exact congrArg (initializers ()) (exprs_sexpAll hread)
    | conditional X c y n => exact expr_operands hsign (by decide) hlegible hread
    | binary X family op l r =>
      have hkind : kind op = .operator := h.kind_of_atom (a := .operator op) (by simp [atoms])
      have hfamily : Family.ofOperator op = some family := h.classed _ (mem_postorder_self _)
      refine (expr_operands hkind (by decide) hlegible hread).trans ?_
      simp [headed, children, hfamily]
    | unary X op side e =>
      have hkind : kind op = .operator := by
        refine h.kind_of_atom (a := .operator op) ?_
        cases side <;> simp [atoms]
      cases side with
      | before => exact expr_operands hkind (by decide) hlegible hread
      | after =>
        rw [bare_unary, ← hread e List.mem_cons_self]
        exact expr_trailing hkind e.sexp
    | call X callee args =>
      rw [bare_call]
      exact expr_operands hcall (by decide) hlegible hread
    | member X e name =>
      have hkind : kind name = .identifier :=
        h.kind_of_atom (a := .identifier name) (by simp [atoms])
      have hleaf : leaf name = .identifier () name := leaf_of_ne (by rw [hkind]; decide)
      refine (expr_headed hdot (by decide) (trailing?_three _ _ _ _)).trans ?_
      simp only [exprs, expr, hleaf, hread e List.mem_cons_self]
      rfl
    | index X e i => exact expr_operands hbracket (by decide) hlegible hread
    | unsized X e => exact expr_operands hbracket (by decide) hlegible hread
    | identifier X name =>
      have hkind : kind name = .identifier :=
        h.kind_of_atom (a := .identifier name) (by simp [atoms])
      exact leaf_of_ne (by rw [hkind]; decide)
    | literal X k text => exact leaf_literal (h.words (.literal k text) (by simp [atoms]))

/-- Legible expressions have the same text if and only if they have the same shape. -/
theorem format_eq_iff {e' : Expr β} (h : e.Legible) (h' : e'.Legible) :
    e.format = e'.format ↔ e.bare = e'.bare := by
  constructor
  · intro hformat
    rw [format, format, ← write_sexp, ← write_sexp] at hformat
    rw [← expr_sexp h, write_nil_injective h.isTidy_sexp h'.isTidy_sexp hformat, expr_sexp h']
  · intro hbare
    rw [← format_bare e, hbare, format_bare e']

end Expr

/-! ## Parsed modules -/

namespace Document

variable {source source' : Text} {o o' : Options} {report report' : Report}

/-- The text of an expression says all about it: two expressions of parsed modules, whether of one
source or of two, have the same text if and only if they are the same but for where they stand. -/
theorem parse_unambiguous (h : parse source o = .ok report) (h' : parse source' o' = .ok report')
    {e e' : Expr (Extent Token)} (he : e ∈ report.module.arena) (he' : e' ∈ report'.module.arena) :
    e.format = e'.format ↔ e.bare = e'.bare :=
  Expr.format_eq_iff (parse_legible h e he) (parse_legible h' e' he')

/-- The name `call` is called and has an operator behind it, the name `_` is like the text of what
is absent, and a number begins like a member. The second source has parentheses, comments and line
breaks. -/
theorem parse_unambiguous_call :
    ∃ (report report' : Report) (e e' : Expr (Extent Token)),
      parse (ascii "call++, call(_), .5 ? -_ : (x, y)[1].call;") Options.all = .ok report ∧
      parse (ascii "(call) /**/ ++, call(\n_\n), .5?-_:\n((x),y)[1]\n.call") Options.all =
        .ok report' ∧
      e ∈ report.module.arena ∧ e' ∈ report'.module.arena ∧
      e.format = ascii "(, (call ++) (call call _) (? .5 (- _) (. ([] (, x y) 1) call)))" ∧
      e'.format = e.format ∧ (e.format = e'.format ↔ e.bare = e'.bare) := by
  have htext : (parse (ascii "call++, call(_), .5 ? -_ : (x, y)[1].call;")
      Options.all).toOption.map (fun report => report.module.arena.getLast?.map Expr.format) =
        some (some
          (ascii "(, (call ++) (call call _) (? .5 (- _) (. ([] (, x y) 1) call)))")) := by
    rw [parse, Lexer.lex_eq_scan]
    decide +kernel
  have htext' : (parse (ascii "(call) /**/ ++, call(\n_\n), .5?-_:\n((x),y)[1]\n.call")
      Options.all).toOption.map (fun report => report.module.arena.getLast?.map Expr.format) =
        some (some
          (ascii "(, (call ++) (call call _) (? .5 (- _) (. ([] (, x y) 1) call)))")) := by
    rw [parse, Lexer.lex_eq_scan]
    decide +kernel
  obtain ⟨report, h, hlast⟩ := exists_ok_of_map htext
  obtain ⟨report', h', hlast'⟩ := exists_ok_of_map htext'
  obtain ⟨e, he, hformat⟩ := Option.map_eq_some_iff.1 hlast
  obtain ⟨e', he', hformat'⟩ := Option.map_eq_some_iff.1 hlast'
  have hmem : e ∈ report.module.arena := List.mem_of_getLast? he
  have hmem' : e' ∈ report'.module.arena := List.mem_of_getLast? he'
  exact ⟨report, report', e, e', h, h', hmem, hmem', hformat, hformat'.trans hformat.symm,
    parse_unambiguous h h' hmem hmem'⟩

end Document

end ShaderRepair

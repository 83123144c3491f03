import ShaderRepair.Proofs.Printing
import ShaderRepair.Tree.Qualified

/-!
# Printing declarations and statements

Items are printed as symbols with all their punctuation. This file contains:
- the symbols of every part of a declaration, and `Node.symbols`, the symbols of an item;
- `Node.isWellFormed`, which asks that an item can be told apart from others: an else belongs to
  the last if that has none, a semicolon of its own is only a body, and there is one qualifier of
  each class;
- what the symbols look like: they are spelled, and they begin in one of a few ways.
-/

namespace ShaderRepair

open Text (ascii)

/-! ## Punctuation -/

namespace Symbol

/-- Lists of symbols with commas between them. -/
def commas : List (List Symbol) → List Symbol
  | [] => []
  | w :: more => w ++ more.flatMap fun v => mark .comma :: v

def parens (w : List Symbol) : List Symbol :=
  mark .leftParen :: (w ++ [mark .rightParen])

def brackets (w : List Symbol) : List Symbol :=
  mark .leftBracket :: (w ++ [mark .rightBracket])

def braces (w : List Symbol) : List Symbol :=
  mark .leftBrace :: (w ++ [mark .rightBrace])

/-- The name of a layout parameter. One of the qualifiers can be a name too. -/
def layoutWord (w : Text) : Symbol :=
  if w = ascii "shared" then qualifier w .storage else name w

theorem commas_cons (u v : List Symbol) (more : List (List Symbol)) :
    commas (u :: v :: more) = u ++ mark .comma :: commas (v :: more) := rfl

theorem parens_append (w rest : List Symbol) :
    parens w ++ rest = mark .leftParen :: (w ++ mark .rightParen :: rest) := by
  simp [parens]

theorem brackets_append (w rest : List Symbol) :
    brackets w ++ rest = mark .leftBracket :: (w ++ mark .rightBracket :: rest) := by
  simp [brackets]

theorem braces_append (w rest : List Symbol) :
    braces w ++ rest = mark .leftBrace :: (w ++ mark .rightBrace :: rest) := by
  simp [braces]

end Symbol

open ShaderRepair.Symbol

/-! ## Parts of declarations -/

section Parts

variable {μ α : Type}

/-- Array dimensions. -/
def Expr.dims (ds : List (Option (Expr α))) : List Symbol :=
  ds.flatMap fun d => brackets (d.elim [] words)

/-- A value behind an equals sign, if there is one. -/
def Expr.assigned : Option (Expr α) → List Symbol
  | none => []
  | some e => operator (ascii "=") :: e.wordsAt .assignment

def LayoutParam.symbols (p : LayoutParam μ (Expr α)) : List Symbol :=
  layoutWord p.name.text :: Expr.assigned p.value

def Qualifier.symbol (q : Qualifier μ) : Symbol :=
  qualifier q.name.text q.kind

/-- One layout, if there are parameters, and then the keywords. -/
def Qualifiers.symbols (q : Qualifiers μ (Expr α)) : List Symbol :=
  (if q.layout.isEmpty then [] else
    mark .layout :: parens (commas (q.layout.map LayoutParam.symbols))) ++
    q.words.map Qualifier.symbol

def TypeSpec.symbols (t : TypeSpec μ (Expr α)) : List Symbol :=
  Symbol.name t.name.text :: Expr.dims t.dims

/-- What follows the name of a declarator. -/
def Declarator.rest (d : Declarator μ (Expr α)) : List Symbol :=
  Expr.dims d.dims ++ Expr.assigned d.init

def Declarator.symbols (d : Declarator μ (Expr α)) : List Symbol :=
  Symbol.name d.name.text :: d.rest

def Member.symbols (m : Member μ (Expr α)) : List Symbol :=
  m.qualifiers.symbols ++ (m.type.symbols ++
    (commas (m.declarators.map Declarator.symbols) ++ [mark .semicolon]))

def Param.symbols (p : Param μ (Expr α)) : List Symbol :=
  p.qualifiers.symbols ++ (p.type.symbols ++
    match p.name with
    | none => []
    | some n => Symbol.name n.text :: Expr.dims p.dims)

def Variables.symbols (v : Variables μ (Expr α)) : List Symbol :=
  v.qualifiers.symbols ++ (v.type.symbols ++ commas (v.declarators.map Declarator.symbols))

def Signature.symbols (s : Signature μ (Expr α)) : List Symbol :=
  s.qualifiers.symbols ++ (s.result.symbols ++
    Symbol.name s.name.text :: parens (commas (s.params.map Param.symbols)))

/-- Without the semicolon. -/
def ForInit.symbols : ForInit μ (Expr α) → List Symbol
  | .none => []
  | .vars _ v => v.symbols
  | .expression _ e => e.words

/-- Members in braces and the instances behind them. -/
def Member.listing (ms : List (Member μ (Expr α))) (ds : List (Declarator μ (Expr α))) :
    List Symbol :=
  braces (ms.flatMap Member.symbols) ++
    (commas (ds.map Declarator.symbols) ++ [mark .semicolon])

end Parts

/-! ## Items -/

section Items

variable {μ α : Type}

mutual

/-- The symbols of an item. -/
def Node.symbols : Node μ (Expr α) → List Symbol
  | .struct _ q n ms ds =>
    q.symbols ++ mark .struct ::
      (n.toList.map (fun n => Symbol.name n.text) ++ Member.listing ms ds)
  | .interface _ q n ms ds => q.symbols ++ Symbol.name n.text :: Member.listing ms ds
  | .vars _ v => v.symbols ++ [mark .semicolon]
  | .prototype _ s => s.symbols ++ [mark .semicolon]
  | .function _ s _ body => s.symbols ++ braces (Node.symbolsAll body)
  | .precision _ word t =>
    mark .precision :: qualifier word.text .precision :: (t.symbols ++ [mark .semicolon])
  | .qualifiers _ q ns =>
    q.symbols ++ (commas (ns.map fun n => [Symbol.name n.text]) ++ [mark .semicolon])
  | .expression _ e => e.words ++ [mark .semicolon]
  | .empty _ => [mark .semicolon]
  | .block _ body => braces (Node.symbolsAll body)
  | .ifThen _ c yes => mark .if :: (parens c.words ++ Node.symbols yes)
  | .ifElse _ c yes no =>
    mark .if :: (parens c.words ++ (Node.symbols yes ++ mark .else :: Node.symbols no))
  | .switch _ e cases => mark .switch :: (parens e.words ++ braces (Case.symbolsAll cases))
  | .forLoop _ init c u body =>
    mark .for :: (parens (init.symbols ++ mark .semicolon ::
      (c.elim [] Expr.words ++ mark .semicolon :: u.elim [] Expr.words)) ++ Node.symbols body)
  | .whileLoop _ c body => mark .while :: (parens c.words ++ Node.symbols body)
  | .doWhile _ body c =>
    mark .do :: (Node.symbols body ++ mark .while :: (parens c.words ++ [mark .semicolon]))
  | .break _ => [mark .break, mark .semicolon]
  | .continue _ => [mark .continue, mark .semicolon]
  | .return _ value => mark .return :: (value.elim [] Expr.words ++ [mark .semicolon])
  | .discard _ => [mark .discard, mark .semicolon]

def Node.symbolsAll : List (Node μ (Expr α)) → List Symbol
  | [] => []
  | n :: more => Node.symbols n ++ Node.symbolsAll more

def Case.symbols : Case μ (Expr α) → List Symbol
  | .mk _ none body => mark .default :: mark .colon :: Node.symbolsAll body
  | .mk _ (some e) body => mark .case :: (e.words ++ mark .colon :: Node.symbolsAll body)

def Case.symbolsAll : List (Case μ (Expr α)) → List Symbol
  | [] => []
  | c :: more => Case.symbols c ++ Case.symbolsAll more

end

end Items

/-! ## Well-formed parts -/

section Parts

variable {μ α : Type}

mutual

/-- Initializer lists may stand for expressions, and in other initializer lists. -/
def Expr.isInitializer : Expr α → Bool
  | .initializers _ items => Expr.areInitializers items
  | e => e.isWellFormed

def Expr.areInitializers : List (Expr α) → Bool
  | [] => true
  | e :: more => Expr.isInitializer e && Expr.areInitializers more

end

def Expr.areDims (ds : List (Option (Expr α))) : Bool :=
  ds.all fun d => d.all isWellFormed

def Name.isWellFormed (n : Name μ) : Bool :=
  (Symbol.name n.text).Spelled

def LayoutParam.isWellFormed (p : LayoutParam μ (Expr α)) : Bool :=
  (layoutWord p.name.text).Spelled && p.value.all Expr.isWellFormed

/-- Every keyword is one of its class, and there are no two of one class. -/
def Qualifiers.isWellFormed (q : Qualifiers μ (Expr α)) : Bool :=
  q.layout.all LayoutParam.isWellFormed && q.words.all (fun w => w.symbol.Spelled) &&
    (q.words.map Qualifier.kind).Nodup

def TypeSpec.isWellFormed (t : TypeSpec μ (Expr α)) : Bool :=
  t.name.isWellFormed && Expr.areDims t.dims

def Declarator.isWellFormed (d : Declarator μ (Expr α)) : Bool :=
  d.name.isWellFormed && Expr.areDims d.dims && d.init.all Expr.isInitializer

/-- Members and instances have no initializers. -/
def Declarator.isPlain (d : Declarator μ (Expr α)) : Bool :=
  d.isWellFormed && d.init.isNone

def Member.isWellFormed (m : Member μ (Expr α)) : Bool :=
  m.qualifiers.isWellFormed && m.type.isWellFormed && !m.declarators.isEmpty &&
    m.declarators.all Declarator.isPlain

/-- Without a name there are no dimensions but those of the type. -/
def Param.isWellFormed (p : Param μ (Expr α)) : Bool :=
  p.qualifiers.isWellFormed && p.type.isWellFormed &&
    match p.name with
    | none => p.dims.isEmpty
    | some n => n.isWellFormed && Expr.areDims p.dims

def Variables.isWellFormed (v : Variables μ (Expr α)) : Bool :=
  v.qualifiers.isWellFormed && v.type.isWellFormed && !v.declarators.isEmpty &&
    v.declarators.all Declarator.isWellFormed

def Signature.isWellFormed (s : Signature μ (Expr α)) : Bool :=
  s.qualifiers.isWellFormed && s.result.isWellFormed && s.name.isWellFormed &&
    s.params.all Param.isWellFormed

/-- A loop variable has no layout. -/
def ForInit.isWellFormed : ForInit μ (Expr α) → Bool
  | .none => true
  | .vars _ v => v.qualifiers.layout.isEmpty && v.isWellFormed
  | .expression _ e => e.isWellFormed

end Parts

/-! ## Well-formed items -/

section Items

variable {μ α : Type}

namespace Node

def isEmpty : Node μ (Expr α) → Bool
  | .empty _ => true
  | _ => false

def isStatement : Node μ (Expr α) → Bool
  | .struct .. | .interface .. | .vars .. | .prototype .. | .function .. | .precision ..
  | .qualifiers .. => false
  | _ => true

/-- An else that followed would become a part of the item. -/
def endsOpen : Node μ (Expr α) → Bool
  | .ifThen _ _ _ => true
  | .ifElse _ _ _ no => no.endsOpen
  | .forLoop _ _ _ _ body => body.endsOpen
  | .whileLoop _ _ body => body.endsOpen
  | _ => false

end Node

mutual

/-- The parts are well-formed, bodies are statements, and what stands before an else does not end
open. A semicolon of its own counts here, but not among items. -/
def Node.isWellFormed : Node μ (Expr α) → Bool
  | .struct _ q n ms ds =>
    q.isWellFormed && n.all Name.isWellFormed && ms.all Member.isWellFormed &&
      ds.all Declarator.isPlain
  | .interface _ q n ms ds =>
    !q.isEmpty && q.isWellFormed && n.isWellFormed && ms.all Member.isWellFormed &&
      ds.all Declarator.isPlain
  | .vars _ v => v.isWellFormed
  | .prototype _ s => s.isWellFormed
  | .function _ s _ body => s.isWellFormed && Node.areItems body
  | .precision _ word t => (qualifier word.text .precision).Spelled && t.isWellFormed
  | .qualifiers _ q ns => !q.isEmpty && q.isWellFormed && ns.all Name.isWellFormed
  | .expression _ e => e.isWellFormed
  | .empty _ => true
  | .block _ body => Node.areItems body
  | .ifThen _ c yes => c.isWellFormed && yes.isStatement && Node.isWellFormed yes
  | .ifElse _ c yes no =>
    c.isWellFormed && yes.isStatement && !yes.endsOpen && Node.isWellFormed yes &&
      no.isStatement && Node.isWellFormed no
  | .switch _ e cases => e.isWellFormed && Case.areWellFormed cases
  | .forLoop _ init c u body =>
    init.isWellFormed && c.all Expr.isWellFormed && u.all Expr.isWellFormed &&
      body.isStatement && Node.isWellFormed body
  | .whileLoop _ c body => c.isWellFormed && body.isStatement && Node.isWellFormed body
  | .doWhile _ body c => c.isWellFormed && body.isStatement && Node.isWellFormed body
  | .break _ => true
  | .continue _ => true
  | .return _ value => value.all Expr.isWellFormed
  | .discard _ => true

def Node.areItems : List (Node μ (Expr α)) → Bool
  | [] => true
  | n :: more => !n.isEmpty && Node.isWellFormed n && Node.areItems more

def Case.isWellFormed : Case μ (Expr α) → Bool
  | .mk _ label body => label.all Expr.isWellFormed && Node.areItems body

def Case.areWellFormed : List (Case μ (Expr α)) → Bool
  | [] => true
  | c :: more => Case.isWellFormed c && Case.areWellFormed more

end

end Items

/-! ## Spelled symbols -/

/-- All symbols are spelled. -/
def AllSpelled (w : List Symbol) : Prop :=
  ∀ s ∈ w, s.Spelled

section Spelled

variable {μ α : Type} {u v w : List Symbol}

attribute [simp] Symbol.mark_spelled

@[simp] theorem allSpelled_nil : AllSpelled [] := by
  simp [AllSpelled]

@[simp] theorem allSpelled_cons {x : Symbol} : AllSpelled (x :: w) ↔ x.Spelled ∧ AllSpelled w :=
  List.forall_mem_cons

@[simp] theorem allSpelled_append : AllSpelled (u ++ v) ↔ AllSpelled u ∧ AllSpelled v :=
  List.forall_mem_append

@[simp] theorem allSpelled_parens : AllSpelled (parens w) ↔ AllSpelled w := by
  simp (disch := decide) [parens]

@[simp] theorem allSpelled_brackets : AllSpelled (brackets w) ↔ AllSpelled w := by
  simp (disch := decide) [brackets]

@[simp] theorem allSpelled_braces : AllSpelled (braces w) ↔ AllSpelled w := by
  simp (disch := decide) [braces]

@[simp] theorem allSpelled_flatMap {β : Type} {f : β → List Symbol} {bs : List β} :
    AllSpelled (bs.flatMap f) ↔ ∀ b ∈ bs, AllSpelled (f b) := by
  simp only [AllSpelled, List.mem_flatMap, forall_exists_index, and_imp]
  exact ⟨fun h b hb s hs => h s b hb hs, fun h s b hb hs => h b hb s hs⟩

@[simp] theorem allSpelled_commas {ws : List (List Symbol)} :
    AllSpelled (commas ws) ↔ ∀ w ∈ ws, AllSpelled w := by
  cases ws with
  | nil => simp [commas]
  | cons w more => simp (disch := decide) [commas]

namespace Expr

theorem allSpelled {e : Expr α} (h : e.isWellFormed = true) : AllSpelled e.words :=
  (phrase_words e h).spelled

theorem allSpelled_at {e : Expr α} (h : e.isWellFormed = true) (t : Tier) :
    AllSpelled (e.wordsAt t) :=
  (phrase_enclose (phrase_words e h)).spelled

/-- An initializer list needs no parentheses. -/
theorem wordsAt_initializers (a : α) (items : List (Expr α)) (t : Tier) :
    (initializers a items).wordsAt t = braces (wordsAll items) :=
  Tier.enclose_of_le t.rank_le _

mutual

theorem allSpelled_initializer (e : Expr α) (h : e.isInitializer = true) :
    AllSpelled (e.wordsAt .assignment) := by
  match e, h with
  | .initializers a items, h =>
    rw [wordsAt_initializers, allSpelled_braces]
    exact allSpelled_initializers items h
  -- What is no list is an expression like any other.
  | .sequence .., h | .conditional .., h | .binary .., h | .unary .., h | .call .., h
  | .member .., h | .index .., h | .unsized .., h | .identifier .., h | .literal .., h =>
    exact allSpelled_at h _

theorem allSpelled_initializers (es : List (Expr α)) (h : areInitializers es = true) :
    AllSpelled (wordsAll es) := by
  match es, h with
  | [], _ => exact allSpelled_nil
  | [e], h =>
    simp only [areInitializers, Bool.and_true] at h
    exact allSpelled_initializer e h
  | e :: e' :: more, h =>
    rw [areInitializers, Bool.and_eq_true] at h
    have hmore := allSpelled_initializers (e' :: more) h.2
    exact allSpelled_append.2 ⟨allSpelled_initializer e h.1,
      allSpelled_cons.2 ⟨mark_spelled _ (by decide), hmore⟩⟩

end

theorem allSpelled_option {o : Option (Expr α)} (h : o.all isWellFormed = true) :
    AllSpelled (o.elim [] words) := by
  cases o with
  | none => exact allSpelled_nil
  | some e => exact allSpelled h

theorem allSpelled_dims {ds : List (Option (Expr α))} (h : areDims ds = true) :
    AllSpelled (dims ds) := by
  simp only [dims, allSpelled_flatMap, allSpelled_brackets]
  exact fun d hd => allSpelled_option (List.all_eq_true.1 h d hd)

theorem allSpelled_assigned {value : Option (Expr α)}
    (h : ∀ e ∈ value, AllSpelled (e.wordsAt .assignment)) : AllSpelled (assigned value) := by
  cases value with
  | none => exact allSpelled_nil
  | some e => exact allSpelled_cons.2 ⟨operator_spelled (r := .assignment) rfl, h e rfl⟩

end Expr

theorem LayoutParam.allSpelled {p : LayoutParam μ (Expr α)} (h : p.isWellFormed = true) :
    AllSpelled p.symbols := by
  simp only [isWellFormed, Bool.and_eq_true, decide_eq_true_eq, Option.all_eq_true] at h
  exact allSpelled_cons.2
    ⟨h.1, Expr.allSpelled_assigned fun e he => Expr.allSpelled_at (h.2 e he) _⟩

theorem Qualifiers.allSpelled {q : Qualifiers μ (Expr α)} (h : q.isWellFormed = true) :
    AllSpelled q.symbols := by
  simp only [isWellFormed, Bool.and_eq_true, List.all_eq_true, decide_eq_true_eq] at h
  refine allSpelled_append.2 ⟨?_, ?_⟩
  · split
    · exact allSpelled_nil
    · simp (disch := decide) only [allSpelled_cons, mark_spelled, true_and, allSpelled_parens,
        allSpelled_commas, List.forall_mem_map]
      exact fun p hp => LayoutParam.allSpelled (h.1.1 p hp)
  · exact List.forall_mem_map.2 h.1.2

theorem TypeSpec.allSpelled {t : TypeSpec μ (Expr α)} (h : t.isWellFormed = true) :
    AllSpelled t.symbols := by
  simp only [isWellFormed, Name.isWellFormed, Bool.and_eq_true, decide_eq_true_eq] at h
  exact allSpelled_cons.2 ⟨h.1, Expr.allSpelled_dims h.2⟩

theorem Declarator.allSpelled {d : Declarator μ (Expr α)} (h : d.isWellFormed = true) :
    AllSpelled d.symbols := by
  simp only [isWellFormed, Name.isWellFormed, Bool.and_eq_true, decide_eq_true_eq,
    Option.all_eq_true] at h
  refine allSpelled_cons.2 ⟨h.1.1, allSpelled_append.2 ⟨Expr.allSpelled_dims h.1.2, ?_⟩⟩
  exact Expr.allSpelled_assigned fun e he => Expr.allSpelled_initializer e (h.2 e he)

theorem Declarator.allSpelled_of_isPlain {d : Declarator μ (Expr α)} (h : d.isPlain = true) :
    AllSpelled d.symbols := by
  rw [isPlain, Bool.and_eq_true] at h
  exact allSpelled h.1

theorem Member.allSpelled {m : Member μ (Expr α)} (h : m.isWellFormed = true) :
    AllSpelled m.symbols := by
  simp only [isWellFormed, Bool.and_eq_true, List.all_eq_true] at h
  simp (disch := decide) only [symbols, allSpelled_append, allSpelled_cons, allSpelled_nil,
    mark_spelled, and_true, allSpelled_commas, List.forall_mem_map]
  exact ⟨Qualifiers.allSpelled h.1.1.1, TypeSpec.allSpelled h.1.1.2,
    fun d hd => Declarator.allSpelled_of_isPlain (h.2 d hd)⟩

theorem Member.allSpelled_listing {ms : List (Member μ (Expr α))}
    {ds : List (Declarator μ (Expr α))} (hms : ∀ m ∈ ms, m.isWellFormed = true)
    (hds : ∀ d ∈ ds, d.isPlain = true) : AllSpelled (Member.listing ms ds) := by
  simp (disch := decide) only [listing, allSpelled_append, allSpelled_cons, allSpelled_nil,
    mark_spelled, and_true, allSpelled_braces, allSpelled_flatMap, allSpelled_commas,
    List.forall_mem_map]
  exact ⟨fun m hm => Member.allSpelled (hms m hm),
    fun d hd => Declarator.allSpelled_of_isPlain (hds d hd)⟩

theorem Param.allSpelled {p : Param μ (Expr α)} (h : p.isWellFormed = true) :
    AllSpelled p.symbols := by
  simp only [isWellFormed, Bool.and_eq_true] at h
  obtain ⟨⟨hquals, htype⟩, hname⟩ := h
  refine allSpelled_append.2 ⟨Qualifiers.allSpelled hquals,
    allSpelled_append.2 ⟨TypeSpec.allSpelled htype, ?_⟩⟩
  split at hname
  · exact allSpelled_nil
  · simp only [Name.isWellFormed, Bool.and_eq_true, decide_eq_true_eq] at hname
    exact allSpelled_cons.2 ⟨hname.1, Expr.allSpelled_dims hname.2⟩

theorem Variables.allSpelled {v : Variables μ (Expr α)} (h : v.isWellFormed = true) :
    AllSpelled v.symbols := by
  simp only [isWellFormed, Bool.and_eq_true, List.all_eq_true] at h
  simp only [symbols, allSpelled_append, allSpelled_commas, List.forall_mem_map]
  exact ⟨Qualifiers.allSpelled h.1.1.1, TypeSpec.allSpelled h.1.1.2,
    fun d hd => Declarator.allSpelled (h.2 d hd)⟩

theorem Signature.allSpelled {s : Signature μ (Expr α)} (h : s.isWellFormed = true) :
    AllSpelled s.symbols := by
  simp only [isWellFormed, Name.isWellFormed, Bool.and_eq_true, List.all_eq_true,
    decide_eq_true_eq] at h
  simp only [symbols, allSpelled_append, allSpelled_cons, allSpelled_parens, allSpelled_commas,
    List.forall_mem_map]
  exact ⟨Qualifiers.allSpelled h.1.1.1, TypeSpec.allSpelled h.1.1.2, h.1.2,
    fun p hp => Param.allSpelled (h.2 p hp)⟩

theorem ForInit.allSpelled {i : ForInit μ (Expr α)} (h : i.isWellFormed = true) :
    AllSpelled i.symbols := by
  cases i with
  | none => exact allSpelled_nil
  | vars x v =>
    rw [isWellFormed, Bool.and_eq_true] at h
    exact Variables.allSpelled h.2
  | expression x e => exact Expr.allSpelled h

mutual

/-- The symbols of a well-formed item are spelled. -/
theorem Node.allSpelled (n : Node μ (Expr α)) (h : n.isWellFormed = true) :
    AllSpelled n.symbols := by
  cases n
  -- The marks are spelled anyway, so that only the parts are left.
  all_goals
    simp only [Node.isWellFormed, Bool.and_eq_true, decide_eq_true_eq, List.all_eq_true,
      Name.isWellFormed] at h
    simp (disch := decide) only [Node.symbols, allSpelled_append, allSpelled_cons, allSpelled_nil,
      mark_spelled, true_and, and_true, allSpelled_parens, allSpelled_braces, allSpelled_commas,
      List.forall_mem_map]
  case struct q name ms ds =>
    refine ⟨Qualifiers.allSpelled h.1.1.1, ?_, Member.allSpelled_listing h.1.2 h.2⟩
    cases name with
    | none => exact allSpelled_nil
    | some name => simpa [Name.isWellFormed] using h.1.1.2
  case interface q name ms ds =>
    exact ⟨Qualifiers.allSpelled h.1.1.1.2, h.1.1.2, Member.allSpelled_listing h.1.2 h.2⟩
  case vars v => exact Variables.allSpelled h
  case prototype s => exact Signature.allSpelled h
  case function s _ body => exact ⟨Signature.allSpelled h.1, Node.allSpelled_all body h.2⟩
  case precision word t => exact ⟨h.1, TypeSpec.allSpelled h.2⟩
  case qualifiers q names => exact ⟨Qualifiers.allSpelled h.1.2, h.2⟩
  case expression e => exact Expr.allSpelled h
  case block body => exact Node.allSpelled_all body h
  case ifThen c yes => exact ⟨Expr.allSpelled h.1.1, Node.allSpelled yes h.2⟩
  case ifElse c yes no =>
    exact ⟨Expr.allSpelled h.1.1.1.1.1, Node.allSpelled yes h.1.1.2, Node.allSpelled no h.2⟩
  case switch e cases => exact ⟨Expr.allSpelled h.1, Case.allSpelled_all cases h.2⟩
  case forLoop init c u body =>
    exact ⟨⟨ForInit.allSpelled h.1.1.1.1, Expr.allSpelled_option h.1.1.1.2,
      Expr.allSpelled_option h.1.1.2⟩, Node.allSpelled body h.2⟩
  case whileLoop c body => exact ⟨Expr.allSpelled h.1.1, Node.allSpelled body h.2⟩
  case doWhile body c => exact ⟨Node.allSpelled body h.2, Expr.allSpelled h.1.1⟩
  case «return» value => exact Expr.allSpelled_option h

theorem Node.allSpelled_all (ns : List (Node μ (Expr α))) (h : Node.areItems ns = true) :
    AllSpelled (Node.symbolsAll ns) := by
  match ns, h with
  | [], _ => exact allSpelled_nil
  | n :: more, h =>
    simp only [Node.areItems, Bool.and_eq_true] at h
    exact allSpelled_append.2 ⟨Node.allSpelled n h.1.2, Node.allSpelled_all more h.2⟩

theorem Case.allSpelled_all (cs : List (Case μ (Expr α))) (h : Case.areWellFormed cs = true) :
    AllSpelled (Case.symbolsAll cs) := by
  match cs, h with
  | [], _ => exact allSpelled_nil
  | .mk _ none body :: more, h =>
    simp only [Case.areWellFormed, Case.isWellFormed, Bool.and_eq_true] at h
    simp (disch := decide) only [Case.symbolsAll, Case.symbols, allSpelled_append, allSpelled_cons,
      mark_spelled, true_and]
    exact ⟨Node.allSpelled_all body h.1.2, Case.allSpelled_all more h.2⟩
  | .mk _ (some e) body :: more, h =>
    simp only [Case.areWellFormed, Case.isWellFormed, Bool.and_eq_true] at h
    simp (disch := decide) only [Case.symbolsAll, Case.symbols, allSpelled_append, allSpelled_cons,
      mark_spelled, true_and]
    exact ⟨⟨Expr.allSpelled h.1.1, Node.allSpelled_all body h.1.2⟩, Case.allSpelled_all more h.2⟩

end

end Spelled

/-! ## First symbols -/

section Starts

variable {μ α : Type}

/-- The kinds that typed declarations begin with. -/
def typedKinds : List Kind :=
  [.layout, .qualifier, .identifier]

/-- The kinds that items begin with. -/
def itemKinds : List Kind :=
  [.precision, .struct, .leftBrace, .if, .switch, .for, .while, .do, .break, .continue, .return,
    .discard] ++ typedKinds ++ expressionKinds

namespace Qualifiers

theorem eq_of_isEmpty {q : Qualifiers μ (Expr α)} (h : q.isEmpty = true) : q = ⟨[], []⟩ := by
  simp only [isEmpty, Bool.and_eq_true, List.isEmpty_iff] at h
  exact congrArg₂ Qualifiers.mk h.1 h.2

theorem starts {q : Qualifiers μ (Expr α)} (h : q.isEmpty = false) :
    Starts [.layout, .qualifier] q.symbols := by
  obtain ⟨layout, words⟩ := q
  cases layout with
  | cons p layout => exact (Starts.cons (by simp) _).append _
  | nil =>
    cases words with
    | cons w words => exact .cons (by simp [Qualifier.symbol]) _
    | nil => cases h

theorem starts_append (q : Qualifiers μ (Expr α)) {kinds : List Kind} {w : List Symbol}
    (hkinds : [.layout, .qualifier] ⊆ kinds) (hw : Starts kinds w) :
    Starts kinds (q.symbols ++ w) := by
  cases h : q.isEmpty with
  | true =>
    rw [eq_of_isEmpty h]
    exact hw
  | false => exact ((starts h).mono hkinds).append w

end Qualifiers

theorem Declarator.starts {ds : List (Declarator μ (Expr α))} (h : ds ≠ []) :
    Starts [.identifier] (commas (ds.map symbols)) := by
  cases ds with
  | nil => exact absurd rfl h
  | cons d ds => exact (Starts.cons (by simp) d.rest).append _

/-- Qualifiers with a type behind them. -/
theorem TypeSpec.starts (q : Qualifiers μ (Expr α)) (t : TypeSpec μ (Expr α)) (w : List Symbol) :
    Starts typedKinds (q.symbols ++ (t.symbols ++ w)) :=
  q.starts_append (by decide) (.cons (by simp [typedKinds]) _)

theorem Node.starts {n : Node μ (Expr α)} (h : n.isWellFormed = true) (hne : n.isEmpty = false) :
    Starts itemKinds n.symbols := by
  have htyped : typedKinds ⊆ itemKinds := by decide
  cases n
  case struct q name ms ds => exact q.starts_append (by decide) (.cons (by decide) _)
  case interface q name ms ds =>
    exact q.starts_append (by decide) (.cons (by simp [itemKinds, typedKinds]) _)
  case vars v => exact ((TypeSpec.starts _ _ _).mono htyped).append _
  case prototype s => exact ((TypeSpec.starts _ _ _).mono htyped).append _
  case function s _ body => exact ((TypeSpec.starts _ _ _).mono htyped).append _
  case qualifiers q names =>
    simp only [Node.isWellFormed, Bool.and_eq_true, Bool.not_eq_true'] at h
    exact ((Qualifiers.starts h.1.1).mono (by decide)).append _
  case expression e => exact ((Expr.phrase_words e h).starts.mono (by decide)).append _
  case empty => cases hne
  all_goals exact .cons (by decide) _

end Starts

end ShaderRepair

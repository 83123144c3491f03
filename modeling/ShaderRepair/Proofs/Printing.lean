import Mathlib.Data.List.Chain
import ShaderRepair.Proofs.Reading

/-!
# Printing expressions

An expression is printed as symbols, with parentheses only where the grammar would otherwise group
the symbols in another way. This file contains:
- `Tier`, how tightly an expression binds, from sequences to operands;
- `Expr.words`, the symbols of an expression;
- `Expr.isWellFormed`, which asks for names, literals and operators that are there in the language;
- what the symbols look like: they are spelled, they begin like an expression, and they never look
  like a declaration.
-/

namespace ShaderRepair

open Text (ascii)

/-! ## Operators -/

namespace Level

def all : List Level :=
  [.logicalOr, .logicalXor, .logicalAnd, .bitOr, .bitXor, .bitAnd, .equality, .relational, .shift,
    .additive, .multiplicative]

theorem mem_all (level : Level) : level ∈ all := by
  cases level <;> decide

/-- The level of a binary operator. Assignments are no level. -/
def ofOperator (op : Text) : Option Level :=
  all.find? fun level => (Symbol.operator op).plays level.role

theorem plays_of_ofOperator {op : Text} {level : Level} (h : ofOperator op = some level) :
    (Symbol.operator op).plays level.role = true := by
  have hplays := List.find?_some h
  exact hplays

end Level

/-- The role of a unary operator that stands on a side of its operand. -/
def Side.role : Side → Role
  | .before => .unary
  | .after => .trailing

/-- The family that a binary operator or an assignment belongs to. -/
def Family.ofOperator (op : Text) : Option Family :=
  match Level.ofOperator op with
  | some level => some level.family
  | none => if (Symbol.operator op).plays .assignment then some .assignment else none

/-! ## Tiers -/

/-- How tightly an expression binds, loosest first. Conditionals group like assignments. -/
inductive Tier where
  | sequence
  | assignment
  | operation (level : Level)
  | unary
  | operand
  deriving DecidableEq, Repr

namespace Tier

def rank : Tier → Nat
  | .sequence => 0
  | .assignment => 1
  | .operation level => level.rank + 2
  | .unary => 13
  | .operand => 14

/-- The tier of the right operand of a level, whose operators group to the left. -/
def behind (level : Level) : Tier :=
  match level.tighter with
  | some tighter => .operation tighter
  | none => .unary

/-- The next tighter tier. -/
def tighter : Tier → Option Tier
  | .sequence => some .assignment
  | .assignment => some (.operation .logicalOr)
  | .operation level => some (behind level)
  | .unary => some .operand
  | .operand => none

/-- Symbols of one tier where another one is asked for: in parentheses, unless they bind tightly
enough. -/
def enclose (asked given : Tier) (w : List Symbol) : List Symbol :=
  if asked.rank ≤ given.rank then w
  else Symbol.mark .leftParen :: (w ++ [Symbol.mark .rightParen])

theorem rank_behind (level : Level) : (behind level).rank = level.rank + 3 := by
  cases level <;> rfl

theorem rank_of_tighter {t u : Tier} (h : t.tighter = some u) : u.rank = t.rank + 1 := by
  cases t with
  | operation level =>
    cases h
    exact rank_behind level
  | operand => cases h
  | _ =>
    cases h
    rfl

theorem rank_le (t : Tier) : t.rank ≤ 14 := by
  cases t with
  | operation level => cases level <;> decide
  | _ => decide

theorem rank_injective {t u : Tier} (h : t.rank = u.rank) : t = u := by
  have hlevel : ∀ level : Level, level.rank ≤ 10 := by
    intro level
    cases level <;> decide
  cases t with
  | operation l =>
    cases u with
    | operation l' => exact congrArg _ (Level.rank_injective (Nat.add_right_cancel h))
    | _ =>
      have hl := hlevel l
      simp only [rank] at h
      omega
  | _ =>
    cases u with
    | operation l =>
      have hl := hlevel l
      simp only [rank] at h
      omega
    | _ => first
      | rfl
      | exact absurd h (by decide)

theorem enclose_of_le {asked given : Tier} (h : asked.rank ≤ given.rank) (w : List Symbol) :
    asked.enclose given w = w :=
  if_pos h

theorem enclose_of_lt {asked given : Tier} (h : given.rank < asked.rank) (w : List Symbol) :
    asked.enclose given w = Symbol.mark .leftParen :: (w ++ [Symbol.mark .rightParen]) :=
  if_neg (Nat.not_le.2 h)

end Tier

/-! ## Printing -/

namespace Expr

variable {α : Type}

def tier : Expr α → Tier
  | .sequence _ _ => .sequence
  | .conditional _ _ _ _ => .assignment
  | .binary _ _ op _ _ =>
    match Level.ofOperator op with
    | some level => .operation level
    | none => .assignment
  | .unary _ _ .before _ => .unary
  | _ => .operand

mutual

/-- The symbols of an expression. -/
def words : Expr α → List Symbol
  | .sequence _ items => wordsAll items
  | .initializers _ items => Symbol.mark .leftBrace :: (wordsAll items ++ [Symbol.mark .rightBrace])
  | .conditional _ c y n =>
    Tier.enclose (.operation .logicalOr) c.tier (words c) ++ Symbol.operator (ascii "?") ::
      (words y ++ Symbol.mark .colon :: Tier.enclose .assignment n.tier (words n))
  | .binary _ _ op l r =>
    match Level.ofOperator op with
    | some level =>
      Tier.enclose (.operation level) l.tier (words l) ++
        Symbol.operator op :: Tier.enclose (.behind level) r.tier (words r)
    | none =>
      Tier.enclose (.operation .logicalOr) l.tier (words l) ++
        Symbol.operator op :: Tier.enclose .assignment r.tier (words r)
  | .unary _ op .before e => Symbol.operator op :: Tier.enclose .unary e.tier (words e)
  | .unary _ op .after e => Tier.enclose .operand e.tier (words e) ++ [Symbol.operator op]
  | .call _ callee args =>
    Tier.enclose .operand callee.tier (words callee) ++
      Symbol.mark .leftParen :: (wordsAll args ++ [Symbol.mark .rightParen])
  | .member _ e name =>
    Tier.enclose .operand e.tier (words e) ++ [Symbol.mark .dot, Symbol.name name]
  | .index _ e i =>
    Tier.enclose .operand e.tier (words e) ++
      Symbol.mark .leftBracket :: (words i ++ [Symbol.mark .rightBracket])
  | .unsized _ e =>
    Tier.enclose .operand e.tier (words e) ++
      [Symbol.mark .leftBracket, Symbol.mark .rightBracket]
  | .identifier _ name => [Symbol.name name]
  | .literal _ kind text => [Symbol.literal kind text]

/-- Expressions between commas. -/
def wordsAll : List (Expr α) → List Symbol
  | [] => []
  | [e] => Tier.enclose .assignment e.tier (words e)
  | e :: more => Tier.enclose .assignment e.tier (words e) ++ Symbol.mark .comma :: wordsAll more

end

/-- The symbols of an expression where a tier is asked for. -/
def wordsAt (t : Tier) (e : Expr α) : List Symbol :=
  t.enclose e.tier e.words

mutual

/-- Names and literals are spelled as such, operators belong to their place, a sequence has at least
two expressions, and there are no initializer lists. -/
def isWellFormed : Expr α → Bool
  | .sequence _ items => 2 ≤ items.length && areWellFormed items
  | .initializers _ _ => false
  | .conditional _ c y n => isWellFormed c && isWellFormed y && isWellFormed n
  | .binary _ family op l r =>
    Family.ofOperator op = some family && isWellFormed l && isWellFormed r
  | .unary _ op side e => (Symbol.operator op).plays side.role && isWellFormed e
  | .call _ callee args => isWellFormed callee && areWellFormed args
  | .member _ e name => isWellFormed e && (Symbol.name name).Spelled
  | .index _ e i => isWellFormed e && isWellFormed i
  | .unsized _ e => isWellFormed e
  | .identifier _ name => (Symbol.name name).Spelled
  | .literal _ kind text => (Symbol.literal kind text).Spelled

def areWellFormed : List (Expr α) → Bool
  | [] => true
  | e :: more => isWellFormed e && areWellFormed more

end

end Expr

/-! ## What is printed -/

theorem Expr.isWellFormed_of_mem {α : Type} {es : List (Expr α)}
    (h : Expr.areWellFormed es = true) : ∀ e ∈ es, e.isWellFormed = true := by
  induction es with
  | nil => simp
  | cons e more ih =>
    simp only [Expr.areWellFormed, Bool.and_eq_true] at h
    exact List.forall_mem_cons.2 ⟨h.1, ih h.2⟩

/-- How the symbols of expressions are put together. -/
inductive Phrase : List Symbol → Prop where
  | atom {x : Symbol} (hx : x.Spelled) (hk : x.kind = .identifier ∨ x.kind = .literal) : Phrase [x]
  | paren {w : List Symbol} :
      Phrase w → Phrase (Symbol.mark .leftParen :: (w ++ [Symbol.mark .rightParen]))
  | between {u v : List Symbol} {x : Symbol} (hx : x.Spelled)
      (hk : x.kind ∈ [.operator, .comma, .colon]) : Phrase u → Phrase v → Phrase (u ++ x :: v)
  | before {w : List Symbol} {x : Symbol} (hx : x.Spelled) (hplays : x.plays .unary = true) :
      Phrase w → Phrase (x :: w)
  | after {w : List Symbol} {x : Symbol} (hx : x.Spelled) (hplays : x.plays .trailing = true) :
      Phrase w → Phrase (w ++ [x])
  | empty {w : List Symbol} (k k' : Kind)
      (hk : (k, k') ∈ [(.leftParen, .rightParen), (.leftBracket, .rightBracket)]) :
      Phrase w → Phrase (w ++ [Symbol.mark k, Symbol.mark k'])
  | filled {u v : List Symbol} (k k' : Kind)
      (hk : (k, k') ∈ [(.leftParen, .rightParen), (.leftBracket, .rightBracket)]) :
      Phrase u → Phrase v → Phrase (u ++ Symbol.mark k :: (v ++ [Symbol.mark k']))
  | member {w : List Symbol} {x : Symbol} (hx : x.Spelled) (hk : x.kind = .identifier) :
      Phrase w → Phrase (w ++ [Symbol.mark .dot, x])

/-- What plays a role is in the table. -/
theorem Symbol.exists_operator {op : Text} {r : Role} (h : (operator op).plays r = true) :
    ∃ e ∈ Lexicon.operators, e.1 = op := by
  refine Reach.exists_operator ?_
  by_contra hnone
  rw [Bool.not_eq_true, Option.isSome_eq_false_iff, Option.isNone_iff_eq_none] at hnone
  have hnot : Roles.none.has r = false := by cases r <;> decide
  simp [plays, operator, hnone, hnot] at h

theorem Symbol.operator_spelled {op : Text} {r : Role} (h : (operator op).plays r = true) :
    (operator op).Spelled := by
  -- There are finitely many operators, and each one is lexed.
  have htable : ∀ e ∈ Lexicon.operators, (operator e.1).Spelled := by
    simp only [Symbol.spelled_iff]
    decide +kernel
  obtain ⟨e, he, rfl⟩ := exists_operator h
  exact htable e he

/-- The kinds whose lexeme is fixed. -/
def Symbol.marks : List Kind :=
  [.precision, .struct, .layout, .if, .else, .for, .while, .do, .break, .continue, .switch, .case,
    .default, .return, .discard, .colon, .semicolon, .comma, .dot, .leftParen, .rightParen,
    .leftBrace, .rightBrace, .leftBracket, .rightBracket]

theorem Symbol.mark_spelled : ∀ k ∈ marks, (mark k).Spelled := by
  simp only [Symbol.spelled_iff]
  decide +kernel

/-- The symbols begin with one of these kinds. -/
def Starts (kinds : List Kind) (w : List Symbol) : Prop :=
  ∃ x more, w = x :: more ∧ x.kind ∈ kinds

namespace Starts

variable {kinds kinds' : List Kind} {w : List Symbol}

theorem cons {x : Symbol} (hx : x.kind ∈ kinds) (w : List Symbol) : Starts kinds (x :: w) :=
  ⟨x, w, rfl, hx⟩

theorem append (h : Starts kinds w) (v : List Symbol) : Starts kinds (w ++ v) := by
  obtain ⟨x, more, rfl, hx⟩ := h
  exact ⟨x, more ++ v, rfl, hx⟩

theorem mono (h : Starts kinds w) (hkinds : kinds ⊆ kinds') : Starts kinds' w := by
  obtain ⟨x, more, rfl, hx⟩ := h
  exact ⟨x, more, rfl, hkinds hx⟩

theorem ne (h : Starts kinds w) {k : Kind} (hk : k ∉ kinds) :
    (w.headD Symbol.finish).kind ≠ k := by
  obtain ⟨x, more, rfl, hx⟩ := h
  rintro rfl
  exact hk hx

theorem head_ne (h : Starts kinds w) (rest : List Symbol) {k : Kind} (hk : k ∉ kinds) :
    ((w ++ rest).headD Symbol.finish).kind ≠ k :=
  (h.append rest).ne hk

end Starts

/-- The kinds that expressions begin with. -/
def expressionKinds : List Kind :=
  [.identifier, .literal, .leftParen, .operator]

theorem Symbol.kind_of_startsExpression {x : Symbol} (hx : x.startsExpression = true) :
    x.kind ∈ expressionKinds := by
  unfold startsExpression at hx
  split at hx
  · next h => simp [expressionKinds, h]
  · next h => simp [expressionKinds, h]
  · next h => simp [expressionKinds, h]
  · simp [expressionKinds, kind_of_plays hx]

/-- Inside brackets, the lookahead for declarations passes the symbols. -/
def Balanced (w : List Symbol) : Prop :=
  ∀ depth rest,
    Symbol.nameAfterDims (depth + 1) (w ++ rest) = Symbol.nameAfterDims (depth + 1) rest

namespace Balanced

theorem append {u v : List Symbol} (hu : Balanced u) (hv : Balanced v) : Balanced (u ++ v) := by
  intro depth rest
  rw [List.append_assoc, hu, hv]

theorem cons {x : Symbol} {w : List Symbol} (hx : Grammar.isPlain x.kind = true)
    (hw : Balanced w) : Balanced (x :: w) := by
  intro depth rest
  rw [List.cons_append, Grammar.nameAfterDims_plain hx, hw]

theorem nil : Balanced [] :=
  fun _ _ => rfl

theorem brackets {w : List Symbol} (hw : Balanced w) :
    Balanced (Symbol.mark .leftBracket :: (w ++ [Symbol.mark .rightBracket])) := by
  intro depth rest
  have hopen : ∀ more, Symbol.nameAfterDims (depth + 1) (Symbol.mark .leftBracket :: more) =
      Symbol.nameAfterDims (depth + 2) more := fun _ => rfl
  rw [List.cons_append, hopen, List.append_assoc, hw]
  rfl

end Balanced

/-- No name stands right behind another name or behind a bracket. -/
def Tidy (w : List Symbol) : Prop :=
  w.IsChain fun a b => a.kind = .identifier ∨ a.kind = .rightBracket → b.kind ≠ .identifier

namespace Tidy

theorem append {u v : List Symbol} (hu : Tidy u) (hv : Tidy v)
    (hhead : ∀ b ∈ v.head?, b.kind ≠ .identifier) : Tidy (u ++ v) :=
  List.isChain_append.2 ⟨hu, hv, fun _ _ b hb _ => hhead b hb⟩

theorem cons {x : Symbol} {w : List Symbol} (hx : x.kind ≠ .identifier)
    (hx' : x.kind ≠ .rightBracket) (hw : Tidy w) : Tidy (x :: w) :=
  List.isChain_cons.2 ⟨fun _ _ h => absurd h (not_or.2 ⟨hx, hx'⟩), hw⟩

theorem singleton (x : Symbol) : Tidy [x] :=
  List.IsChain.singleton x

/-- Up to the next semicolon, tidy symbols are no dimensions with a name behind them. -/
theorem nameAfterDims_eq_false {w : List Symbol} (h : Tidy w) (rest : List Symbol) (depth : Nat)
    (hhead : depth = 0 → ∀ x ∈ w.head?, x.kind ≠ .identifier) :
    Symbol.nameAfterDims depth (w ++ Symbol.mark .semicolon :: rest) = false := by
  induction w generalizing depth with
  | nil => cases depth <;> rfl
  | cons x w ih =>
    obtain ⟨hx, hw⟩ := List.isChain_cons.1 h
    cases depth with
    | zero =>
      -- Outside of brackets the next symbol decides, and it is no name.
      have hne := hhead rfl x rfl
      rw [List.cons_append, Symbol.nameAfterDims]
      split
      · exact ih hw 1 (by simp)
      · simpa using hne
    | succ depth =>
      -- Inside, only brackets count, and a name behind the last one would not be tidy.
      by_cases hplain : Grammar.isPlain x.kind = true
      · rw [List.cons_append, Grammar.nameAfterDims_plain hplain]
        exact ih hw (depth + 1) (by simp)
      · rw [List.cons_append, Symbol.nameAfterDims]
        split
        · exact ih hw (depth + 2) (by simp)
        · next hclose => exact ih hw depth fun _ y hy => hx y hy (.inr hclose)
        · rfl
        · rfl
        · rfl
        · exact ih hw (depth + 1) (by simp)

theorem startsDeclaration_eq_false {w : List Symbol} (h : Tidy w) (rest : List Symbol) :
    Symbol.startsDeclaration (w ++ Symbol.mark .semicolon :: rest) = false := by
  cases w with
  | nil => rfl
  | cons x w =>
    obtain ⟨hx, hw⟩ := List.isChain_cons.1 h
    rw [List.cons_append, Symbol.startsDeclaration]
    by_cases hname : x.kind = .identifier
    · rw [nameAfterDims_eq_false hw rest 0 fun _ y hy => hx y hy (.inl hname), Bool.and_false]
    · simp [hname]

end Tidy

namespace Phrase

variable {w : List Symbol}

theorem exists_head (h : Phrase w) : ∃ x more, w = x :: more ∧ x.startsExpression = true := by
  -- Whatever stands behind an operand leaves its first symbol as it is.
  have happend : ∀ {u : List Symbol} (v : List Symbol),
      (∃ x more, u = x :: more ∧ x.startsExpression = true) →
        ∃ x more, u ++ v = x :: more ∧ x.startsExpression = true := by
    rintro u v ⟨x, more, rfl, hx⟩
    exact ⟨x, more ++ v, rfl, hx⟩
  induction h with
  | atom hx hk =>
    refine ⟨_, [], rfl, ?_⟩
    rcases hk with hk | hk <;> simp [Symbol.startsExpression, hk]
  | paren h ih => exact ⟨_, _, rfl, rfl⟩
  | between hx hk hu hv ihu ihv => exact happend _ ihu
  | before hx hplays h ih =>
    rename_i w x
    refine ⟨x, w, rfl, ?_⟩
    simp [Symbol.startsExpression, Symbol.kind_of_plays hplays, hplays]
  | after hx hplays h ih => exact happend _ ih
  | empty k k' hk h ih => exact happend _ ih
  | filled k k' hk hu hv ihu ihv => exact happend _ ihu
  | member hx hk h ih => exact happend _ ih

theorem starts (h : Phrase w) : Starts expressionKinds w := by
  obtain ⟨x, more, rfl, hx⟩ := h.exists_head
  exact .cons (Symbol.kind_of_startsExpression hx) more

/-- Brackets and parentheses around something. -/
theorem spelled_of_brackets {k k' : Kind}
    (hk : (k, k') ∈ [(Kind.leftParen, Kind.rightParen), (.leftBracket, .rightBracket)]) :
    (Symbol.mark k).Spelled ∧ (Symbol.mark k').Spelled := by
  simp only [List.mem_cons, Prod.mk.injEq, List.not_mem_nil, or_false] at hk
  rcases hk with ⟨rfl, rfl⟩ | ⟨rfl, rfl⟩ <;>
    exact ⟨Symbol.mark_spelled _ (by decide), Symbol.mark_spelled _ (by decide)⟩

theorem spelled (h : Phrase w) : ∀ s ∈ w, s.Spelled := by
  have hmark : ∀ k ∈ [Kind.leftParen, .rightParen, .dot], (Symbol.mark k).Spelled := by
    intro k hk
    exact Symbol.mark_spelled k (by revert k; decide)
  induction h with
  | atom hx hk => simpa using hx
  | paren h ih => simpa [or_imp, forall_and, hmark] using ih
  | between hx hk hu hv ihu ihv =>
    simp only [List.mem_append, List.mem_cons, or_imp, forall_and, forall_eq]
    exact ⟨ihu, hx, ihv⟩
  | before hx hplays h ih => simpa [hx] using ih
  | after hx hplays h ih =>
    simp only [List.mem_append, List.mem_singleton, or_imp, forall_and, forall_eq]
    exact ⟨ih, hx⟩
  | empty k k' hk h ih =>
    simp only [List.mem_append, List.mem_cons, List.not_mem_nil, or_false, or_imp, forall_and,
      forall_eq]
    exact ⟨ih, spelled_of_brackets hk⟩
  | filled k k' hk hu hv ihu ihv =>
    simp only [List.mem_append, List.mem_cons, List.not_mem_nil, or_false, or_imp, forall_and,
      forall_eq]
    exact ⟨ihu, (spelled_of_brackets hk).1, ihv, (spelled_of_brackets hk).2⟩
  | member hx hk h ih =>
    simp only [List.mem_append, List.mem_cons, List.not_mem_nil, or_false, or_imp, forall_and,
      forall_eq]
    exact ⟨ih, hmark .dot (by decide), hx⟩

theorem balanced (h : Phrase w) : Balanced w := by
  have hplain : ∀ {x : Symbol} {ks : List Kind}, x.kind ∈ ks → ks.all Grammar.isPlain = true →
      Balanced [x] := by
    intro x ks hx hks
    exact .cons (List.all_eq_true.1 hks _ hx) .nil
  induction h with
  | atom hx hk =>
    refine .cons ?_ .nil
    rcases hk with hk | hk <;> rw [hk] <;> rfl
  | paren h ih => exact .cons rfl (ih.append (.cons rfl .nil))
  | between hx hk hu hv ihu ihv => exact ihu.append ((hplain hk rfl).append ihv)
  | before hx hplays h ih => exact .cons (Grammar.plain_of_plays hplays) ih
  | after hx hplays h ih => exact ih.append (.cons (Grammar.plain_of_plays hplays) .nil)
  | empty k k' hk h ih =>
    -- Parentheses are plain for the lookahead, which counts square brackets only.
    simp only [List.mem_cons, Prod.mk.injEq, List.not_mem_nil, or_false] at hk
    rcases hk with ⟨rfl, rfl⟩ | ⟨rfl, rfl⟩
    · exact ih.append (.cons rfl (.cons rfl .nil))
    · exact ih.append (.brackets .nil)
  | filled k k' hk hu hv ihu ihv =>
    simp only [List.mem_cons, Prod.mk.injEq, List.not_mem_nil, or_false] at hk
    rcases hk with ⟨rfl, rfl⟩ | ⟨rfl, rfl⟩
    · exact ihu.append (.cons rfl (ihv.append (.cons rfl .nil)))
    · exact ihu.append (.brackets ihv)
  | member hx hk h ih => exact ih.append (.cons rfl (.cons (by rw [hk]; rfl) .nil))

theorem tidy (h : Phrase w) : Tidy w := by
  -- Every form has an operator or a mark between two of its parts.
  induction h with
  | atom hx hk => exact .singleton _
  | paren h ih =>
    refine .cons (by decide) (by decide) (ih.append (.singleton _) ?_)
    simp
  | between hx hk hu hv ihu ihv =>
    have hne : ∀ k ∈ [Kind.operator, .comma, .colon], k ≠ .identifier ∧ k ≠ .rightBracket := by
      decide
    refine ihu.append (.cons (hne _ hk).1 (hne _ hk).2 ihv) ?_
    simpa using (hne _ hk).1
  | before hx hplays h ih =>
    have hkind := Symbol.kind_of_plays hplays
    exact .cons (by simp [hkind]) (by simp [hkind]) ih
  | after hx hplays h ih =>
    refine ih.append (.singleton _) ?_
    simp [Symbol.kind_of_plays hplays]
  | empty k k' hk h ih =>
    simp only [List.mem_cons, Prod.mk.injEq, List.not_mem_nil, or_false] at hk
    rcases hk with ⟨rfl, rfl⟩ | ⟨rfl, rfl⟩ <;>
      exact ih.append (.cons (by decide) (by decide) (.singleton _)) (by simp)
  | filled k k' hk hu hv ihu ihv =>
    simp only [List.mem_cons, Prod.mk.injEq, List.not_mem_nil, or_false] at hk
    rcases hk with ⟨rfl, rfl⟩ | ⟨rfl, rfl⟩ <;>
      exact ihu.append (.cons (by decide) (by decide) (ihv.append (.singleton _) (by simp)))
        (by simp)
  | member hx hk h ih =>
    exact ih.append (.cons (by decide) (by decide) (.singleton _)) (by simp)

end Phrase

namespace Expr

variable {α : Type}

/-- Where parentheses are needed they make a phrase of a phrase. -/
theorem phrase_enclose {asked given : Tier} {w : List Symbol} (h : Phrase w) :
    Phrase (asked.enclose given w) := by
  unfold Tier.enclose
  split
  · exact h
  · exact .paren h

/-- The operators of well-formed operations are there. -/
theorem exists_plays_of_family {op : Text} {family : Family}
    (h : Family.ofOperator op = some family) : ∃ r, (Symbol.operator op).plays r = true := by
  unfold Family.ofOperator at h
  split at h
  · next level hlevel => exact ⟨level.role, Level.plays_of_ofOperator hlevel⟩
  · split at h
    · next hplays => exact ⟨.assignment, hplays⟩
    · cases h

mutual

/-- A well-formed expression is printed as a phrase. -/
theorem phrase_words (e : Expr α) (h : e.isWellFormed = true) : Phrase e.words := by
  match e, h with
  | .sequence _ items, h =>
    simp only [isWellFormed, Bool.and_eq_true, decide_eq_true_eq] at h
    exact phrase_wordsAll items h.2 (List.ne_nil_of_length_pos (by omega))
  | .conditional _ c y n, h =>
    simp only [isWellFormed, Bool.and_eq_true] at h
    have hsign : (Symbol.operator (ascii "?")).Spelled :=
      Symbol.operator_spelled (r := .conditional) rfl
    exact .between hsign (by simp) (phrase_enclose (phrase_words c h.1.1))
      (.between (Symbol.mark_spelled _ (by decide)) (by simp) (phrase_words y h.1.2)
        (phrase_enclose (phrase_words n h.2)))
  | .binary _ family op l r, h =>
    simp only [isWellFormed, Bool.and_eq_true, decide_eq_true_eq] at h
    obtain ⟨role, hplays⟩ := exists_plays_of_family h.1.1
    have hop := Symbol.operator_spelled hplays
    have hl := phrase_words l h.1.2
    have hr := phrase_words r h.2
    rw [words]
    -- An assignment and an operation differ in the operands that get parentheses.
    split
    · exact .between hop (by simp) (phrase_enclose hl) (phrase_enclose hr)
    · exact .between hop (by simp) (phrase_enclose hl) (phrase_enclose hr)
  | .unary _ op .before e, h =>
    simp only [isWellFormed, Bool.and_eq_true] at h
    exact .before (Symbol.operator_spelled h.1) h.1 (phrase_enclose (phrase_words e h.2))
  | .unary _ op .after e, h =>
    simp only [isWellFormed, Bool.and_eq_true] at h
    exact .after (Symbol.operator_spelled h.1) h.1 (phrase_enclose (phrase_words e h.2))
  | .call _ callee [], h =>
    simp only [isWellFormed, Bool.and_eq_true] at h
    exact .empty .leftParen .rightParen (by decide) (phrase_enclose (phrase_words callee h.1))
  | .call _ callee (e :: more), h =>
    simp only [isWellFormed, Bool.and_eq_true] at h
    exact .filled .leftParen .rightParen (by decide) (phrase_enclose (phrase_words callee h.1))
      (phrase_wordsAll (e :: more) h.2 (List.cons_ne_nil _ _))
  | .member _ e name, h =>
    simp only [isWellFormed, Bool.and_eq_true, decide_eq_true_eq] at h
    exact .member h.2 rfl (phrase_enclose (phrase_words e h.1))
  | .index _ e i, h =>
    simp only [isWellFormed, Bool.and_eq_true] at h
    exact .filled .leftBracket .rightBracket (by decide) (phrase_enclose (phrase_words e h.1))
      (phrase_words i h.2)
  | .unsized _ e, h =>
    simp only [isWellFormed] at h
    exact .empty .leftBracket .rightBracket (by decide) (phrase_enclose (phrase_words e h))
  | .identifier _ name, h =>
    simp only [isWellFormed, decide_eq_true_eq] at h
    exact .atom h (.inl rfl)
  | .literal _ kind text, h =>
    simp only [isWellFormed, decide_eq_true_eq] at h
    exact .atom h (.inr rfl)

theorem phrase_wordsAll (es : List (Expr α)) (h : areWellFormed es = true) (hne : es ≠ []) :
    Phrase (wordsAll es) := by
  match es, h with
  | [e], h =>
    simp only [areWellFormed, Bool.and_true] at h
    exact phrase_enclose (phrase_words e h)
  | e :: e' :: more, h =>
    simp only [areWellFormed, Bool.and_eq_true] at h
    refine .between (Symbol.mark_spelled .comma (by decide)) (by simp)
      (phrase_enclose (phrase_words e h.1)) (phrase_wordsAll (e' :: more) ?_ (List.cons_ne_nil _ _))
    simp only [areWellFormed, Bool.and_eq_true]
    exact h.2

end

end Expr

end ShaderRepair

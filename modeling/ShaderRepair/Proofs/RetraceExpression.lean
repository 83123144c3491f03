import ShaderRepair.Proofs.Retrace

/-!
# Retracing expressions

The rules for expressions accept again what they have accepted with repairs, and produce trees of
the same shape. This file contains:
- what the pieces of expressions look like: `Led`, `Starts` and `Neutral`;
- `Expressions`, what is said of each rule, and one lemma for the body of each rule;
- `expressions`, the induction on the depth of calls.

The marks that may follow an expression depend on the rule: a comma put in behind an operand does
not go on with it, but it would go on with a sequence.
-/

namespace ShaderRepair

namespace Grammar

open Piece Procedure

/-! ## Pieces of expressions -/

/-- Nothing, or pieces that begin with a symbol that is kept. -/
def Led (P : List Piece) : Prop :=
  P = [] ∨ Opens P

/-- The pieces begin with a symbol that can begin an expression. -/
def Starts (P : List Piece) : Prop :=
  ∃ y P', P = .kept y :: P' ∧ y.startsExpression = true

/-- Inside brackets the lookahead for declarations passes the pieces. -/
def Neutral (P : List Piece) : Prop :=
  ∀ depth rest,
    Symbol.nameAfterDims (depth + 1) (new P ++ rest) = Symbol.nameAfterDims (depth + 1) rest

/-- The kinds that the lookahead passes inside brackets. -/
def isPlain : Kind → Bool
  | .leftBracket | .rightBracket | .semicolon | .leftBrace | .rightBrace => false
  | _ => true

section Pieces

variable {P P' : List Piece} {f : Symbol → Prop} {F F' : List Kind} {y : Symbol} {k : Kind}

@[simp] theorem opens_kept : Opens (.kept y :: P) :=
  ⟨y, P, rfl⟩

theorem Opens.append (h : Opens P) : Opens (P ++ P') := by
  obtain ⟨y, Q, rfl⟩ := h
  exact ⟨y, Q ++ P', rfl⟩

theorem Starts.opens (h : Starts P) : Opens P := by
  obtain ⟨y, P', rfl, -⟩ := h
  exact ⟨y, P', rfl⟩

theorem Starts.append (h : Starts P) : Starts (P ++ P') := by
  obtain ⟨y, Q, rfl, hy⟩ := h
  exact ⟨y, Q ++ P', rfl, hy⟩

theorem Opens.led (h : Opens P) : Led P :=
  .inr h

theorem Led.append (h : Led P) (h' : Led P') : Led (P ++ P') := by
  rcases h with rfl | h
  · exact h'
  · exact .inr h.append

@[simp] theorem tolerates_kept : Tolerates f F (.kept y :: P) :=
  trivial

theorem Opens.tolerates (h : Opens P) : Tolerates f F P := by
  obtain ⟨y, Q, rfl⟩ := h
  trivial

theorem Led.tolerates_append (h : Led P) (h' : Tolerates f F P') : Tolerates f F (P ++ P') := by
  rcases h with rfl | h
  · exact h'
  · exact h.append.tolerates

theorem Led.tolerates (h : Led P) (hf : ∀ k ∈ F, f (Symbol.mark k)) : Tolerates f F P := by
  rcases h with rfl | h
  · exact hf
  · exact h.tolerates

@[simp] theorem among_mark : Among F (Symbol.mark k) ↔ k ∈ F := by
  constructor
  · rintro ⟨k', hk', h⟩
    have hkind : k = k' := congrArg Symbol.kind h
    rwa [hkind]
  · exact fun hk => ⟨k, hk, rfl⟩

@[simp] theorem tolerates_nil : Tolerates f F [] ↔ ∀ k ∈ F, f (Symbol.mark k) :=
  Iff.rfl

theorem Neutral.nil : Neutral [] :=
  fun _ _ => rfl

theorem Neutral.append (h : Neutral P) (h' : Neutral P') : Neutral (P ++ P') := by
  intro depth rest
  rw [new_append, List.append_assoc, h, h']

theorem nameAfterDims_plain {depth : Nat} {rest : List Symbol} (h : isPlain y.kind = true) :
    Symbol.nameAfterDims (depth + 1) (y :: rest) = Symbol.nameAfterDims (depth + 1) rest := by
  cases hk : y.kind <;> simp_all [isPlain, Symbol.nameAfterDims]

theorem Neutral.kept (h : isPlain y.kind = true) (hP : Neutral P) : Neutral (.kept y :: P) := by
  intro depth rest
  rw [new_kept, List.cons_append, nameAfterDims_plain h, hP]

theorem Neutral.behind (h : isPlain k = true) : Neutral [.behind k] :=
  fun _ _ => nameAfterDims_plain h

theorem Marked.neutral (h : Marked k P) (hk : isPlain k = true) : Neutral P := by
  rcases h with ⟨y, rfl, rfl⟩ | rfl
  · exact .kept hk .nil
  · exact .behind hk

theorem Marked.tolerates_append (h : Marked k P) (hf : f (Symbol.mark k)) :
    Tolerates f F (P ++ P') := by
  rcases h with ⟨y, -, rfl⟩ | rfl
  · trivial
  · exact hf

/-- Brackets inside brackets. -/
theorem Neutral.brackets {z : Symbol} (hy : y.kind = .leftBracket) (hz : z.kind = .rightBracket)
    (h : Neutral P) (h' : Neutral P') : Neutral (.kept y :: (P ++ .kept z :: P')) := by
  intro depth rest
  have hopen : ∀ more, Symbol.nameAfterDims (depth + 1) (y :: more) =
      Symbol.nameAfterDims (depth + 2) more := by
    simp [Symbol.nameAfterDims, hy]
  have hclose : ∀ more, Symbol.nameAfterDims (depth + 2) (z :: more) =
      Symbol.nameAfterDims (depth + 1) more := by
    simp [Symbol.nameAfterDims, hz]
  simp only [new_kept, new_append, List.cons_append, List.append_assoc]
  rw [hopen, h, hclose, h']

end Pieces

/-! ## Marks -/

@[simp] theorem plays_mark {k : Kind} {r : Role} : (Symbol.mark k).plays r = false := by
  have hnone : Tags.none.roles.has r = false := by
    cases r <;> decide
  simp [Symbol.plays, hnone]

/-! ## What is said of the rules -/

/-- Trees of one shape. -/
def Alike (e e' : Tree) : Prop :=
  e.bare = e'.bare

def AlikeAll (es es' : List Tree) : Prop :=
  es.map Expr.bare = es'.map Expr.bare

theorem Alike.cons {e e' : Tree} {es es' : List Tree} (he : Alike e e') (hes : AlikeAll es es') :
    AlikeAll (e :: es) (e' :: es') := by
  simp only [Alike, AlikeAll] at *
  simp [he, hes]

/-- The pieces of an expression. -/
def Whole (P : List Piece) : Prop :=
  Starts P ∧ Neutral P

/-- The pieces of what goes on with an expression. -/
def Partial (P : List Piece) : Prop :=
  Led P ∧ Neutral P

/-- The marks that a sequence may be followed by. -/
def sequenceMarks : List Kind :=
  [.semicolon, .colon, .rightParen]

/-- What is said of the rules for expressions, run with calls nested `d` deep. -/
structure Expressions (C : Nat → Text → Bool) (d : Nat) : Prop where
  expression : ∀ x, Retraces C d x sequenceMarks Whole Alike (run .expression) (run .expression)
  sequence : ∀ x, Retraces C d x sequenceMarks
    (fun P => Partial P ∧ (x.kind = .comma → Opens P)) AlikeAll (run .sequence) (run .sequence)
  assignment : ∀ x, Retraces C d x allMarks Whole Alike (run .assignment) (run .assignment)
  conditional : ∀ x, Retraces C d x allMarks Whole Alike (run .conditional) (run .conditional)
  binary : ∀ level x, Retraces C d x allMarks Whole Alike (run (.binary level))
    (run (.binary level))
  binaryRest : ∀ level {left left' : Tree} x, Alike left left' →
    Retraces C d x allMarks Partial Alike (run (.binaryRest level left))
      (run (.binaryRest level left'))
  unary : ∀ x, Retraces C d x allMarks Whole Alike (run .unary) (run .unary)
  suffixes : ∀ {object object' : Tree} x, Alike object object' →
    Retraces C d x allMarks Partial Alike (run (.suffixes object)) (run (.suffixes object'))
  arguments : ∀ x, Retraces C d x [.rightParen] Partial AlikeAll (run .arguments) (run .arguments)
  primary : ∀ x, Retraces C d x allMarks Whole Alike (run .primary) (run .primary)

theorem of_accepts_kind {x : Symbol} {k : Kind} (h : (Expectation.kind k).accepts x = true) :
    x.kind = k :=
  Expectation.kind_of_accepts h

theorem of_not_accepts_kind {x : Symbol} {k : Kind} (h : (Expectation.kind k).accepts x = false) :
    x.kind ≠ k := by
  simpa [Expectation.accepts] using h

theorem Passable.of_plays {x : Symbol} {r : Role} (h : x.plays r = true) : Passable x := by
  rw [Passable, Symbol.kind_of_plays h]
  exact ⟨Kind.noConfusion, Kind.noConfusion⟩

theorem Passable.of_kind {x : Symbol} {k : Kind} (h : x.kind = k)
    (hk : k ≠ .error ∧ k ≠ .endOfInput) : Passable x := by
  rw [Passable, h]
  exact hk

theorem Passable.of_accepts {e : Expectation} {x : Symbol} (h : e.accepts x = true)
    (hk : e.wants ≠ .error ∧ e.wants ≠ .endOfInput) : Passable x :=
  .of_kind (Expectation.kind_of_accepts h) hk

theorem Passable.of_any {expected : List Expectation} {x : Symbol}
    (h : (expected.any fun e => e.accepts x) = true)
    (hk : ∀ e ∈ expected, e.wants ≠ .error ∧ e.wants ≠ .endOfInput) : Passable x :=
  Expectation.kind_of_any (p := fun k => k ≠ .error ∧ k ≠ .endOfInput) h hk

theorem plain_of_plays {x : Symbol} {r : Role} (h : x.plays r = true) : isPlain x.kind = true := by
  rw [Symbol.kind_of_plays h]
  rfl

theorem Whole.append {P P' : List Piece} (hP : Whole P) (h : Neutral P') : Whole (P ++ P') :=
  ⟨hP.1.append, hP.2.append h⟩

theorem Partial.nil : Partial [] :=
  ⟨.inl rfl, .nil⟩

theorem Partial.kept {x : Symbol} {P : List Piece} (hx : isPlain x.kind = true) (h : Neutral P) :
    Partial (.kept x :: P) :=
  ⟨opens_kept.led, .kept hx h⟩

theorem Whole.partial {P : List Piece} (h : Whole P) : Partial P :=
  ⟨h.1.opens.led, h.2⟩

namespace Expressions

open Retraces

variable {C : Nat → Text → Bool} {d : Nat} (h : Expressions C d) (x : Symbol)

include h

/-! ### From sequences to conditionals -/

theorem expression_body :
    Retraces C d x sequenceMarks Whole Alike Grammar.expression Grammar.expression := by
  refine .bind (h.assignment x) fun first first' P hfirst hP _ y => next ?_
  by_cases hy : y.kind = .comma
  · simp only [if_pos hy]
    refine .bind (h.sequence y) fun more more' P' hmore hP' _ z => made ?_ ?_
    · intro X X'
      simp only [Alike, AlikeAll] at *
      simp [hfirst, hmore]
    · have hopens := hP'.2 hy
      simpa [hopens.tolerates] using hP.append hP'.1.2
  · simp only [if_neg hy]
    refine done hfirst ?_
    simpa [sequenceMarks, allMarks] using hP

theorem sequence_body :
    Retraces C d x sequenceMarks (fun P => Partial P ∧ (x.kind = .comma → Opens P)) AlikeAll
      Grammar.sequence Grammar.sequence := by
  refine accept (fun y hy => .of_accepts hy (by decide)) ?_ ?_
  · intro hx y
    have hcomma : x.kind = .comma := of_accepts_kind hx
    refine .bind (h.assignment y) fun e e' P he hP _ z => ?_
    refine .bind (h.sequence z) fun more more' P' hmore hP' _ w => done (he.cons hmore) ?_
    have hpartial : Partial (.kept x :: (P ++ P')) :=
      .kept (by rw [hcomma]; rfl) (hP.2.append hP'.1.2)
    have htol : Tolerates (Among allMarks) sequenceMarks P' :=
      hP'.1.1.tolerates (by simp [sequenceMarks, allMarks])
    simpa [htol] using hpartial
  · intro hx
    refine done rfl ?_
    have hcomma : x.kind ≠ .comma := of_not_accepts_kind hx
    simp [Partial.nil, hcomma, sequenceMarks, Expectation.accepts]

theorem assignment_body :
    Retraces C d x allMarks Whole Alike Grammar.assignment Grammar.assignment := by
  refine .bind (h.conditional x) fun left left' P hleft hP _ y => next ?_
  by_cases hy : y.plays .assignment = true
  · simp only [if_pos hy]
    refine take (.of_plays hy) fun n n' z => ?_
    refine .bind (h.assignment z) fun right right' P' hright hP' _ w => made ?_ ?_
    · intro X X'
      simp only [Alike] at *
      simp [hleft, hright]
    · simpa using hP.append (.kept (plain_of_plays hy) hP'.2)
  · simp only [if_neg hy]
    refine done hleft ?_
    simpa using hP

theorem conditional_body :
    Retraces C d x allMarks Whole Alike Grammar.conditional Grammar.conditional := by
  refine .bind (h.binary .logicalOr x) fun c c' P hc hP _ y => next ?_
  by_cases hy : y.plays .conditional = true
  · simp only [if_pos hy]
    refine take (.of_plays hy) fun n n' z => ?_
    refine .bind (h.expression z) fun yes yes' P' hyes hP' _ w => ?_
    refine .bind (orMissing rfl) fun _ _ P'' _ hP'' _ v => ?_
    refine .bind (h.assignment v) fun no no' P₃ hno hP₃ _ u => made ?_ ?_
    · intro X X'
      simp only [Alike] at *
      simp [hc, hyes, hno]
    · have hwhole : Whole (P ++ .kept y :: (P' ++ (P'' ++ P₃))) :=
        hP.append (.kept (plain_of_plays hy) (hP'.2.append ((hP''.neutral rfl).append hP₃.2)))
      have htol : Tolerates (Among sequenceMarks) allMarks (P'' ++ P₃) :=
        hP''.tolerates_append (by simp [sequenceMarks])
      simpa [htol, hP₃.1.opens.tolerates] using hwhole
  · simp only [if_neg hy]
    refine done hc ?_
    simpa using hP

/-! ### Operators -/

/-- An operand of an operation, read by the next tighter rule. -/
theorem operand (level : Level) {α β : Type} {F : List Kind} {S : List Piece → Prop}
    {Q : α → β → Prop} {k : Tree → Procedure α} {k' : Tree → Procedure β}
    (hk : ∀ e e' P, Alike e e' → Whole P → ∀ y,
      Retraces C d y F (fun P' => S (P ++ P') ∧ Tolerates (Among allMarks) F P') Q (k e) (k' e')) :
    Retraces C d x F S Q
      (match level.tighter with
        | some tighter => run (.binary tighter) >>= k
        | none => run .unary >>= k)
      (match level.tighter with
        | some tighter => run (.binary tighter) >>= k'
        | none => run .unary >>= k') := by
  cases level.tighter with
  | some tighter => exact .bind (h.binary tighter x) fun e e' P he hP _ y => hk e e' P he hP y
  | none => exact .bind (h.unary x) fun e e' P he hP _ y => hk e e' P he hP y

theorem binary_body (level : Level) :
    Retraces C d x allMarks Whole Alike (Grammar.binary level) (Grammar.binary level) := by
  refine h.operand x level fun left left' P hleft hP y => ?_
  refine (h.binaryRest level y hleft).weaken (fun _ hk => hk) (fun P' hP' => ?_) fun _ _ hq => hq
  have htol : Tolerates (Among allMarks) allMarks P' := hP'.1.tolerates (by simp)
  exact ⟨hP.append hP'.2, htol⟩

theorem binaryRest_body (level : Level) {left left' : Tree} (hleft : Alike left left') :
    Retraces C d x allMarks Partial Alike (Grammar.binaryRest level left)
      (Grammar.binaryRest level left') := by
  refine next ?_
  by_cases hx : x.plays level.role = true
  · simp only [if_pos hx]
    refine take (.of_plays hx) fun n n' y => ?_
    refine h.operand y level fun right right' P hright hP z => make fun X X' => ?_
    have halike : Alike (.binary X level.family x.lexeme left right)
        (.binary X' level.family x.lexeme left' right') := by
      simp only [Alike] at *
      simp [hleft, hright]
    refine (h.binaryRest level z halike).weaken (fun _ hk => hk) (fun P' hP' => ?_)
      fun _ _ hq => hq
    have hpartial : Partial (.kept x :: (P ++ P')) :=
      .kept (plain_of_plays hx) (hP.2.append hP'.2)
    have htol : Tolerates (Among allMarks) allMarks P' := hP'.1.tolerates (by simp)
    simpa [htol] using hpartial
  · simp only [if_neg hx]
    refine done hleft ?_
    simp [Partial.nil]

theorem unary_body : Retraces C d x allMarks Whole Alike Grammar.unary Grammar.unary := by
  refine next ?_
  by_cases hx : x.plays .unary = true
  · simp only [if_pos hx]
    refine take (.of_plays hx) fun n n' y => ?_
    refine .bind (h.unary y) fun e e' P he hP _ z => made ?_ ?_
    · intro X X'
      simp only [Alike] at *
      simp [he]
    · have hstart : x.startsExpression = true := by
        simp [Symbol.startsExpression, Symbol.kind_of_plays hx, hx]
      have hwhole : Whole (.kept x :: P) :=
        ⟨⟨x, P, rfl, hstart⟩, .kept (plain_of_plays hx) hP.2⟩
      simpa using hwhole
  · simp only [if_neg hx]
    refine .bind (h.primary x) fun e e' P he hP _ y => ?_
    refine (h.suffixes y he).weaken (fun _ hk => hk) (fun P' hP' => ?_) fun _ _ hq => hq
    have htol : Tolerates (Among allMarks) allMarks P' := hP'.1.tolerates (by simp)
    exact ⟨⟨hP.append hP'.2, hP.1.opens.append.tolerates⟩, htol⟩

/-- What trails an operand is followed by more of it. -/
theorem more {first first' : Nat} {e e' : Extent Nat → Tree}
    (he : ∀ X X', Alike (e X) (e' X')) {S : List Piece → Prop}
    (hS : ∀ P', Partial P' → S P') :
    Retraces C d x allMarks S Alike (Procedure.make first e >>= fun o => run (.suffixes o))
      (Procedure.make first' e' >>= fun o => run (.suffixes o)) := by
  refine make fun X X' => ?_
  exact (h.suffixes x (he X X')).weaken (fun _ hk => hk) hS fun _ _ hq => hq

section Suffixes

variable {object object' : Tree} (ho : Alike object object')

include h ho

/-- A member. -/
theorem suffixes_of_dot (hx : x.kind = .dot) :
    Retraces C d x allMarks Partial Alike (Grammar.suffixes object)
      (Grammar.suffixes object') := by
  unfold Grammar.suffixes
  refine next ?_
  simp only [if_pos hx]
  refine take (.of_kind hx (by decide)) fun n n' y => ?_
  refine expect (fun z hz => .of_kind (of_accepts_kind (by simpa using hz)) (by decide)) ?_
  intro hy n n' z
  have hname : y.kind = .identifier := of_accepts_kind (by simpa using hy)
  refine h.more z ?_ ?_
  · intro X X'
    simp only [Alike] at *
    simp [ho]
  · intro P hP
    have hpartial : Partial (.kept x :: .kept y :: P) :=
      .kept (by rw [hx]; rfl) (.kept (by rw [hname]; rfl) hP.2)
    simpa using hpartial

/-- An index, or nothing between the brackets. -/
theorem suffixes_of_bracket (hx : x.kind = .leftBracket) :
    Retraces C d x allMarks Partial Alike (Grammar.suffixes object)
      (Grammar.suffixes object') := by
  have hdot : x.kind ≠ .dot := by simp [hx]
  unfold Grammar.suffixes
  refine next ?_
  simp only [if_neg hdot, if_pos hx]
  refine take (.of_kind hx (by decide)) fun n n' y => next ?_
  by_cases hy : y.kind = .rightBracket
  · simp only [if_pos hy]
    refine take (.of_kind hy (by decide)) fun n n' z => ?_
    refine h.more z ?_ ?_
    · intro X X'
      simp only [Alike] at *
      simp [ho]
    · intro P hP
      have hneutral : Neutral (.kept x :: ([] ++ .kept y :: P)) :=
        .brackets hx hy .nil hP.2
      simpa [Partial, opens_kept.led] using hneutral
  · simp only [if_neg hy]
    refine .bind (h.expression y) fun i i' P hi hP _ z => ?_
    refine expect (fun w hw => .of_kind (of_accepts_kind (by simpa using hw)) (by decide)) ?_
    intro hz n n' w
    have hclose : z.kind = .rightBracket := of_accepts_kind (by simpa using hz)
    refine h.more w ?_ ?_
    · intro X X'
      simp only [Alike] at *
      simp [ho, hi]
    · intro P' hP'
      have hneutral : Neutral (.kept x :: (P ++ .kept z :: P')) :=
        .brackets hx hclose hP.2 hP'.2
      simpa [Partial, opens_kept.led, hP.1.opens.append.tolerates] using hneutral

/-- A call, whose closing parenthesis may be put in. -/
theorem suffixes_of_call (hx : x.kind = .leftParen) (hbroken : x.broken = false) :
    Retraces C d x allMarks Partial Alike (Grammar.suffixes object)
      (Grammar.suffixes object') := by
  unfold Grammar.suffixes
  refine next ?_
  simp only [hx, hbroken, reduceCtorEq, if_false, decide_true, Bool.not_false, Bool.and_self,
    if_true]
  refine take (.of_kind hx (by decide)) fun n n' y => ?_
  refine .bind (h.arguments y) fun es es' P hes hP _ z => ?_
  refine .bind (orMissing rfl) fun _ _ P' _ hP' _ w => ?_
  refine h.more w ?_ ?_
  · intro X X'
    simp only [Alike, AlikeAll] at *
    simp [ho, hes]
  · intro P'' hP''
    have hpartial : Partial (.kept x :: (P ++ (P' ++ P''))) :=
      .kept (by rw [hx]; rfl) (hP.2.append ((hP'.neutral rfl).append hP''.2))
    have htol : Tolerates (Among [.rightParen]) allMarks (P' ++ P'') :=
      hP'.tolerates_append (by simp)
    have htol' : Tolerates (Among allMarks) allMarks P'' := hP''.1.tolerates (by simp)
    simpa [htol, htol'] using hpartial

/-- An operator behind its operand. -/
theorem suffixes_of_trailing (hx : x.plays .trailing = true) (hbroken : x.broken = false) :
    Retraces C d x allMarks Partial Alike (Grammar.suffixes object)
      (Grammar.suffixes object') := by
  unfold Grammar.suffixes
  refine next ?_
  simp only [Symbol.kind_of_plays hx, hx, hbroken, reduceCtorEq, if_false, decide_false,
    Bool.false_and, Bool.false_eq_true, Bool.not_false, Bool.and_self, if_true]
  refine take (.of_plays hx) fun n n' y => ?_
  refine h.more y ?_ ?_
  · intro X X'
    simp only [Alike] at *
    simp [ho]
  · intro P hP
    simpa using Partial.kept (plain_of_plays hx) hP.2

theorem suffixes_body :
    Retraces C d x allMarks Partial Alike (Grammar.suffixes object)
      (Grammar.suffixes object') := by
  by_cases hdot : x.kind = .dot
  · exact h.suffixes_of_dot x ho hdot
  by_cases hbracket : x.kind = .leftBracket
  · exact h.suffixes_of_bracket x ho hbracket
  by_cases hparen : (decide (x.kind = .leftParen) && !x.broken) = true
  · simp only [Bool.and_eq_true, decide_eq_true_eq, Bool.not_eq_true'] at hparen
    exact h.suffixes_of_call x ho hparen.1 hparen.2
  by_cases htrailing : (x.plays .trailing && !x.broken) = true
  · simp only [Bool.and_eq_true, Bool.not_eq_true'] at htrailing
    exact h.suffixes_of_trailing x ho htrailing.1 htrailing.2
  -- No mark that is put in trails an operand.
  unfold Grammar.suffixes
  refine next ?_
  simp only [if_neg hdot, if_neg hbracket, if_neg hparen, if_neg htrailing]
  refine done ho ?_
  simp [Partial.nil, allMarks]

end Suffixes

/-- A comma that is put in leads to the branch of one that is there. -/
theorem arguments_body :
    Retraces C d x [.rightParen] Partial AlikeAll Grammar.arguments Grammar.arguments := by
  refine next ?_
  by_cases hx : x.kind = .rightParen
  · simp only [if_pos hx]
    refine done rfl ?_
    simp [Partial.nil]
  simp only [if_neg hx]
  refine .bind (h.assignment x) fun e e' P he hP _ y => ?_
  by_cases hstart : (y.startsExpression && !y.broken) = true
  · -- Here a comma is missing: the second run finds the one that was put in.
    have hcomma : y.kind ≠ .comma := by
      intro hk
      simp [Symbol.startsExpression, Symbol.plays, hk] at hstart
    refine instead (k := .comma) (comma >>= fun _ => run .arguments >>= fun es => pure (e :: es))
      (comma >>= fun _ => run .arguments >>= fun es => pure (e' :: es)) ?_ ?_ ?_
    · intro s hs
      rw [exec_bind, exec_accept, hs]
      simp only [Expectation.accepts, decide_eq_false hcomma, Bool.false_eq_true, if_false]
      rw [exec_bind, exec_next, hs]
      simp only [if_pos hstart]
    · intro n s hs
      rw [exec_bind, exec_accept, hs]
      simp only [Expectation.accepts, Symbol.mark_kind, decide_true, if_true]
      rw [comma, exec_orMissing_bind, hs, if_pos (Symbol.mark_kind .comma)]
    · refine .bind (orMissing rfl) fun _ _ P' _ hP' hy z => ?_
      obtain rfl : P' = [.behind .comma] := by
        rcases hP' with ⟨w, hw, rfl⟩ | rfl
        · exact absurd (hy w [] rfl ▸ hw) hcomma
        · rfl
      refine .bind (h.arguments z) fun es es' P' hes hP' _ w => done (he.cons hes) ?_
      have hpartial : Partial (P ++ .behind .comma :: P') :=
        (hP.append ((Neutral.behind rfl).append hP'.2)).partial
      have htol : Tolerates (Among allMarks) [.rightParen] P' :=
        hP'.1.tolerates (by simp [allMarks])
      have hcomma' : Tolerates (Among allMarks) [.rightParen] (.behind .comma :: P') :=
        among_mark.2 (by simp [allMarks])
      simpa [hP.1.opens.append.tolerates, htol, hcomma'] using hpartial
  · refine accept (fun z hz => .of_accepts hz (by decide)) ?_ ?_
    · intro hy z
      have hcomma : y.kind = .comma := of_accepts_kind hy
      refine .bind (h.arguments z) fun es es' P' hes hP' _ w => done (he.cons hes) ?_
      have hpartial : Partial (P ++ .kept y :: P') :=
        (hP.append (.kept (by rw [hcomma]; rfl) hP'.2)).partial
      simpa [hP.1.opens.append.tolerates] using hpartial
    · intro hy
      refine next ?_
      simp only [if_neg hstart]
      refine done (he.cons rfl) ?_
      have hmark : Symbol.startsExpression (Symbol.mark .rightParen) = false := by
        simp [Symbol.startsExpression]
      simpa [allMarks, Expectation.accepts, hP.1.opens.tolerates, hmark] using hP.partial

theorem primary_body : Retraces C d x allMarks Whole Alike Grammar.primary Grammar.primary := by
  refine next ?_
  have hkept : ∀ {P : List Piece}, x.startsExpression = true → isPlain x.kind = true →
      Neutral P → Whole (.kept x :: P) :=
    fun hs hx hP => ⟨⟨x, _, rfl, hs⟩, .kept hx hP⟩
  split
  · next hx =>
    refine take (.of_kind hx (by decide)) fun n n' y => ?_
    refine .bind (h.expression y) fun e e' P he hP _ z => ?_
    refine .bind (orMissing rfl) fun _ _ P' _ hP' _ w => ?_
    refine extentFrom fun X X' => widen (done ?_ ?_)
    · simp only [Alike] at *
      simp [he]
    · have hwhole : Whole (.kept x :: (P ++ P')) :=
        hkept (by simp [Symbol.startsExpression, hx]) (by rw [hx]; rfl)
          (hP.2.append (hP'.neutral rfl))
      have htol : Tolerates (Among sequenceMarks) allMarks (P' ++ []) :=
        hP'.tolerates_append (by simp [sequenceMarks])
      rw [List.append_nil] at htol
      simpa [htol] using hwhole
  · next hx =>
    refine take (.of_kind hx (by decide)) fun n n' y => made (fun X X' => rfl) ?_
    simpa using hkept (by simp [Symbol.startsExpression, hx]) (by rw [hx]; rfl) .nil
  · next hx =>
    refine take (.of_kind hx (by decide)) fun n n' y => made (fun X X' => rfl) ?_
    simpa using hkept (by simp [Symbol.startsExpression, hx]) (by rw [hx]; rfl) .nil
  · exact position fun n n' => reject

end Expressions

theorem expressions (C : Nat → Text → Bool) (d : Nat) : Expressions C d := by
  induction d with
  | zero =>
    constructor
    all_goals
      intros
      intro s t a hx hp
      cases hp
  | succ d ih =>
    refine ⟨?_, ?_, ?_, ?_, ?_, ?_, ?_, ?_, ?_, ?_⟩
    · exact fun x => Retraces.call .expression .expression (ih.expression_body x)
    · exact fun x => Retraces.call .sequence .sequence (ih.sequence_body x)
    · exact fun x => Retraces.call .assignment .assignment (ih.assignment_body x)
    · exact fun x => Retraces.call .conditional .conditional (ih.conditional_body x)
    · exact fun level x => Retraces.call (.binary level) (.binary level) (ih.binary_body x level)
    · exact fun level left left' x hleft =>
        Retraces.call (.binaryRest level left) (.binaryRest level left')
          (ih.binaryRest_body x level hleft)
    · exact fun x => Retraces.call .unary .unary (ih.unary_body x)
    · exact fun x ho => Retraces.call (.suffixes _) (.suffixes _) (ih.suffixes_body x ho)
    · exact fun x => Retraces.call .arguments .arguments (ih.arguments_body x)
    · exact fun x => Retraces.call .primary .primary (ih.primary_body x)

/-! ## Initializers -/

/-- What is said of the rules for initializers. -/
structure Initializers (C : Nat → Text → Bool) (d : Nat) : Prop where
  initializer : ∀ x, Retraces C d x allMarks Opens Alike (run .initializer) (run .initializer)
  elements : ∀ x, Retraces C d x [] Led AlikeAll (run .elements) (run .elements)

namespace Initializers

open Retraces

variable {C : Nat → Text → Bool} {d : Nat} (h : Initializers C d) (x : Symbol)

include h

theorem initializer_body :
    Retraces C d x allMarks Opens Alike Grammar.initializer Grammar.initializer := by
  refine next ?_
  by_cases hx : x.kind = .leftBrace
  · simp only [if_pos hx]
    refine take (.of_kind hx (by decide)) fun n n' y => ?_
    refine .bind (h.elements y) fun es es' P hes hP _ z => ?_
    refine expect (fun w hw => .of_kind (of_accepts_kind (by simpa using hw)) (by decide)) ?_
    intro hz n n' w
    refine made ?_ ?_
    · intro X X'
      simp only [Alike, AlikeAll] at *
      simp [hes]
    · simp
  · simp only [if_neg hx]
    refine ((expressions C d).assignment x).weaken (fun _ hk => hk) ?_ fun _ _ hq => hq
    exact fun P hP => ⟨hP.1.opens, hP.1.opens.tolerates⟩

theorem elements_body : Retraces C d x [] Led AlikeAll Grammar.elements Grammar.elements := by
  refine next ?_
  by_cases hx : x.kind = .rightBrace
  · simp only [if_pos hx]
    refine done rfl ?_
    simp [Led]
  simp only [if_neg hx]
  refine .bind (h.initializer x) fun e e' P he hP _ y => next ?_
  split
  · refine .bind (orMissing rfl) fun _ _ P' _ hP' _ z => ?_
    refine .bind (h.elements z) fun es es' P'' hes hP'' _ w => done (he.cons hes) ?_
    have htol : Tolerates (Among allMarks) [] (P' ++ P'') :=
      hP'.tolerates_append (by simp [allMarks])
    have htol' : Tolerates (Among allMarks) [] P'' := hP''.tolerates (by simp)
    refine ⟨⟨⟨⟨⟨hP.append.led, hP.append.tolerates⟩, ?_⟩, ?_⟩, ?_⟩, ?_⟩
    · simpa using htol
    · refine hP'.tolerates_append ?_
      simp
    · simpa using htol'
    · simp
  · refine done (he.cons rfl) ?_
    simp [hP.led, hP.tolerates]

end Initializers

theorem initializers (C : Nat → Text → Bool) (d : Nat) : Initializers C d := by
  induction d with
  | zero =>
    constructor
    all_goals
      intros
      intro s t a hx hp
      cases hp
  | succ d ih =>
    refine ⟨?_, ?_⟩
    · exact fun x => Retraces.call .initializer .initializer (ih.initializer_body x)
    · exact fun x => Retraces.call .elements .elements (ih.elements_body x)

end Grammar

end ShaderRepair

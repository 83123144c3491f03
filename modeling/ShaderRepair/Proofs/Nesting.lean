import Mathlib
import ShaderRepair.Proofs.Advance
import ShaderRepair.Proofs.RetraceDeclaration

/-!
# Nested brackets

What a run passes without noting a repair is well bracketed, and every parenthesis that it notes
goes with a symbol that calls for one. This file contains:
- `Nested`, words of brackets in which each one is closed by its partner;
- `closes`, which reads a word with the brackets still to be closed on a stack, and that it accepts
  nested words only;
- `Kind.allowance`, how many parentheses may be missing because of a symbol;
- `Balances`, the relation between a procedure and the brackets it leaves to be closed, and one rule
  for each step of a procedure.
-/

namespace ShaderRepair

/-! ## Words of brackets -/

namespace Kind

/-- The bracket that closes an opening one. -/
def closer? : Kind → Option Kind
  | .leftParen => some .rightParen
  | .leftBracket => some .rightBracket
  | .leftBrace => some .rightBrace
  | _ => none

def isCloser : Kind → Bool
  | .rightParen | .rightBracket | .rightBrace => true
  | _ => false

def isBracket (k : Kind) : Bool :=
  k.closer?.isSome || k.isCloser

/-- How many parentheses may be missing because of a symbol: an opening one may want its partner,
and the keyword before a condition both. -/
def allowance : Kind → Nat
  | .leftParen => 1
  | .if | .switch | .while | .for => 2
  | _ => 0

theorem closer?_of_isCloser {k : Kind} (h : k.isCloser = true) : k.closer? = none := by
  cases k <;> first | rfl | cases h

end Kind

/-- A bracket, a nested word, the bracket that closes the first one, and a nested word again. -/
inductive Nested : List Kind → Prop
  | nil : Nested []
  | pair {l r : Kind} {inner after : List Kind} (h : l.closer? = some r) (hinner : Nested inner)
    (hafter : Nested after) : Nested (l :: (inner ++ r :: after))

/-- Whether a word closes all brackets that it opens and those on the stack, the top one first. -/
def closes : List Kind → List Kind → Bool
  | stack, [] => stack.isEmpty
  | stack, k :: more =>
    match k.closer? with
    | some r => closes (r :: stack) more
    | none =>
      if k.isCloser then
        match stack with
        | [] => false
        | top :: stack => top = k && closes stack more
      else closes stack more

section Closes

variable {k r : Kind} {stack stack' w w' : List Kind}

theorem closes_opening (h : k.closer? = some r) :
    closes stack (k :: w) = closes (r :: stack) w := by
  simp [closes, h]

theorem closes_closing (h : k.isCloser = true) :
    closes (r :: stack) (k :: w) = (decide (r = k) && closes stack w) := by
  simp [closes, h, Kind.closer?_of_isCloser h]

theorem closes_closing_nil (h : k.isCloser = true) : closes [] (k :: w) = false := by
  simp [closes, h, Kind.closer?_of_isCloser h]

theorem closes_other (h : k.isBracket = false) : closes stack (k :: w) = closes stack w := by
  obtain ⟨hopen, hclose⟩ := Bool.or_eq_false_iff.1 h
  have hnone : k.closer? = none := by simpa using hopen
  simp [closes, hnone, hclose]

/-- How a symbol bears on the brackets: it opens one, closes one, or does neither. -/
theorem Kind.bracket_cases (k : Kind) :
    (∃ r, k.closer? = some r) ∨ k.isCloser = true ∨ k.isBracket = false := by
  cases k <;> simp [Kind.closer?, Kind.isCloser, Kind.isBracket]

/-- A word that closes what is on top is followed by one that closes the rest. -/
theorem closes_append (h : closes stack w = true) :
    closes (stack ++ stack') (w ++ w') = closes stack' w' := by
  induction w generalizing stack with
  | nil =>
    cases stack with
    | nil => rfl
    | cons top stack => cases h
  | cons k w ih =>
    rw [List.cons_append]
    rcases k.bracket_cases with ⟨r, hk⟩ | hk | hk
    · rw [closes_opening hk] at h ⊢
      exact @ih (r :: stack) h
    · cases stack with
      | nil =>
        rw [closes_closing_nil hk] at h
        cases h
      | cons top stack =>
        rw [closes_closing hk, Bool.and_eq_true] at h
        rw [List.cons_append, closes_closing hk, h.1, Bool.true_and]
        exact ih h.2
    · rw [closes_other hk] at h ⊢
      exact ih h

/-- What is no bracket does not matter. -/
theorem closes_append_other (h : ∀ k ∈ w, k.isBracket = false) (h' : closes stack w' = true) :
    closes stack (w ++ w') = true := by
  induction w with
  | nil => exact h'
  | cons k w ih =>
    rw [List.cons_append, closes_other (h k List.mem_cons_self)]
    exact ih fun k' hk' => h k' (List.mem_cons_of_mem _ hk')

/-- A word of brackets that closes those on the stack: nested words with one of them behind each. -/
def Closed : List Kind → List Kind → Prop
  | [], w => Nested w
  | r :: stack, w => ∃ inner after, w = inner ++ r :: after ∧ Nested inner ∧ Closed stack after

/-- What opens and closes a bracket in front leaves the stack as it is. -/
theorem Closed.pair {l : Kind} {inner after : List Kind} (h : l.closer? = some r)
    (hinner : Nested inner) (hafter : Closed stack after) :
    Closed stack (l :: (inner ++ r :: after)) := by
  cases stack with
  | nil => exact .pair h hinner hafter
  | cons top stack =>
    obtain ⟨inner', after', rfl, hinner', hafter'⟩ := hafter
    refine ⟨l :: (inner ++ r :: inner'), after', ?_, .pair h hinner hinner', hafter'⟩
    simp

/-- Reading a word with a stack finds out whether its brackets close those on the stack. -/
theorem closed_of_closes (h : closes stack w = true) : Closed stack (w.filter Kind.isBracket) := by
  induction w generalizing stack with
  | nil =>
    cases stack with
    | nil => exact .nil
    | cons top stack => cases h
  | cons k w ih =>
    rcases k.bracket_cases with ⟨r, hk⟩ | hk | hk
    · rw [closes_opening hk] at h
      obtain ⟨inner, after, hw, hinner, hafter⟩ := ih h
      rw [List.filter_cons_of_pos (by simp [Kind.isBracket, hk]), hw]
      exact .pair hk hinner hafter
    · cases stack with
      | nil =>
        rw [closes_closing_nil hk] at h
        cases h
      | cons top stack =>
        rw [closes_closing hk, Bool.and_eq_true, decide_eq_true_eq] at h
        rw [List.filter_cons_of_pos (by simp [Kind.isBracket, hk])]
        exact ⟨[], _, by rw [h.1]; rfl, .nil, ih h.2⟩
    · rw [closes_other hk] at h
      rw [List.filter_cons_of_neg (by simp [hk])]
      exact ih h

theorem nested_of_closes (h : closes [] w = true) : Nested (w.filter Kind.isBracket) :=
  closed_of_closes h

end Closes

namespace Grammar

open Procedure

variable {α β : Type}

/-! ## Brackets of runs -/

def Missing.isParen : Missing → Bool
  | .leftParen | .rightParen => true
  | _ => false

/-- How many parentheses are missing. -/
def parenCount (R : List Repair) : Nat :=
  R.countP fun r => r.missing.isParen

/-- How many parentheses may be missing because of some symbols. -/
def allowance (w : List Symbol) : Nat :=
  (w.map fun x => x.kind.allowance).sum

@[simp] theorem parenCount_append (R R' : List Repair) :
    parenCount (R ++ R') = parenCount R + parenCount R' :=
  List.countP_append

@[simp] theorem allowance_append (w w' : List Symbol) :
    allowance (w ++ w') = allowance w + allowance w' := by
  simp [allowance]

@[simp] theorem allowance_cons (x : Symbol) (w : List Symbol) :
    allowance (x :: w) = x.kind.allowance + allowance w := by
  simp [allowance]

/-- Started before the symbol `x`, the procedure closes the brackets on the stack and all that it
opens, unless it notes a repair. The parentheses that it notes are allowed for by the symbols it
passes, by those to be closed, and by a credit from before. -/
def Balances (d : Nat) (x : Symbol) (stack : List Kind) (credit : Nat) (p : Procedure α) : Prop :=
  ∀ ⦃s t : State⦄ ⦃a : α⦄, s.next = x → p.exec (Rule.run d) s = .accepted a t →
    ∃ w R, Advances s t w R ∧ (R = [] → closes stack (w.map Symbol.kind) = true) ∧
      parenCount R ≤ allowance w + (stack.count .rightParen + credit)

namespace Balances

variable {d n : Nat} {x : Symbol} {stack : List Kind}

/-! ### Results and sequences -/

theorem done {a : α} : Balances d x [] n (.done a) := by
  intro s t b hx hp
  cases hp
  exact ⟨[], [], .refl _, fun _ => rfl, Nat.zero_le _⟩

theorem pure {a : α} : Balances d x [] n (Pure.pure a : Procedure α) :=
  done

theorem reject {index : Nat} {expected : List Expectation} :
    Balances d x stack n (.reject index expected : Procedure α) := by
  intro s t a hx hp
  cases hp

/-- One procedure after the other; the first one closes what is on top. -/
theorem seq {top : List Kind} {p : Procedure α} {k : α → Procedure β} (h : Balances d x top 0 p)
    (hk : ∀ a y, Balances d y stack n (k a)) : Balances d x (top ++ stack) n (p >>= k) := by
  intro s t b hx hp
  obtain ⟨a, m, ha, hb⟩ := exec_bind_accepted.1 hp
  obtain ⟨w, R, hw, hcloses, hcount⟩ := h hx ha
  obtain ⟨w', R', hw', hcloses', hcount'⟩ := hk a m.next rfl hb
  refine ⟨w ++ w', R' ++ R, hw.trans hw', fun hR => ?_, ?_⟩
  · obtain ⟨hR', hR⟩ := List.append_eq_nil_iff.1 hR
    rw [List.map_append, closes_append (hcloses hR), hcloses' hR']
  · rw [parenCount_append, allowance_append, List.count_append]
    omega

/-- A procedure that closes all it opens, and then one that closes the rest. -/
theorem bind {p : Procedure α} {k : α → Procedure β} (h : Balances d x [] 0 p)
    (hk : ∀ a y, Balances d y stack n (k a)) : Balances d x stack n (p >>= k) :=
  h.seq hk

theorem map {p : Procedure α} {f : α → β} (h : Balances d x [] 0 p) :
    Balances d x [] 0 (f <$> p) := by
  rw [map_eq_pure_bind]
  exact h.bind fun _ _ => pure

theorem call (r : Rule) (h : Balances d x stack n r.body) : Balances (d + 1) x stack n (run r) :=
  fun _ _ _ hx hp => h hx (exec_run_succ d r _ ▸ hp)

/-! ### Steps that pass nothing -/

theorem next {k : Symbol → Procedure α} (h : Balances d x stack n (k x)) :
    Balances d x stack n (next >>= k) := by
  intro s t a hx hp
  subst hx
  exact h rfl hp

theorem second {k : Symbol → Procedure α} (h : ∀ y, Balances d x stack n (k y)) :
    Balances d x stack n (second >>= k) :=
  fun s _ _ hx hp => h s.second hx hp

theorem ahead {k : Bool → Procedure α} (h : ∀ b, Balances d x stack n (k b)) :
    Balances d x stack n (.ahead .done >>= k) :=
  fun s _ _ hx hp => h (Symbol.startsDeclaration s.rest) hx hp

theorem position {k : Nat → Procedure α} (h : ∀ i, Balances d x stack n (k i)) :
    Balances d x stack n (position >>= k) :=
  fun s _ _ hx hp => h s.passed hx hp

theorem extentFrom {first : Nat} {k : Extent Nat → Procedure α}
    (h : ∀ X, Balances d x stack n (k X)) : Balances d x stack n (extentFrom first >>= k) :=
  fun s _ _ hx hp => h ⟨first, s.passed - 1⟩ hx hp

theorem build {e : Tree} {p : Procedure α} (h : Balances d x stack n p) :
    Balances d x stack n (.build e p) := by
  intro s t a hx hp
  obtain ⟨w, R, hw, hmore⟩ := h (s := s.build e) hx hp
  exact ⟨w, R, ⟨hw.rest, hw.passed, hw.repairs⟩, hmore⟩

theorem widen {e : Tree} {p : Procedure α} (h : Balances d x stack n p) :
    Balances d x stack n (.widen e p) := by
  intro s t a hx hp
  obtain ⟨w, R, hw, hmore⟩ := h (s := s.widen e) hx hp
  exact ⟨w, R, ⟨hw.rest, hw.passed, hw.repairs⟩, hmore⟩

theorem make {first : Nat} {e : Extent Nat → Tree} {k : Tree → Procedure α}
    (h : ∀ e, Balances d x stack n (k e)) : Balances d x stack n (make first e >>= k) :=
  extentFrom (k := fun X => .build (e X) (k (e X))) fun _ => build (h _)

theorem made {first : Nat} {e : Extent Nat → Tree} :
    Balances d x [] n (Procedure.make first e) := by
  have h : Balances d x [] n (Procedure.make first e >>= Pure.pure) := make fun _ => pure
  rwa [bind_pure] at h

/-! ### Passing symbols -/

/-- What passes a symbol that is no bracket. The end of input changes nothing. -/
theorem shift {p : Procedure α} (hx : x.kind.isBracket = false)
    (h : ∀ y, Balances d y stack (n + x.kind.allowance) p) : Balances d x stack n (.shift p) := by
  rintro s t a rfl hp
  obtain ⟨w, R, hw, hcloses, hcount⟩ := h s.shift.next rfl hp
  rcases s.shift_cases with hshift | ⟨hsame, hkind⟩
  · refine ⟨[s.next] ++ w, R ++ [], hshift.trans hw, fun hR => ?_, ?_⟩
    · rw [List.append_nil] at hR
      exact (closes_other hx).trans (hcloses hR)
    · simp only [List.append_nil, List.singleton_append, allowance_cons]
      omega
  · have hzero : s.next.kind.allowance = 0 := by
      rw [hkind]
      rfl
    rw [hsame] at hw
    rw [hzero, Nat.add_zero] at hcount
    exact ⟨w, R, hw, hcloses, hcount⟩

/-- A bracket of which the passing is certain. -/
theorem shift_bracket {p : Procedure α} {stack' : List Kind} (hx : x.kind.isBracket = true)
    (hcloses : ∀ w, closes stack' w = true → closes stack (x.kind :: w) = true)
    (hcount : stack'.count .rightParen ≤ x.kind.allowance + stack.count .rightParen)
    (h : ∀ y, Balances d y stack' n p) : Balances d x stack n (.shift p) := by
  rintro s t a rfl hp
  obtain ⟨w, R, hw, hcloses', hcount'⟩ := h s.shift.next rfl hp
  rcases s.shift_cases with hshift | ⟨-, hkind⟩
  · refine ⟨[s.next] ++ w, R ++ [], hshift.trans hw, fun hR => ?_, ?_⟩
    · rw [List.append_nil] at hR
      exact hcloses _ (hcloses' hR)
    · simp only [List.append_nil, List.singleton_append, allowance_cons]
      omega
  · rw [hkind] at hx
    cases hx

theorem shift_opening {p : Procedure α} {k r : Kind} (hx : x.kind = k) (hk : k.closer? = some r)
    (h : ∀ y, Balances d y (r :: stack) n p) : Balances d x stack n (.shift p) := by
  subst hx
  refine shift_bracket (by simp [Kind.isBracket, hk]) (fun w hw => ?_) ?_ h
  · rwa [closes_opening hk]
  · cases hkind : x.kind <;> rw [hkind] at hk <;> cases hk <;> simp [Kind.allowance, Nat.add_comm]

theorem shift_closing {p : Procedure α} {k : Kind} (hx : x.kind = k) (hk : k.isCloser = true)
    (h : ∀ y, Balances d y stack n p) : Balances d x (k :: stack) n (.shift p) := by
  subst hx
  refine shift_bracket (by simp [Kind.isBracket, hk]) (fun w hw => ?_) ?_ h
  · rw [closes_closing hk, decide_eq_true rfl, hw]
    rfl
  · rw [List.count_cons]
    omega

theorem mono {p : Procedure α} {n' : Nat} (h : Balances d x stack n p) (hn : n ≤ n') :
    Balances d x stack n' p := by
  intro s t a hx hp
  obtain ⟨w, R, hw, hcloses, hcount⟩ := h hx hp
  exact ⟨w, R, hw, hcloses, by omega⟩

section Passing

variable {k r : Kind} {f : Name Nat → Procedure α} (hx : x.kind = k)
include hx

theorem take (hk : k.isBracket = false) (h : ∀ i y, Balances d y stack n (f ⟨x.lexeme, i⟩)) :
    Balances d x stack n (Procedure.take >>= f) :=
  next (position fun i => shift (hx ▸ hk) fun y => (h i y).mono (Nat.le_add_right _ _))

theorem taken (hk : k.isBracket = false) : Balances d x [] n Procedure.take := by
  have h : Balances d x [] n (Procedure.take >>= Pure.pure) := take hx hk fun _ _ => pure
  rwa [bind_pure] at h

/-- A keyword before a condition allows for two parentheses. -/
theorem take_keyword (hk : k.allowance = 2)
    (h : ∀ i y, Balances d y stack (n + 2) (f ⟨x.lexeme, i⟩)) :
    Balances d x stack n (Procedure.take >>= f) := by
  subst hx
  have hother : x.kind.isBracket = false := by
    cases hkind : x.kind <;> rw [hkind] at hk <;> first | rfl | cases hk
  exact next (position fun i => shift hother fun y => hk ▸ h i y)

theorem take_opening (hk : k.closer? = some r)
    (h : ∀ i y, Balances d y (r :: stack) n (f ⟨x.lexeme, i⟩)) :
    Balances d x stack n (Procedure.take >>= f) :=
  next (position fun i => shift_opening hx hk fun y => h i y)

theorem take_closing (hk : k.isCloser = true) (h : ∀ i y, Balances d y stack n (f ⟨x.lexeme, i⟩)) :
    Balances d x (k :: stack) n (Procedure.take >>= f) :=
  next (position fun i => shift_closing hx hk fun y => h i y)

end Passing

theorem take_plays {r : Role} {f : Name Nat → Procedure α} (hx : x.plays r = true)
    (h : ∀ i y, Balances d y stack n (f ⟨x.lexeme, i⟩)) :
    Balances d x stack n (Procedure.take >>= f) :=
  take (Symbol.kind_of_plays hx) rfl h

theorem accept {e : Expectation} {f : Bool → Procedure α}
    (he : e.accepts x = true → x.kind.isBracket = false) (hyes : ∀ y, Balances d y stack n (f true))
    (hno : Balances d x stack n (f false)) : Balances d x stack n (Procedure.accept e >>= f) := by
  refine next (k := fun s => (if e.accepts s then .shift (.done true) else .done false) >>= f) ?_
  split
  · next hx => exact shift (he hx) fun y => (hyes y).mono (Nat.le_add_right _ _)
  · exact hno

theorem accept_opening {k r : Kind} {f : Bool → Procedure α} (hk : k.closer? = some r)
    (hyes : ∀ y, Balances d y (r :: stack) n (f true)) (hno : Balances d x stack n (f false)) :
    Balances d x stack n (Procedure.accept (.kind k) >>= f) := by
  refine next (k := fun s => (if Expectation.accepts (.kind k) s then .shift (.done true)
    else .done false) >>= f) ?_
  split
  · next hx => exact shift_opening (of_accepts_kind hx) hk hyes
  · exact hno

/-- An expected symbol is passed like one that is known to be ahead. -/
theorem expect {expected : List Expectation} {f : Name Nat → Procedure α}
    (h : (expected.any fun e => e.accepts x) = true → Balances d x stack n (Procedure.take >>= f)) :
    Balances d x stack n (Procedure.expect expected >>= f) := by
  refine next (k := fun s => (if expected.any fun e => e.accepts s then Procedure.take
    else .here fun n => .reject n expected) >>= f) ?_
  split
  · next hx => exact h hx
  · exact position fun i => reject

/-- An expected name, keyword or mark that is no bracket. -/
theorem expect_other {expected : List Expectation} {f : Name Nat → Procedure α}
    (hother : (expected.any fun e => e.accepts x) = true → x.kind.isBracket = false)
    (h : ∀ w y, Balances d y stack n (f w)) :
    Balances d x stack n (Procedure.expect expected >>= f) :=
  expect fun hx => take rfl (hother hx) fun i y => h ⟨x.lexeme, i⟩ y

theorem expect_word {k : Kind} {f : Name Nat → Procedure α} (hk : k.isBracket = false)
    (h : ∀ w y, Balances d y stack n (f w)) :
    Balances d x stack n (Procedure.expect [.kind k] >>= f) :=
  expect_other (fun hx => kind_of_expected hx ▸ hk) h

theorem expect_opening {k r : Kind} {f : Name Nat → Procedure α} (hk : k.closer? = some r)
    (h : ∀ w y, Balances d y (r :: stack) n (f w)) :
    Balances d x stack n (Procedure.expect [.kind k] >>= f) :=
  expect fun hx => take_opening (kind_of_expected hx) hk fun i y => h ⟨x.lexeme, i⟩ y

theorem expect_closing {k : Kind} {f : Name Nat → Procedure α} (hk : k.isCloser = true)
    (h : ∀ w y, Balances d y stack n (f w)) :
    Balances d x (k :: stack) n (Procedure.expect [.kind k] >>= f) :=
  expect fun hx => take_closing (kind_of_expected hx) hk fun i y => h ⟨x.lexeme, i⟩ y

/-! ### Punctuation that may be missing -/

/-- A repair makes it pointless to ask for nested brackets. Only a parenthesis counts. -/
theorem repair {p : Procedure α} {m : Missing} {stack' : List Kind} {n' : Nat}
    (hcount : stack'.count .rightParen + n' + m.isParen.toNat ≤ stack.count .rightParen + n)
    (h : Balances d x stack' n' p) : Balances d x stack n (.repair m p) := by
  intro s t a hx hp
  obtain ⟨w, R, hw, -, hparens⟩ := h (s := s.repair m) hx hp
  refine ⟨[] ++ w, R ++ [⟨s.passed, m⟩], (Advances.repair s m).trans hw, fun hR => ?_, ?_⟩
  · simp at hR
  · have hone : parenCount [⟨s.passed, m⟩] = m.isParen.toNat := by
      cases m <;> rfl
    rw [parenCount_append, hone, List.nil_append]
    omega

/-- A mark is passed, or noted as missing. -/
theorem orMissing_cases {k : Kind} {m : Missing} {f : Unit → Procedure α}
    (hyes : x.kind = k → Balances d x stack n (.shift (f ())))
    (hno : Balances d x stack n (.repair m (f ()))) :
    Balances d x stack n (Procedure.orMissing k m >>= f) := by
  intro s t a hx hp
  rw [exec_bind, exec_orMissing] at hp
  by_cases hk : s.next.kind = k
  · rw [if_pos hk] at hp
    exact hyes (hx ▸ hk) hx hp
  · rw [if_neg hk] at hp
    exact hno hx hp

/-- A mark that is no parenthesis, there or not. -/
theorem orMissing {k : Kind} {m : Missing} {f : Unit → Procedure α} (hk : k.isBracket = false)
    (hm : m.isParen = false) (h : ∀ y, Balances d y stack n (f ())) :
    Balances d x stack n (Procedure.orMissing k m >>= f) := by
  refine orMissing_cases (fun hx => ?_) ?_
  · exact shift (hx ▸ hk) fun y => (h y).mono (Nat.le_add_right _ _)
  · exact repair (by rw [hm]; exact Nat.le_refl _) (h x)

/-- An opening parenthesis, there or not. One that is missing is allowed for by the credit, together
with its partner. -/
theorem leftParen {f : Unit → Procedure α}
    (h : ∀ y, Balances d y (.rightParen :: stack) n (f ())) :
    Balances d x stack (n + 2) (Procedure.leftParen >>= f) := by
  refine orMissing_cases (fun hx => ?_) ?_
  · exact shift_opening hx rfl fun y => (h y).mono (Nat.le_add_right _ _)
  · refine repair ?_ (h x)
    rw [List.count_cons_self]
    exact Nat.le_of_eq (by simp only [Missing.isParen, Bool.toNat_true]; omega)

/-- A closing parenthesis, there or not. -/
theorem rightParen {f : Unit → Procedure α} (h : ∀ y, Balances d y stack n (f ())) :
    Balances d x (.rightParen :: stack) n (Procedure.rightParen >>= f) := by
  refine orMissing_cases (fun hx => shift_closing hx rfl h) (repair ?_ (h x))
  rw [List.count_cons_self]
  exact Nat.le_of_eq (by simp only [Missing.isParen, Bool.toNat_true]; omega)

/-- Semicolons are no brackets. -/
theorem skipSemicolons {p : Procedure α} (h : ∀ y, Balances d y stack n p) :
    Balances d x stack n (.skipSemicolons p) := by
  intro s t a hx hp
  obtain ⟨w, R, hw, hcloses, hcount⟩ := h s.skipSemicolons.next rfl hp
  refine ⟨_, _, (Advances.skipSemicolons s).trans hw, fun hR => ?_, ?_⟩
  · rw [List.append_nil] at hR
    rw [List.map_append]
    refine closes_append_other (fun k hk => ?_) (hcloses hR)
    obtain ⟨y, hy, rfl⟩ := List.mem_map.1 hk
    have hsemi : y.kind = .semicolon := by simpa using List.mem_takeWhile_imp hy
    rw [hsemi]
    rfl
  · rw [List.append_nil, allowance_append]
    omega

theorem statementEnd {f : Unit → Procedure α} (h : ∀ y, Balances d y stack n (f ())) :
    Balances d x stack n (Procedure.statementEnd >>= f) := by
  intro s t a hx hp
  rw [exec_bind, exec_statementEnd] at hp
  by_cases hk : s.next.kind = .semicolon
  · rw [if_pos hk] at hp
    exact skipSemicolons h hx hp
  · rw [if_neg hk] at hp
    exact repair (Nat.le_refl _) (h x) hx hp

end Balances

end Grammar

end ShaderRepair

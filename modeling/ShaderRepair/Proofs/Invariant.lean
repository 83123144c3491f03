import ShaderRepair.Proofs.CarryStatement
import ShaderRepair.Proofs.Confine

/-!
# What steps keep

What every step of a procedure keeps, every run of the procedure keeps. The steps are those that its
contract allows, so that an expression is built of the latest ones that are pending. This file
contains:
- `Invariant`, a property of states that all steps keep, where some expressions only are built;
- `Procedure.Confined.keeps`, for the runs of a procedure that builds such expressions only;
- `State.Every`, a property of all expressions that are pending, and the steps that change these.
-/

namespace ShaderRepair

namespace Grammar

variable {α : Type}

/-! ## Invariants -/

/-- A property of states that every step keeps, if what it builds is of the one kind. -/
structure Invariant (B : Tree → Prop) (I : State → Prop) : Prop where
  shift : ∀ {s : State}, I s → I s.shift
  skipSemicolons : ∀ {s : State}, I s → I s.skipSemicolons
  repair : ∀ {s : State}, I s → ∀ m, I (s.repair m)
  build : ∀ {s : State} {e : Tree} {base : List Tree},
    I s → s.pending = e.children.reverse ++ base → B e → I (s.build e)
  widen : ∀ {s : State} {e : Tree} {base : List Tree} {X : Extent Nat},
    I s → s.pending = e :: base → I (s.widen (e.setNote X))

section Runs

variable {A : Missing → Prop} {B : Tree → Prop} {C : Rule → Prop} {I : State → Prop} {d : Nat}

/-- A run of a confined procedure, where the rules that it may call keep the property, by induction
on the procedure. -/
theorem Procedure.Confined.keeps (hI : Invariant B I)
    (hcall : ∀ {r : Rule} {s t : State} {a : r.Result}, C r → Holds r.held s → I s →
      Rule.run d r s = .accepted a t → I t)
    {p : Procedure α} (h : p.Confined A B C) {Q : α → State → Prop} {s t : State} {a : α}
    (hsafe : p.Safe Q s) (hs : I s) (hp : p.exec (Rule.run d) s = .accepted a t) : I t := by
  induction p generalizing s with
  | done b =>
    cases hp
    exact hs
  | look k ih => exact ih _ _ (h _ _) hsafe hs hp
  | ahead k ih => exact ih _ (h _) hsafe hs hp
  | here k ih => exact ih _ (h _) hsafe hs hp
  | shift k ih => exact ih h hsafe.2 (hI.shift hs) hp
  | skipSemicolons k ih => exact ih h hsafe (hI.skipSemicolons hs) hp
  | repair m k ih => exact ih h.2 hsafe.2 (hI.repair hs m) hp
  | build e k ih =>
    obtain ⟨⟨base, hbase⟩, hsafe⟩ := hsafe
    exact ih h.2 hsafe (hI.build hs hbase h.1) hp
  | widen e k ih =>
    obtain ⟨⟨inner, base, hbase, he⟩, hsafe⟩ := hsafe
    have hs' := hI.widen (X := e.note) hs hbase
    rw [← he] at hs'
    exact ih h hsafe hs' hp
  | reject index expected => cases hp
  | call r k ih =>
    obtain ⟨hholds, hsafe⟩ := hsafe
    rw [exec] at hp
    cases hc : Rule.run d r s with
    | accepted b m =>
      rw [hc] at hp
      have hm := hcall h.1 hholds hs hc
      exact ih b (h.2 b) (hsafe b m (Rule.post_of_run hholds hc)) hm hp
    | rejected why m =>
      rw [hc] at hp
      cases hp

end Runs

/-! ## Pending expressions -/

theorem children_setNote {e : Tree} {X : Extent Nat} : (e.setNote X).children = e.children := by
  cases e <;> rfl

/-- The expressions that are pending have the property, and so has all that is in them. -/
def State.Every (P : Tree → Prop) (s : State) : Prop :=
  ∀ e ∈ s.pending, ∀ a ∈ e.postorder, P a

namespace State.Every

variable {P : Tree → Prop} {s : State} {e : Tree} {base : List Tree}

theorem build (h : s.Every P) (hs : s.pending = e.children.reverse ++ base) (he : P e) :
    (s.build e).Every P := by
  intro e' he' a ha
  have hbase : s.pending.drop e.children.length = base := by
    rw [hs, List.drop_left']
    exact List.length_reverse
  rw [State.build, hbase] at he'
  rcases List.mem_cons.1 he' with rfl | he'
  · rw [Expr.postorder_eq, List.mem_append, List.mem_flatMap, List.mem_singleton] at ha
    rcases ha with ⟨c, hc, ha⟩ | rfl
    · refine h c ?_ a ha
      rw [hs]
      exact List.mem_append_left _ (List.mem_reverse.2 hc)
    · exact he
  · refine h e' ?_ a ha
    rw [hs]
    exact List.mem_append_right _ he'

/-- A change of its extent does not change what an expression is made of. -/
theorem widen {X : Extent Nat} (h : s.Every P) (hs : s.pending = e :: base)
    (hP : P e → P (e.setNote X)) : (s.widen (e.setNote X)).Every P := by
  intro e' he' a ha
  have he : ∀ a ∈ e.postorder, P a := h e (by rw [hs]; exact List.mem_cons_self)
  rw [State.widen, hs, List.drop_one, List.tail_cons] at he'
  rcases List.mem_cons.1 he' with rfl | he'
  · rw [Expr.postorder_eq, children_setNote, List.mem_append, List.mem_singleton] at ha
    rcases ha with ha | rfl
    · refine he a ?_
      rw [Expr.postorder_eq]
      exact List.mem_append_left _ ha
    · exact hP (he e e.mem_postorder_self)
  · exact h e' (by rw [hs]; exact List.mem_cons_of_mem _ he') a ha

end State.Every

end Grammar

end ShaderRepair

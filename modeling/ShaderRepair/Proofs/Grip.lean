import ShaderRepair.Proofs.Advance
import ShaderRepair.Proofs.Branches
import ShaderRepair.Proofs.Invariant

/-!
# Calls and trailing operators

A call or a trailing operator takes an operand only if it stands on the line where the operand ends.
This file contains:
- `Gripped`, which says so of one expression;
- `Grips`, which says so of all expressions that are pending in a state;
- `Rule.keeps`, that every run of a rule keeps it.
-/

namespace ShaderRepair

/-- A call or a trailing operator holds on to the operand on its line. -/
def Expr.grips {α : Type} : Expr α → Bool
  | .call .. | .unary _ _ .after _ => true
  | _ => false

namespace Grammar

open Procedure

variable {α : Type} {xs : List Symbol}

/-! ## Expressions on one line -/

/-- If the expression holds on to an operand, then the symbol behind the operand is the one that it
begins with, and no line break precedes it. -/
def Gripped (xs : List Symbol) : Tree → Prop
  | .call _ callee _ =>
    ∃ x, xs[callee.note.last + 1]? = some x ∧ x.kind = .leftParen ∧ x.broken = false
  | .unary _ op .after operand =>
    ∃ x, xs[operand.note.last + 1]? = some x ∧ x.plays .trailing = true ∧ x.lexeme = op ∧
      x.broken = false
  | _ => True

theorem gripped_of_not_grips {e : Tree} (h : e.grips = false) : Gripped xs e := by
  cases e with
  | unary X op side operand =>
    cases side with
    | before => trivial
    | after => cases h
  | call X callee args => cases h
  | _ => trivial

theorem gripped_setNote {e : Tree} {X : Extent Nat} : Gripped xs (e.setNote X) ↔ Gripped xs e := by
  cases e with
  | unary X op side operand => cases side <;> rfl
  | _ => rfl

/-- Only suffixes hold on to an operand. -/
theorem Rule.grips_of_builds {r : Rule} {e : Tree} (hr : r.isSuffixes = false) (h : r.Builds e) :
    e.grips = false := by
  unfold Rule.Builds at h
  split at h
  iterate 5
    · rfl
  iterate 5
    · cases hr
  iterate 3
    · rfl
  · cases h

/-- The symbols ahead are those from the place on, and all that is pending is on its lines. -/
structure Grips (xs : List Symbol) (s : State) : Prop where
  rest : s.rest = xs.drop s.passed
  pending : ∀ e ∈ s.pending, ∀ a ∈ e.postorder, Gripped xs a

/-- Suffixes go on where the operand ends. -/
def Rule.Handed : Rule → State → Prop
  | .suffixes object, s => object.note.last + 1 = s.passed
  | _, _ => True

/-! ## Steps -/

namespace Grips

variable {s : State} {e : Tree} {base : List Tree}

theorem shift (h : Grips xs s) : Grips xs s.shift := by
  rcases s.shift_cases with hshift | ⟨hsame, -⟩
  · refine ⟨hshift.drop h.rest, ?_⟩
    rw [s.pending_shift]
    exact h.pending
  · rwa [hsame]

theorem skipSemicolons (h : Grips xs s) : Grips xs s.skipSemicolons :=
  ⟨(Advances.skipSemicolons s).drop h.rest, h.pending⟩

theorem repair (h : Grips xs s) (m : Missing) : Grips xs (s.repair m) :=
  ⟨h.rest, h.pending⟩

/-- An expression is made of expressions that are on their lines. -/
theorem build (h : Grips xs s) (hs : s.pending = e.children.reverse ++ base)
    (he : Gripped xs e) : Grips xs (s.build e) :=
  ⟨h.rest, State.Every.build h.pending hs he⟩

/-- Parentheses around an expression do not change what it holds on to. -/
theorem widen {X : Extent Nat} (h : Grips xs s) (hs : s.pending = e :: base) :
    Grips xs (s.widen (e.setNote X)) :=
  ⟨h.rest, State.Every.widen h.pending hs gripped_setNote.2⟩

/-- All steps keep it, but for building what holds on to an operand. -/
theorem invariant : Invariant (fun e => e.grips = false) (Grips xs) where
  shift := shift
  skipSemicolons := skipSemicolons
  repair := repair
  build h hs he := h.build hs (gripped_of_not_grips he)
  widen := widen

end Grips

/-- Since the state `s` some operands have been read. -/
structure Gathers (xs : List Symbol) (s m : State) (operands : List Tree) : Prop where
  grips : Grips xs m
  le : s.passed ≤ m.passed
  pending : m.pending = operands.reverse ++ s.pending

namespace Gathers

variable {s m : State} {operands : List Tree}

theorem refl (h : Grips xs s) : Gathers xs s s [] :=
  ⟨h, Nat.le_refl _, rfl⟩

theorem shift (h : Gathers xs s m operands) : Gathers xs s m.shift operands :=
  ⟨h.grips.shift, h.le.trans m.passed_le_shift, m.pending_shift.trans h.pending⟩

theorem orMissing {callee : (r : Rule) → State → Outcome r.Result} {k : Kind} {missing : Missing}
    {u : Unit} {t : State} (h : Gathers xs s m operands)
    (hp : (Procedure.orMissing k missing).exec callee m = .accepted u t) :
    Gathers xs s t operands := by
  rw [exec_orMissing] at hp
  cases hp
  split
  · exact h.shift
  · exact ⟨h.grips.repair missing, h.le, h.pending⟩

end Gathers

/-! ## Runs -/

/-- What trails an operand has been passed. -/
theorem Trails.passed_le {d : Nat} {object : Tree} {s m : State} {f : Extent Nat → Tree}
    (h : Trails (Rule.run d) object s f m) : s.passed ≤ m.passed := by
  cases h with
  | member _ hname => exact s.passed_le_shift.trans (Procedure.passed_le hname)
  | unsized => exact s.passed_le_shift.trans s.shift.passed_le_shift
  | index _ _ hposition hclosing =>
    have hle := (Procedure.passed_le hposition).trans (Procedure.passed_le hclosing)
    exact s.passed_le_shift.trans hle
  | call _ _ harguments hclosing =>
    have hle := (Procedure.passed_le harguments).trans (Procedure.passed_le hclosing)
    exact s.passed_le_shift.trans hle
  | operator => exact s.passed_le_shift

/-- An operand ends with the last symbol passed. -/
theorem last_of_primary {d : Nat} {s t : State} {e : Tree}
    (h : (run .primary).exec (Rule.run d) s = .accepted e t) : e.note.last + 1 = t.passed := by
  cases d with
  | zero => cases h
  | succ d =>
    rw [exec_run_succ] at h
    -- Every operand begins with a symbol that is passed.
    have hlt : ∀ {k : Kind}, s.next.kind = k → k ≠ .error → k ≠ .endOfInput →
        s.shift.passed = s.passed + 1 := fun hk herror hend =>
      Reaches.passed_shift ⟨hk ▸ herror, hk ▸ hend⟩
    rcases exec_primary_accepted.1 h with
      ⟨hkind, inner, m, hinner, u, m', hparen, rfl, rfl⟩ | ⟨hkind, h⟩ | ⟨hkind, h⟩
    · have hshift := hlt hkind (by decide) (by decide)
      have hle := Procedure.passed_le hinner
      have hle' := Procedure.passed_le hparen
      rw [Expr.note_setNote]
      change m'.passed - 1 + 1 = m'.passed
      omega
    · have hshift := hlt hkind (by decide) (by decide)
      cases h
      change s.shift.passed - 1 + 1 = s.shift.passed
      omega
    · have hshift := hlt hkind (by decide) (by decide)
      cases h
      change s.shift.passed - 1 + 1 = s.shift.passed
      omega

/-- What runs of depth `d` do for the expressions that are pending. -/
def Keeps (xs : List Symbol) (d : Nat) : Prop :=
  ∀ ⦃r : Rule⦄ ⦃s t : State⦄ ⦃a : r.Result⦄, Holds r.held s → r.Handed s → Grips xs s →
    Rule.run d r s = .accepted a t → Grips xs t

namespace Keeps

variable {d : Nat} (ih : Keeps xs d)
include ih

/-- A procedure that builds nothing that holds on to an operand. -/
theorem plain {A : Missing → Prop} {B : Tree → Prop} {C : Rule → Prop} {p : Procedure α}
    (h : p.Confined A B C) (hB : ∀ e, B e → e.grips = false)
    (hC : ∀ r, C r → r.isSuffixes = false) {Q : α → State → Prop} {s t : State} {a : α}
    (hsafe : p.Safe Q s) (hs : Grips xs s) (hp : p.exec (Rule.run d) s = .accepted a t) :
    Grips xs t := by
  refine (h.mono hB hC).keeps Grips.invariant (fun {r s t a} hr hholds hs hc => ?_) hsafe hs hp
  have hhanded : r.Handed s := by
    cases r with
    | suffixes object => cases hr
    | _ => trivial
  exact ih hholds hhanded hs hc

/-- A call of a rule, with what its contract says of the expressions pending. -/
theorem call (r : Rule) {s t : State} {a : r.Result} (hholds : Holds r.held s)
    (hhanded : r.Handed s) (hs : Grips xs s) (hp : (run r).exec (Rule.run d) s = .accepted a t) :
    Grips xs t ∧ r.Post s a t := by
  rw [exec_run] at hp
  exact ⟨ih hholds hhanded hs hp, Rule.post_of_run hholds hp⟩

/-- A call of a rule that goes on with nothing adds its expressions to the operands. -/
theorem gathers {r : Rule} {s m t : State} {operands : List Tree} {a : r.Result}
    (h : Gathers xs s m operands) (hr : r.held = [])
    (hp : (run r).exec (Rule.run d) m = .accepted a t) :
    Gathers xs s t (operands ++ Passage.exprsAll (r.content a)) := by
  have hhanded : r.Handed m := by
    cases r <;> trivial
  obtain ⟨ht, hpost⟩ := ih.call r (hr ▸ Holds.nil m) hhanded h.grips hp
  have hcarries := hpost.carries
  rw [hr] at hcarries
  refine ⟨ht, h.le.trans hcarries.le, ?_⟩
  rw [hcarries.pending m.pending rfl, h.pending, List.reverse_append, List.append_assoc]

/-- An operator before its operand, or an operand with what trails it. -/
theorem unary {s t : State} {e : Tree} (hs : Grips xs s)
    (hp : Grammar.unary.exec (Rule.run d) s = .accepted e t) : Grips xs t := by
  rcases exec_unary_accepted.1 hp with
    ⟨-, operand, m, hoperand, htree⟩ | ⟨-, object, m, hobject, hmore⟩
  · cases htree
    obtain ⟨hm, hpost⟩ := ih.call .unary (.nil _) trivial hs.shift hoperand
    exact hm.build (hpost.carries.pending _ rfl) trivial
  · obtain ⟨hm, hpost⟩ := ih.call .primary (.nil _) trivial hs hobject
    have hheld := hpost.carries.pending _ rfl
    exact (ih.call (.suffixes object) ⟨_, hheld⟩ (last_of_primary hobject) hm hmore).1

/-- What trails an operand begins on its line, and what has been read of it is part of the tree. -/
theorem trails {object : Tree} {s m : State} {f : Extent Nat → Tree}
    (hlast : object.note.last + 1 = s.passed) (hs : Grips xs s)
    (h : Trails (Rule.run d) object s f m) :
    ∃ operands, Gathers xs s m operands ∧
      ∀ X, (f X).children = object :: operands ∧ Gripped xs (f X) := by
  have hstart := Gathers.refl hs
  have hbehind : s.next.kind ≠ .endOfInput → xs[object.note.last + 1]? = some s.next :=
    fun hx => hlast ▸ State.next?_of_drop hs.rest hx
  cases h with
  | member _ hname =>
    obtain ⟨-, -, rfl⟩ := exec_expect_accepted.1 hname
    exact ⟨[], hstart.shift.shift, fun _ => ⟨rfl, trivial⟩⟩
  | unsized => exact ⟨[], hstart.shift.shift, fun _ => ⟨rfl, trivial⟩⟩
  | index _ _ hposition hclosing =>
    obtain ⟨-, -, rfl⟩ := exec_expect_accepted.1 hclosing
    exact ⟨_, (ih.gathers hstart.shift rfl hposition).shift, fun _ => ⟨rfl, trivial⟩⟩
  | call hparen hline harguments hclosing =>
    refine ⟨_, (ih.gathers hstart.shift rfl harguments).orMissing hclosing, fun X => ⟨?_, ?_⟩⟩
    · simp [Expr.children, Rule.content]
    · exact ⟨s.next, hbehind (by rw [hparen]; decide), hparen, hline⟩
  | operator hop hline =>
    refine ⟨[], hstart.shift, fun X => ⟨rfl, ?_⟩⟩
    exact ⟨s.next, hbehind (by rw [Symbol.kind_of_plays hop]; decide), hop, rfl, hline⟩

/-- What is built of the object and of what trails it goes on as the object. -/
theorem suffixes {object : Tree} {s t : State} {e : Tree} (hholds : Holds [.expr object] s)
    (hlast : object.note.last + 1 = s.passed) (hs : Grips xs s)
    (hp : (Grammar.suffixes object).exec (Rule.run d) s = .accepted e t) : Grips xs t := by
  obtain ⟨base, hbase⟩ := hholds
  rcases exec_suffixes_accepted.1 hp with
    ⟨f, m, htrails, tree, m', htree, hmore⟩ | ⟨-, rfl, rfl⟩
  · cases htree
    obtain ⟨operands, hm, hf⟩ := ih.trails hlast hs htrails
    obtain ⟨hchildren, hgripped⟩ := hf ⟨object.note.first, m.passed - 1⟩
    have hpending : m.pending =
        (f ⟨object.note.first, m.passed - 1⟩).children.reverse ++ base := by
      rw [hm.pending, hbase, hchildren]
      simp
    refine (ih.call (.suffixes _) ⟨base, ?_⟩ ?_ (hm.grips.build hpending hgripped) hmore).1
    · rw [State.build, hpending, List.drop_left' List.length_reverse]
      rfl
    · have hle := hm.le
      change (f ⟨object.note.first, m.passed - 1⟩).note.last + 1 = m.passed
      rw [htrails.note]
      simp only
      omega
  · exact hs

end Keeps

/-- Every run of a rule keeps pending expressions on their lines, by induction on the depth of
calls. -/
theorem Rule.keeps (xs : List Symbol) (d : Nat) : Keeps xs d := by
  induction d with
  | zero =>
    intro r s t a hholds hhanded hs hp
    cases hp
  | succ d ih =>
    intro r s t a hholds hhanded hs hp
    have hconfined := r.confined
    have hsafe := r.safe s hholds
    cases r with
    | unary => exact ih.unary hs hp
    | suffixes object => exact ih.suffixes hholds hhanded hs hp
    | _ => exact ih.plain hconfined (fun _ => Rule.grips_of_builds rfl) (fun _ hr => hr) hsafe hs hp

end Grammar

end ShaderRepair

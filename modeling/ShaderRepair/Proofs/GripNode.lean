import ShaderRepair.Proofs.Grip
import ShaderRepair.Proofs.Operand

/-!
# Nodes on one line

The value of a return statement starts on the line of the keyword, and what a struct or an interface
block declares starts on the line of its closing brace. This file contains:
- `Bound`, which says so of one node;
- `Yields`, what a procedure can produce, with one rule for each way to go on;
- `Rule.yields`, that every run of a rule produces such nodes.
-/

namespace ShaderRepair

namespace Grammar

open Procedure

variable {α β : Type} {xs : List Symbol}

/-! ## Nodes -/

/-- The symbol `i` stands behind a closing brace, and no line break between them. -/
def Attached (xs : List Symbol) (i : Nat) : Prop :=
  ∃ j brace x, i = j + 1 ∧ xs[j]? = some brace ∧ brace.kind = .rightBrace ∧
    xs[j + 1]? = some x ∧ x.broken = false

/-- If the node is a return statement with a value or a block with instances, these begin on the
line of the symbol before them. -/
def Bound (xs : List Symbol) : Item → Prop
  | .return X (some value) => value.note.first = X.first + 1 ∧
    ∃ keyword x, xs[X.first]? = some keyword ∧ keyword.kind = .return ∧
      xs[X.first + 1]? = some x ∧ x.broken = false
  | .struct _ _ _ _ (d :: _) => Attached xs d.name.mark
  | .interface _ _ _ _ (d :: _) => Attached xs d.name.mark
  | _ => True

/-- So are all nodes inside a node. -/
def BoundWithin (xs : List Symbol) (n : Item) : Prop :=
  ∀ n' ∈ n.within, Bound xs n'

theorem boundWithin_inspectAll {body : List Item} (h : ∀ n ∈ body, BoundWithin xs n) :
    ∀ n' ∈ Node.inspectAll (fun _ => true) body, Bound xs n' := by
  induction body with
  | nil =>
    intro n' hn'
    cases hn'
  | cons n body ih =>
    intro n' hn'
    rcases List.mem_append.1 hn' with hn' | hn'
    · exact h n List.mem_cons_self n' hn'
    · exact ih (fun m hm => h m (List.mem_cons_of_mem _ hm)) n' hn'

theorem boundWithin_inspectCases {cs : List (Case Nat Tree)}
    (h : ∀ c ∈ cs, ∀ n ∈ c.body, BoundWithin xs n) :
    ∀ n' ∈ Node.inspectCases (fun _ => true) cs, Bound xs n' := by
  induction cs with
  | nil =>
    intro n' hn'
    cases hn'
  | cons c cs ih =>
    intro n' hn'
    obtain ⟨X, label, body⟩ := c
    rcases List.mem_append.1 hn' with hn' | hn'
    · exact boundWithin_inspectAll (h _ List.mem_cons_self) n' hn'
    · exact ih (fun c hc => h c (List.mem_cons_of_mem _ hc)) n' hn'

namespace BoundWithin

variable {X Y : Extent Nat} {n yes no : Item} {body : List Item}

/-- A node without others inside it. -/
theorem leaf (hwithin : n.within = [n]) (h : Bound xs n) : BoundWithin xs n := by
  intro n' hn'
  rw [hwithin, List.mem_singleton] at hn'
  exact hn' ▸ h

theorem function {sig : Signature Nat Tree} (h : ∀ n ∈ body, BoundWithin xs n) :
    BoundWithin xs (.function X sig Y body) := by
  intro n' hn'
  rcases List.mem_cons.1 hn' with rfl | hn'
  · trivial
  rcases List.mem_cons.1 hn' with rfl | hn'
  · trivial
  · exact boundWithin_inspectAll h n' hn'

theorem block (h : ∀ n ∈ body, BoundWithin xs n) : BoundWithin xs (.block X body) := by
  intro n' hn'
  rcases List.mem_cons.1 hn' with rfl | hn'
  · trivial
  · exact boundWithin_inspectAll h n' hn'

theorem ifThen {c : Tree} (h : BoundWithin xs yes) : BoundWithin xs (.ifThen X c yes) := by
  intro n' hn'
  rcases List.mem_cons.1 hn' with rfl | hn'
  · trivial
  · exact h n' hn'

theorem ifElse {c : Tree} (h : BoundWithin xs yes) (h' : BoundWithin xs no) :
    BoundWithin xs (.ifElse X c yes no) := by
  intro n' hn'
  rcases List.mem_cons.1 hn' with rfl | hn'
  · trivial
  rcases List.mem_append.1 hn' with hn' | hn'
  · exact h n' hn'
  · exact h' n' hn'

theorem switch {e : Tree} {cs : List (Case Nat Tree)}
    (h : ∀ c ∈ cs, ∀ n ∈ c.body, BoundWithin xs n) : BoundWithin xs (.switch X e cs) := by
  intro n' hn'
  rcases List.mem_cons.1 hn' with rfl | hn'
  · trivial
  · exact boundWithin_inspectCases h n' hn'

theorem forLoop {init : ForInit Nat Tree} {c u : Option Tree} (h : BoundWithin xs n) :
    BoundWithin xs (.forLoop X init c u n) := by
  intro n' hn'
  rcases List.mem_cons.1 hn' with rfl | hn'
  · trivial
  rcases List.mem_append.1 hn' with hn' | hn'
  · cases init with
    | none => cases hn'
    | vars Y v =>
      rw [List.mem_singleton.1 hn']
      trivial
    | expression Y e =>
      rw [List.mem_singleton.1 hn']
      trivial
  · exact h n' hn'

theorem whileLoop {c : Tree} (h : BoundWithin xs n) : BoundWithin xs (.whileLoop X c n) := by
  intro n' hn'
  rcases List.mem_cons.1 hn' with rfl | hn'
  · trivial
  · exact h n' hn'

theorem doWhile {c : Tree} (h : BoundWithin xs n) : BoundWithin xs (.doWhile X n c) := by
  intro n' hn'
  rcases List.mem_cons.1 hn' with rfl | hn'
  · trivial
  · exact h n' hn'

end BoundWithin

/-- What the nodes in a result are. -/
def Rule.Binds (xs : List Symbol) : (r : Rule) → r.Result → Prop
  | .item, n => BoundWithin xs n
  | .statement, n => BoundWithin xs n
  | .items _, ns => ∀ n ∈ ns, BoundWithin xs n
  | .cases, cs => ∀ c ∈ cs, ∀ n ∈ c.body, BoundWithin xs n
  | _, _ => True

/-! ## What a procedure produces -/

/-- An expression begins with the first symbol passed. -/
theorem first_of_expression {d : Nat} {s t : State} {e : Tree}
    (h : (run .expression).exec (Rule.run d) s = .accepted e t) : e.note.first = s.passed := by
  cases d with
  | zero => cases h
  | succ d =>
    rw [exec_run_succ] at h
    change Grammar.expression.exec (Rule.run d) s = _ at h
    obtain ⟨first, m, hfirst, h⟩ := exec_bind_accepted.1 h
    obtain ⟨x, m', -, h⟩ := exec_bind_accepted.1 h
    have hnote := ((operands d).assignment hfirst).1
    split at h
    · obtain ⟨more, m'', -, h⟩ := exec_bind_accepted.1 h
      cases h
      exact hnote
    · cases h
      exact hnote

/-- The first declared name is the first symbol passed. -/
theorem first_of_declarators {d : Nat} {s t : State} {ds more : List (Declarator Nat Tree)}
    {declarator : Declarator Nat Tree}
    (h : (run .declarators).exec (Rule.run d) s = .accepted ds t) (hds : ds = declarator :: more) :
    declarator.name.mark = s.passed := by
  cases d with
  | zero => cases h
  | succ d =>
    rw [exec_run_succ] at h
    change Grammar.declarators.exec (Rule.run d) s = _ at h
    simp only [Grammar.declarators, exec_bind_accepted, exec_expect_accepted] at h
    obtain ⟨name, m, ⟨-, rfl, rfl⟩, dims, m₁, -, b, m₂, -, h⟩ := h
    split at h
    · obtain ⟨ds', m₃, -, h⟩ := exec_bind_accepted.1 h
      cases h
      cases hds
      rfl
    · cases h
      cases hds
      rfl

/-- Started before the symbol `x`, the procedure produces what has the property. -/
def Yields (xs : List Symbol) (d : Nat) (x : Symbol) (p : Procedure α) (P : α → Prop) : Prop :=
  ∀ ⦃s t : State⦄ ⦃a : α⦄, s.rest = xs.drop s.passed → s.next = x →
    p.exec (Rule.run d) s = .accepted a t → P a

namespace Yields

variable {d : Nat} {x : Symbol} {P : α → Prop}

theorem done {a : α} (h : P a) : Yields xs d x (.done a) P := by
  intro s t b hs hx hp
  cases hp
  exact h

theorem pure {a : α} (h : P a) : Yields xs d x (Pure.pure a) P :=
  done h

theorem reject {index : Nat} {expected : List Expectation} :
    Yields xs d x (.reject index expected : Procedure α) P := by
  intro s t a hs hx hp
  cases hp

theorem bind {p : Procedure β} {k : β → Procedure α} {P' : β → Prop} (h : Yields xs d x p P')
    (hk : ∀ b y, P' b → Yields xs d y (k b) P) : Yields xs d x (p >>= k) P := by
  intro s t a hs hx hp
  obtain ⟨b, m, hb, ha⟩ := exec_bind_accepted.1 hp
  obtain ⟨w, R, hw⟩ := Procedure.run_advances hb
  exact hk b m.next (h hs hx hb) (hw.drop hs) rfl ha

/-- What comes first does not matter. -/
theorem skip {p : Procedure β} {k : β → Procedure α} (hk : ∀ b y, Yields xs d y (k b) P) :
    Yields xs d x (p >>= k) P := by
  have hp : Yields xs d x p fun _ => True := fun _ _ _ _ _ _ => trivial
  exact hp.bind fun b y _ => hk b y

theorem next {k : Symbol → Procedure α} (h : Yields xs d x (k x) P) :
    Yields xs d x (Procedure.next >>= k) P := by
  intro s t a hs hx hp
  subst hx
  exact h hs rfl hp

theorem position {k : Nat → Procedure α} (h : ∀ i, Yields xs d x (k i) P) :
    Yields xs d x (Procedure.position >>= k) P :=
  fun s _ _ hs hx hp => h s.passed hs hx hp

/-! ### Blocks with instances -/

/-- What is declared behind a closing brace begins on its line. -/
theorem instances {k : List (Member Nat Tree) → List (Declarator Nat Tree) → Procedure α}
    (hk : ∀ ms ds y, (∀ d more, ds = d :: more → Attached xs d.name.mark) →
      Yields xs d y (k ms ds) P) :
    Yields xs d x (memberList >>= fun ms => Grammar.instances >>= fun ds => k ms ds) P := by
  intro s t a hs hx hp
  obtain ⟨ms, m, hms, hp⟩ := exec_bind_accepted.1 hp
  obtain ⟨ds, m', hds, hp⟩ := exec_bind_accepted.1 hp
  obtain ⟨w, R, hw⟩ := Procedure.run_advances hms
  obtain ⟨w', R', hw'⟩ := Procedure.run_advances hds
  have hm := hw.drop hs
  refine hk ms ds m'.next (fun d' more hds' => ?_) (hw'.drop hm) rfl hp
  -- The brace is the symbol passed last.
  simp only [memberList, exec_bind_accepted, exec_expect_accepted, exec_pure,
    Outcome.accepted.injEq] at hms
  obtain ⟨opening, m₁, ⟨-, -, rfl⟩, ms', m₂, hmembers, brace, m₃, ⟨hbrace, -, rfl⟩, -, rfl⟩ := hms
  have hkind := kind_of_expected hbrace
  obtain ⟨w₁, R₁, hw₁⟩ := Procedure.run_advances hmembers
  have hm₂ : m₂.rest = xs.drop m₂.passed := by
    rcases s.shift_cases with hshift | ⟨hsame, -⟩
    · exact hw₁.drop (hshift.drop hs)
    · exact hw₁.drop (hsame.symm ▸ hs)
  have hpassed : m₂.shift.passed = m₂.passed + 1 :=
    Reaches.passed_shift ⟨by rw [hkind]; decide, by rw [hkind]; decide⟩
  -- So the name is the symbol behind it.
  simp only [Grammar.instances, exec_bind_accepted, exec_next, Outcome.accepted.injEq] at hds
  obtain ⟨x, m, ⟨rfl, rfl⟩, hds⟩ := hds
  split at hds
  · next hname =>
    simp only [Bool.and_eq_true, decide_eq_true_eq, Bool.not_eq_true'] at hname
    refine ⟨m₂.passed, m₂.next, m₂.shift.next, ?_, ?_, hkind, ?_, hname.2⟩
    · rw [first_of_declarators hds hds', hpassed]
    · exact State.next?_of_drop hm₂ (by rw [hkind]; decide)
    · rw [← hpassed]
      exact State.next?_of_drop hm (by rw [hname.1]; decide)
  · cases hds
    cases hds'

/-! ### Return statements -/

/-- The value of a return statement begins with the symbol behind the keyword. -/
theorem returnStatement (hx : x.kind = .return) :
    Yields xs d x Grammar.returnStatement (BoundWithin xs) := by
  intro s t n hs hnext hp
  have hkind : s.next.kind = .return := hnext ▸ hx
  have hpassed : s.shift.passed = s.passed + 1 :=
    Reaches.passed_shift ⟨by rw [hkind]; decide, by rw [hkind]; decide⟩
  have hshift : s.shift.rest = xs.drop s.shift.passed := by
    rcases s.shift_cases with hshift | ⟨hsame, -⟩
    · exact hshift.drop hs
    · exact hsame.symm ▸ hs
  -- What comes behind the value.
  have hmore : ∀ (value : Option Tree) {m : State}, (∀ X, X.first = s.passed →
      Bound xs (.return X value)) →
      (Procedure.statementEnd >>= fun _ => Procedure.extentFrom s.passed >>= fun X =>
        (Pure.pure (Node.return X value) : Procedure Item)).exec (Rule.run d) m = .accepted n t →
      BoundWithin xs n := by
    intro value m hbound hm
    obtain ⟨u, m', -, hm⟩ := exec_bind_accepted.1 hm
    obtain ⟨X, m'', hX, hm⟩ := exec_bind_accepted.1 hm
    cases hX
    cases hm
    exact .leaf rfl (hbound _ rfl)
  simp only [Grammar.returnStatement] at hp
  obtain ⟨first, m, hfirst, hp⟩ := exec_bind_accepted.1 hp
  cases hfirst
  obtain ⟨y, m, hy, hp⟩ := exec_bind_accepted.1 hp
  cases hy
  split at hp
  · exact hmore none (fun _ _ => trivial) hp
  · exact hmore none (fun _ _ => trivial) hp
  · exact hmore none (fun _ _ => trivial) hp
  · next hend =>
    split at hp
    · exact hmore none (fun _ _ => trivial) hp
    · next hbroken =>
      obtain ⟨value, m, hvalue, hp⟩ := exec_bind_accepted.1 hp
      rw [map_eq_pure_bind] at hvalue
      obtain ⟨e, m', he, hpure⟩ := exec_bind_accepted.1 hvalue
      cases hpure
      refine hmore (some e) (fun X hX => ⟨?_, s.next, s.shift.next, ?_, hkind, ?_, ?_⟩) hp
      · rw [hX, ← hpassed]
        exact first_of_expression he
      · rw [hX]
        exact State.next?_of_drop hs (by rw [hkind]; decide)
      · rw [hX, ← hpassed]
        exact State.next?_of_drop hshift (by assumption)
      · exact Bool.eq_false_iff.2 hbroken

/-! ### Declarations -/

/-- A node without others inside it, made at the end. -/
theorem leaf {first : Nat} {node : Extent Nat → Item} (hwithin : ∀ X, (node X).within = [node X])
    (hbound : ∀ X, Bound xs (node X)) :
    Yields xs d x (Procedure.extentFrom first >>= fun X => Pure.pure (node X)) (BoundWithin xs) :=
  skip fun X _ => pure (.leaf (hwithin X) (hbound X))

theorem struct_yields (first : Nat) (quals : Qualifiers Nat Tree) :
    Yields xs d x (Grammar.struct first quals) (BoundWithin xs) := by
  have hmore : ∀ (name : Option (Name Nat)) (y : Symbol), Yields xs d y (do
      let ms ← memberList
      let ds ← Grammar.instances
      Procedure.statementEnd
      return Node.struct (← Procedure.extentFrom first) quals name ms ds : Procedure Item)
      (BoundWithin xs) := by
    refine fun name y => instances fun ms ds z hds => skip fun _ _ => ?_
    refine leaf (fun _ => rfl) fun X => ?_
    cases ds with
    | nil => trivial
    | cons d more => exact hds d more rfl
  refine skip fun _ y => next ?_
  split
  · exact skip fun name z => hmore name z
  · exact hmore none y

theorem interface_yields (first : Nat) (quals : Qualifiers Nat Tree) :
    Yields xs d x (interface first quals) (BoundWithin xs) := by
  refine skip fun _ y => instances fun ms ds z hds => skip fun _ _ => ?_
  refine leaf (fun _ => rfl) fun X => ?_
  cases ds with
  | nil => trivial
  | cons d more => exact hds d more rfl

theorem precision_yields : Yields xs d x Grammar.precision (BoundWithin xs) := by
  refine skip fun _ y => next (skip fun _ z => ?_)
  split
  · exact skip fun _ _ => skip fun _ _ => leaf (fun _ => rfl) fun _ => trivial
  · exact reject

/-! ### Rules that read items -/

variable (h : ∀ r y, Yields xs d y (run r) (r.Binds xs))
include h

theorem block_yields : Yields xs d x Grammar.block fun b => ∀ n ∈ b.2, BoundWithin xs n := by
  refine skip fun _ y => (h (.items .brace) y).bind fun body z hbody => ?_
  exact skip fun _ _ => skip fun _ _ => pure hbody

theorem function_yields (first : Nat) (quals : Qualifiers Nat Tree) (result : TypeSpec Nat Tree)
    (name : Name Nat) : Yields xs d x (function first quals result name) (BoundWithin xs) := by
  refine skip fun _ _ => skip fun _ _ => skip fun _ y => next ?_
  split
  · exact (block_yields h).bind fun b z hb => skip fun X _ => pure (.function hb)
  · exact skip fun _ _ => leaf (fun _ => rfl) fun _ => trivial

theorem typed_yields (first : Nat) (quals : Qualifiers Nat Tree) :
    Yields xs d x (typed first quals) (BoundWithin xs) := by
  refine skip fun _ _ => skip fun _ y => next ?_
  split
  · exact function_yields h _ _ _ _
  · exact skip fun _ _ => skip fun _ _ => leaf (fun _ => rfl) fun _ => trivial

theorem qualified_yields : Yields xs d x qualified (BoundWithin xs) := by
  refine position fun first => skip fun quals y => next ?_
  split
  · exact struct_yields first quals
  · exact skip fun _ _ => leaf (fun _ => rfl) fun _ => trivial
  · refine skip fun z y => ?_
    split
    · exact interface_yields first quals
    · exact skip fun _ _ => skip fun _ _ => leaf (fun _ => rfl) fun _ => trivial
    · exact skip fun _ _ => skip fun _ _ => leaf (fun _ => rfl) fun _ => trivial
    · exact typed_yields h first quals
  · exact position fun _ => reject

theorem ifStatement_yields : Yields xs d x ifStatement (BoundWithin xs) := by
  refine skip fun _ _ => skip fun _ y => (h .statement y).bind fun yes z hyes => skip fun b v => ?_
  split
  · exact (h .statement v).bind fun no _ hno => skip fun _ _ => pure (.ifElse hyes hno)
  · exact skip fun _ _ => pure (.ifThen hyes)

theorem cases_yields : Yields xs d x Grammar.cases (Rule.Binds xs .cases) := by
  have hmore : ∀ (word : Name Nat) (label : Option Tree) (y : Symbol), Yields xs d y (do
      Procedure.colon
      let body ← run (.items .label)
      let c := Case.mk (← Procedure.extentFrom word.mark) label body
      return c :: (← run .cases)) (Rule.Binds xs .cases) := by
    refine fun word label y => skip fun _ z => (h (.items .label) z).bind fun body v hbody => ?_
    refine skip fun X u => (h .cases u).bind fun cs _ hcs => pure fun c hc => ?_
    rcases List.mem_cons.1 hc with rfl | hc
    · exact hbody
    · exact hcs c hc
  refine next ?_
  split
  · exact pure fun c hc => nomatch hc
  · exact pure fun c hc => nomatch hc
  · refine skip fun word y => ?_
    split
    · exact skip fun label z => hmore word label z
    · exact hmore word none y

theorem switchStatement_yields : Yields xs d x switchStatement (BoundWithin xs) := by
  refine skip fun _ _ => skip fun _ _ => skip fun _ y => (h .cases y).bind fun cs _ hcs => ?_
  exact skip fun _ _ => skip fun _ _ => pure (.switch hcs)

theorem whileStatement_yields : Yields xs d x whileStatement (BoundWithin xs) := by
  refine skip fun _ _ => skip fun _ y => (h .statement y).bind fun body _ hbody => ?_
  exact skip fun _ _ => pure (.whileLoop hbody)

theorem doStatement_yields : Yields xs d x doStatement (BoundWithin xs) := by
  refine skip fun _ y => (h .statement y).bind fun body _ hbody => ?_
  exact skip fun _ _ => skip fun _ _ => skip fun _ _ => skip fun _ _ => pure (.doWhile hbody)

theorem forStatement_yields : Yields xs d x forStatement (BoundWithin xs) := by
  refine skip fun _ _ => skip fun _ _ => skip fun _ _ => skip fun _ _ => skip fun _ y => ?_
  exact (h .statement y).bind fun body _ hbody => skip fun _ _ => pure (.forLoop hbody)

omit h in
theorem wordStatement_yields {node : Extent Nat → Item}
    (hwithin : ∀ X, (node X).within = [node X]) (hbound : ∀ X, Bound xs (node X)) :
    Yields xs d x (wordStatement node) (BoundWithin xs) := by
  exact skip fun _ _ => skip fun _ _ => leaf hwithin hbound

theorem statement_yields : Yields xs d x Grammar.statement (BoundWithin xs) := by
  have hmore : ∀ (first : Nat) (y : Symbol), Yields xs d y (do
      let e ← run .expression
      Procedure.statementEnd
      return Node.expression (← Procedure.extentFrom first) e : Procedure Item)
      (BoundWithin xs) :=
    fun _ _ => skip fun _ _ => skip fun _ _ => leaf (fun _ => rfl) fun _ => trivial
  refine position fun first => next ?_
  split
  · exact (block_yields h).bind fun b _ hb => pure (.block hb)
  · exact ifStatement_yields h
  · exact switchStatement_yields h
  · exact forStatement_yields h
  · exact whileStatement_yields h
  · exact doStatement_yields h
  · next hkind => exact returnStatement hkind
  · exact wordStatement_yields (fun _ => rfl) fun _ => trivial
  · exact wordStatement_yields (fun _ => rfl) fun _ => trivial
  · exact wordStatement_yields (fun _ => rfl) fun _ => trivial
  · exact skip fun _ _ => leaf (fun _ => rfl) fun _ => trivial
  · exact hmore first x

theorem item_yields : Yields xs d x Grammar.item (BoundWithin xs) := by
  refine position fun first => next ?_
  split
  · exact precision_yields
  · exact qualified_yields h
  · exact qualified_yields h
  · exact struct_yields first _
  · refine skip fun declaration y => ?_
    split
    · exact typed_yields h first _
    · exact h .statement y
  · exact h .statement x

theorem items_yields (stop : Stop) :
    Yields xs d x (Grammar.items stop) (Rule.Binds xs (.items stop)) := by
  refine next ?_
  split
  · exact pure fun n hn => nomatch hn
  · refine (h .item x).bind fun n y hn => (h (.items stop) y).bind fun ns _ hns => ?_
    refine pure fun m hm => ?_
    rcases List.mem_cons.1 hm with rfl | hm
    · exact hn
    · exact hns m hm

end Yields

/-- Every run of a rule produces nodes that begin on their lines, by induction on the depth of
calls. -/
theorem Rule.yields (xs : List Symbol) (d : Nat) (r : Rule) (x : Symbol) :
    Yields xs d x (Procedure.run r) (r.Binds xs) := by
  induction d generalizing r x with
  | zero =>
    intro s t a hs hx hp
    cases hp
  | succ d ih =>
    have hbody : Yields xs d x r.body (r.Binds xs) := by
      cases r with
      | item => exact .item_yields ih
      | items stop => exact .items_yields ih stop
      | statement => exact .statement_yields ih
      | cases => exact .cases_yields ih
      | _ => exact fun _ _ _ _ _ _ => trivial
    intro s t a hs hx hp
    rw [exec_run_succ] at hp
    exact hbody hs hx hp

end Grammar

end ShaderRepair

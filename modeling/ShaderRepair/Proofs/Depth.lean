import ShaderRepair.Proofs.RetraceStatement

/-!
# The depth of calls

Between two symbols that are passed, calls nest only as deep as the grammar has rules below each
other. A bound that grows with the symbols left is therefore never met. This file contains:
- `Rule.rank`, which falls along the calls that a rule makes before it passes a symbol, and
  `Rule.load`, which falls along all calls;
- `Procedure.Within`, which says that the calls of a run stay below a load, and its rules;
- `Rule.within`, which says so of every rule;
- `Rule.run_eq_of_load`, which says that more depth than the load changes nothing, and
  `item?_of_run`.
-/

namespace ShaderRepair

namespace Grammar

open Procedure

variable {α β : Type} {callee callee' : (r : Rule) → State → Outcome r.Result}

/-! ## Loads -/

/-- How deep calls can nest below a rule before a symbol is passed. -/
def Rule.rank : Rule → Nat
  | .items _ => 18
  | .item => 17
  | .statement | .elements => 16
  | .expression | .arguments | .initializer => 15
  | .assignment => 14
  | .conditional => 13
  | .binary level => 12 - level.rank
  | .unary | .vars _ _ | .members | .params => 1
  | _ => 0

theorem Rule.rank_lt (r : Rule) : r.rank < callsPerSymbol := by
  cases r <;> simp only [Rule.rank, callsPerSymbol] <;> omega

/-- A symbol left weighs more than any rank. -/
def Rule.load (r : Rule) (s : State) : Nat :=
  s.rest.length * callsPerSymbol + r.rank

theorem Rule.load_lt {r r' : Rule} {s t : State} (hr : r.rank < r'.rank)
    (h : t.rest.length ≤ s.rest.length) : r.load t < r'.load s := by
  have hle : t.rest.length * callsPerSymbol ≤ s.rest.length * callsPerSymbol :=
    Nat.mul_le_mul_right _ h
  simp only [Rule.load]
  omega

/-! ## Runs never go back -/

theorem State.length_shift_le (s : State) : s.shift.rest.length ≤ s.rest.length := by
  unfold State.shift
  split
  · exact Nat.le_refl _
  · next symbol more h =>
    rw [h]
    exact Nat.le_succ _

theorem State.length_shift_lt {s : State} (h : Passable s.next) :
    s.shift.rest.length < s.rest.length := by
  obtain ⟨more, hrest⟩ := State.rest_of_next rfl h.2
  rw [State.shift_of_rest hrest, hrest]
  exact Nat.lt_succ_self _

theorem State.length_skipSemicolons_le (s : State) :
    s.skipSemicolons.rest.length ≤ s.rest.length := by
  simp [State.skipSemicolons]

/-- The callees leave no more symbols than they found. -/
def Recedes (callee : (r : Rule) → State → Outcome r.Result) : Prop :=
  ∀ ⦃r s a t⦄, callee r s = .accepted a t → t.rest.length ≤ s.rest.length

theorem Recedes.exec (h : Recedes callee) (p : Procedure α) {s t : State} {a : α}
    (hp : p.exec callee s = .accepted a t) : t.rest.length ≤ s.rest.length := by
  induction p generalizing s with
  | done b =>
    cases hp
    exact Nat.le_refl _
  | look k ih => exact ih _ _ hp
  | ahead k ih => exact ih _ hp
  | here k ih => exact ih _ hp
  | shift k ih => exact Nat.le_trans (ih hp) s.length_shift_le
  | skipSemicolons k ih => exact Nat.le_trans (ih hp) s.length_skipSemicolons_le
  | repair m k ih => exact ih (s := s.repair m) hp
  | build e k ih => exact ih (s := s.build e) hp
  | widen e k ih => exact ih (s := s.widen e) hp
  | reject n expected => cases hp
  | call r k ih =>
    rw [Procedure.exec] at hp
    cases hc : callee r s with
    | accepted b m =>
      rw [hc] at hp
      exact Nat.le_trans (ih b hp) (h hc)
    | rejected why m =>
      rw [hc] at hp
      cases hp

theorem recedes_run (d : Nat) : Recedes (Rule.run d) := by
  induction d with
  | zero =>
    intro r s a t h
    cases h
  | succ d ih => exact fun r s a t h => ih.exec r.body h

/-! ## Calls below a load -/

/-- Every call that the procedure makes from a state on has a load below `n`. -/
def Procedure.Within (callee : (r : Rule) → State → Outcome r.Result) (n : Nat) :
    Procedure α → State → Prop
  | .done _, _ => True
  | .look k, s => (k s.next s.second).Within callee n s
  | .ahead k, s => (k (Symbol.startsDeclaration s.rest)).Within callee n s
  | .here k, s => (k s.passed).Within callee n s
  | .shift k, s => k.Within callee n s.shift
  | .skipSemicolons k, s => k.Within callee n s.skipSemicolons
  | .repair missing k, s => k.Within callee n (s.repair missing)
  | .build e k, s => k.Within callee n (s.build e)
  | .widen e k, s => k.Within callee n (s.widen e)
  | .reject _ _, _ => True
  | .call r k, s => r.load s < n ∧ ∀ a t, callee r s = .accepted a t → (k a).Within callee n t

namespace Procedure.Within

variable {n : Nat} {s : State}

/-- Callees that agree below the load are exchangeable. -/
theorem exec_congr {p : Procedure α} (h : p.Within callee n s)
    (hsame : ∀ r t, r.load t < n → callee' r t = callee r t) :
    p.exec callee' s = p.exec callee s := by
  induction p generalizing s with
  | done a => rfl
  | look k ih => exact ih _ _ h
  | ahead k ih => exact ih _ h
  | here k ih => exact ih _ h
  | shift k ih => exact ih h
  | skipSemicolons k ih => exact ih h
  | repair m k ih => exact ih h
  | build e k ih => exact ih h
  | widen e k ih => exact ih h
  | reject index expected => rfl
  | call r k ih =>
    obtain ⟨hload, hmore⟩ := h
    rw [Procedure.exec, Procedure.exec, hsame r s hload]
    cases hc : callee r s with
    | accepted a t => exact ih a (hmore a t hc)
    | rejected why t => rfl

theorem bind {p : Procedure α} {f : α → Procedure β} (hp : p.Within callee n s)
    (hf : ∀ a t, p.exec callee s = .accepted a t → (f a).Within callee n t) :
    (p >>= f).Within callee n s := by
  change (p.bind f).Within callee n s
  induction p generalizing s with
  | done a => exact hf a s rfl
  | look k ih => exact ih _ _ hp hf
  | ahead k ih => exact ih _ hp hf
  | here k ih => exact ih _ hp hf
  | shift k ih => exact ih hp hf
  | skipSemicolons k ih => exact ih hp hf
  | repair m k ih => exact ih hp hf
  | build e k ih => exact ih hp hf
  | widen e k ih => exact ih hp hf
  | reject index expected => trivial
  | call r k ih =>
    refine ⟨hp.1, ?_⟩
    intro a t hc
    refine ih a (hp.2 a t hc) ?_
    intro b u hb
    refine hf b u ?_
    rw [Procedure.exec, hc]
    exact hb

theorem next {f : Symbol → Procedure α} (h : (f s.next).Within callee n s) :
    (Procedure.next >>= f).Within callee n s :=
  h

theorem second {f : Symbol → Procedure α} (h : (f s.second).Within callee n s) :
    (Procedure.second >>= f).Within callee n s :=
  h

theorem ahead {f : Bool → Procedure α}
    (h : (f (Symbol.startsDeclaration s.rest)).Within callee n s) :
    (Procedure.ahead .done >>= f).Within callee n s :=
  h

/-- Where the load of one more symbol would be allowed, any procedure may be run. -/
theorem free (hcallee : Recedes callee) (p : Procedure α)
    (h : (s.rest.length + 1) * callsPerSymbol ≤ n) : p.Within callee n s := by
  -- There is room for one more symbol wherever the run comes to, since it never goes back.
  have hmono : ∀ {s t : State}, t.rest.length ≤ s.rest.length →
      (s.rest.length + 1) * callsPerSymbol ≤ n → (t.rest.length + 1) * callsPerSymbol ≤ n :=
    fun ht h => Nat.le_trans (Nat.mul_le_mul_right _ (Nat.succ_le_succ ht)) h
  induction p generalizing s with
  | done a => trivial
  | look k ih => exact ih _ _ h
  | ahead k ih => exact ih _ h
  | here k ih => exact ih _ h
  | shift k ih => exact ih (hmono s.length_shift_le h)
  | skipSemicolons k ih => exact ih (hmono s.length_skipSemicolons_le h)
  | repair m k ih => exact ih (s := s.repair m) h
  | build e k ih => exact ih (s := s.build e) h
  | widen e k ih => exact ih (s := s.widen e) h
  | reject index expected => trivial
  | call r k ih =>
    refine ⟨?_, ?_⟩
    · have hrank := r.rank_lt
      rw [Nat.add_mul, Nat.one_mul] at h
      unfold Rule.load
      omega
    · exact fun a t hc => ih a (hmono (hcallee hc) h)

/-! ### Steps of a rule

A rule `r` that started in the state `s₀` has come to `s`. As soon as it passes a symbol it may call
whatever it likes. -/

variable {d : Nat} {r : Rule} {s₀ : State}

theorem of_lt (p : Procedure α) (h : s.rest.length < s₀.rest.length) :
    p.Within (Rule.run d) (r.load s₀) s := by
  refine free (recedes_run d) p ?_
  have hle : (s.rest.length + 1) * callsPerSymbol ≤ s₀.rest.length * callsPerSymbol :=
    Nat.mul_le_mul_right _ h
  unfold Rule.load
  omega

section Steps

variable (hs : s.rest.length ≤ s₀.rest.length)
include hs

theorem shift (p : Procedure α) (hx : Passable s.next) :
    p.Within (Rule.run d) (r.load s₀) s.shift :=
  of_lt p (Nat.lt_of_lt_of_le (State.length_shift_lt hx) hs)

theorem take_bind {f : Name Nat → Procedure α} (hx : Passable s.next) :
    (Procedure.take >>= f).Within (Rule.run d) (r.load s₀) s :=
  shift hs (f ⟨s.next.lexeme, s.passed⟩) hx

theorem expect_bind {expected : List Expectation} {f : Name Nat → Procedure α}
    (h : ∀ x, (expected.any fun e => e.accepts x) = true → Passable x) :
    (Procedure.expect expected >>= f).Within (Rule.run d) (r.load s₀) s := by
  refine .bind ?_ ?_
  · change Procedure.Within _ _ (if expected.any (fun e => e.accepts s.next) then _ else _) s
    split <;> trivial
  · intro a t ha
    change Procedure.exec _ (if expected.any (fun e => e.accepts s.next) then _ else _) s = _ at ha
    split at ha
    · next hx =>
      cases ha
      exact shift hs _ (h _ hx)
    · cases ha

theorem accept_bind {e : Expectation} {f : Bool → Procedure α}
    (h : ∀ x, e.accepts x = true → Passable x)
    (hf : e.accepts s.next = false → (f false).Within (Rule.run d) (r.load s₀) s) :
    (Procedure.accept e >>= f).Within (Rule.run d) (r.load s₀) s := by
  refine .bind ?_ ?_
  · change Procedure.Within _ _ (if e.accepts s.next then _ else _) s
    split <;> trivial
  · intro a t ha
    rw [exec_accept] at ha
    split at ha
    · next hx =>
      cases ha
      exact shift hs _ (h _ hx)
    · next hx =>
      cases ha
      exact hf (by simpa using hx)

/-- A call of a rule below. -/
theorem run_bind {r' : Rule} {f : r'.Result → Procedure α} (hr : r'.rank < r.rank)
    (hf : ∀ a t, Rule.run d r' s = .accepted a t → (f a).Within (Rule.run d) (r.load s₀) t) :
    (Procedure.run r' >>= f).Within (Rule.run d) (r.load s₀) s :=
  ⟨Rule.load_lt hr hs, hf⟩

end Steps

end Procedure.Within

/-! ## Progress -/

/-- The rule passes a symbol whenever it accepts. -/
def Rule.Progresses (r : Rule) : Prop :=
  ∀ ⦃d s a t⦄, Rule.run d r s = .accepted a t → t.rest.length < s.rest.length

theorem Rule.progresses_of_retraces {r : Rule} {F : List Kind} {S : List Piece → Prop}
    {Q : r.Result → r.Result → Prop} (hS : ∀ P, S P → Opens P)
    (h : ∀ d x, Retraces (fun _ _ => false) d x F S Q (Procedure.run r) (Procedure.run r)) :
    r.Progresses := by
  intro d s a t ha
  obtain ⟨-, P, R, hpass, hP, -⟩ := h d s.next rfl ((exec_run r s).trans ha)
  -- The pieces begin with a symbol that is kept, and this one has been passed.
  obtain ⟨y, P', rfl⟩ := hS P hP
  have hlen := congrArg List.length hpass.rest
  simp only [Piece.old_kept, List.length_append, List.length_cons] at hlen
  omega

theorem Whole.opens {P : List Piece} (h : Whole P) : Opens P :=
  h.1.opens

theorem progresses_assignment : Rule.Progresses .assignment :=
  Rule.progresses_of_retraces (fun _ => Whole.opens) fun d => (expressions _ d).assignment

theorem progresses_conditional : Rule.Progresses .conditional :=
  Rule.progresses_of_retraces (fun _ => Whole.opens) fun d => (expressions _ d).conditional

theorem progresses_binary (level : Level) : Rule.Progresses (.binary level) :=
  Rule.progresses_of_retraces (fun _ => Whole.opens) fun d => (expressions _ d).binary level

theorem progresses_unary : Rule.Progresses .unary :=
  Rule.progresses_of_retraces (fun _ => Whole.opens) fun d => (expressions _ d).unary

theorem progresses_primary : Rule.Progresses .primary :=
  Rule.progresses_of_retraces (fun _ => Whole.opens) fun d => (expressions _ d).primary

theorem progresses_expression : Rule.Progresses .expression :=
  Rule.progresses_of_retraces (fun _ => Whole.opens) fun d => (expressions _ d).expression

theorem progresses_initializer : Rule.Progresses .initializer :=
  Rule.progresses_of_retraces (fun _ h => h) fun d => (initializers _ d).initializer

theorem progresses_item : Rule.Progresses .item :=
  Rule.progresses_of_retraces (fun _ h => h) fun d => (items_retraced _ d).item

namespace Procedure.Within

variable {d : Nat} {r r' : Rule} {s₀ s : State}

/-- Behind a rule that passes a symbol nothing is left to show. -/
theorem progress_bind (hs : s.rest.length ≤ s₀.rest.length) (hr : r'.rank < r.rank)
    (h : r'.Progresses) {f : r'.Result → Procedure α} :
    (Procedure.run r' >>= f).Within (Rule.run d) (r.load s₀) s :=
  run_bind hs hr fun _ _ ha => of_lt _ (Nat.lt_of_lt_of_le (h ha) hs)

end Procedure.Within

/-! ## The rules

Each rule calls rules of a lower rank until it passes a symbol. -/

section Rules

open Procedure.Within

variable {d : Nat} {r : Rule} {s₀ s : State} (hs : s.rest.length ≤ s₀.rest.length)

include hs in
theorem kind_within {k : Kind} (hk : k ≠ .error ∧ k ≠ .endOfInput) {f : Name Nat → Procedure α} :
    (Procedure.expect [.kind k] >>= f).Within (Rule.run d) (r.load s₀) s :=
  expect_bind hs fun _ hx => .of_kind (kind_of_expected hx) hk

/-! ### Expressions -/

theorem binary_within (level : Level) :
    (Grammar.binary level).Within (Rule.run d) (Rule.load (.binary level) s) s := by
  unfold Grammar.binary
  cases ht : level.tighter with
  | some tighter =>
    have hrank := Level.rank_of_tighter ht
    have hlt : Rule.rank (.binary tighter) < Rule.rank (.binary level) := by
      have hle : level.rank ≤ 10 := by cases level <;> decide
      simp only [Rule.rank]
      omega
    exact progress_bind (Nat.le_refl _) hlt (progresses_binary tighter)
  | none =>
    have hlt : Rule.rank .unary < Rule.rank (.binary level) := by
      cases level <;> decide
    exact progress_bind (Nat.le_refl _) hlt progresses_unary

theorem unary_within : Grammar.unary.Within (Rule.run d) (Rule.load .unary s) s := by
  refine .next ?_
  split
  · next hx => exact take_bind (Nat.le_refl _) (.of_plays hx)
  · exact progress_bind (Nat.le_refl _) (by decide) progresses_primary

theorem binaryRest_within (level : Level) (left : Tree) :
    (Grammar.binaryRest level left).Within (Rule.run d) (Rule.load (.binaryRest level left) s)
      s := by
  refine .next ?_
  split
  · next hx => exact take_bind (Nat.le_refl _) (.of_plays hx)
  · trivial

theorem suffixes_within (object : Tree) :
    (Grammar.suffixes object).Within (Rule.run d) (Rule.load (.suffixes object) s) s := by
  refine .next ?_
  split
  · next hx => exact take_bind (Nat.le_refl _) (.of_kind hx (by decide))
  split
  · next hx => exact take_bind (Nat.le_refl _) (.of_kind hx (by decide))
  split
  · next hx =>
    simp only [Bool.and_eq_true, decide_eq_true_eq] at hx
    exact take_bind (Nat.le_refl _) (.of_kind hx.1 (by decide))
  split
  · next hx =>
    simp only [Bool.and_eq_true] at hx
    exact take_bind (Nat.le_refl _) (.of_plays hx.1)
  · trivial

theorem arguments_within : Grammar.arguments.Within (Rule.run d) (Rule.load .arguments s) s := by
  refine .next ?_
  split
  · trivial
  · exact progress_bind (Nat.le_refl _) (by decide) progresses_assignment

theorem primary_within : Grammar.primary.Within (Rule.run d) (Rule.load .primary s) s := by
  refine .next ?_
  split
  · next hx => exact take_bind (Nat.le_refl _) (.of_kind hx (by decide))
  · next hx => exact take_bind (Nat.le_refl _) (.of_kind hx (by decide))
  · next hx => exact take_bind (Nat.le_refl _) (.of_kind hx (by decide))
  · trivial

theorem elements_within : Grammar.elements.Within (Rule.run d) (Rule.load .elements s) s := by
  refine .next ?_
  split
  · trivial
  · exact progress_bind (Nat.le_refl _) (by decide) progresses_initializer

theorem initializer_within :
    Grammar.initializer.Within (Rule.run d) (Rule.load .initializer s) s := by
  refine .next ?_
  split
  · next hx => exact take_bind (Nat.le_refl _) (.of_kind hx (by decide))
  · exact ⟨Rule.load_lt (by decide) (Nat.le_refl _), fun _ _ _ => trivial⟩

/-! ### Declarations -/

theorem layoutParams_within :
    Grammar.layoutParams.Within (Rule.run d) (Rule.load .layoutParams s) s := by
  refine .next ?_
  split
  · trivial
  · exact expect_bind (Nat.le_refl _) fun _ hx => .of_any hx (by decide)

theorem qualifiers_within (found : Qualifiers Nat Tree) :
    (Grammar.qualifiers found).Within (Rule.run d) (Rule.load (.qualifiers found) s) s := by
  refine .next ?_
  split
  · next hx => exact take_bind (Nat.le_refl _) (.of_kind hx (by decide))
  · next hx => exact take_bind (Nat.le_refl _) (.of_kind hx (by decide))
  · trivial

theorem dims_within : Grammar.dims.Within (Rule.run d) (Rule.load .dims s) s :=
  accept_bind (Nat.le_refl _) (fun _ hx => .of_accepts hx (by decide)) fun _ =>
    trivial

/-- Dimensions may be missing, and then an initializer or a comma is the first to pass a symbol. -/
theorem vars_within (type : TypeSpec Nat Tree) (name : Name Nat) :
    (Grammar.vars type name).Within (Rule.run d) (Rule.load (.vars type name) s) s := by
  refine run_bind (Nat.le_refl _) (by decide : Rule.rank .dims < 1) ?_
  intro dims t ht
  have hle := recedes_run d ht
  have hmore : ∀ init (m : State), m.rest.length ≤ s.rest.length →
      Procedure.Within (Rule.run d) (Rule.load (.vars type name) s)
        (Procedure.accept (.kind .comma) >>= fun b =>
          if b = true then Procedure.expect [.kind .identifier] >>= fun another =>
            run (.vars type another) >>= fun more => pure (⟨name, dims, init⟩ :: more)
          else pure [⟨name, dims, init⟩]) m := by
    intro init m hm
    exact accept_bind hm (fun _ hx => .of_accepts hx (by decide)) fun _ => trivial
  refine .bind ?_ fun init m hm => hmore init m (Nat.le_trans ((recedes_run d).exec _ hm) hle)
  exact accept_bind hle (fun _ hx => .of_accepts hx (by decide)) fun _ => trivial

include hs in
theorem typeSpec_within {f : TypeSpec Nat Tree → Procedure α} :
    (typeSpec >>= f).Within (Rule.run d) (r.load s₀) s := by
  rw [typeSpec, bind_assoc]
  exact kind_within hs (by decide)

/-- Qualifiers may be missing, and then the type is the first to pass a symbol. -/
theorem qualified_within {found : Qualifiers Nat Tree} (hr : 0 < r.rank)
    {f : Qualifiers Nat Tree → TypeSpec Nat Tree → Procedure α} :
    (run (.qualifiers found) >>= fun quals => typeSpec >>= f quals).Within (Rule.run d)
      (r.load s) s :=
  run_bind (Nat.le_refl _) hr fun _ _ ht => typeSpec_within (recedes_run d ht)

theorem params_within : Grammar.params.Within (Rule.run d) (Rule.load .params s) s := by
  refine .next ?_
  split
  · trivial
  · trivial
  · trivial
  · simp only [param, bind_assoc]
    exact qualified_within (by decide)

theorem members_within : Grammar.members.Within (Rule.run d) (Rule.load .members s) s := by
  refine .next ?_
  split
  · trivial
  · trivial
  · simp only [member, bind_assoc]
    exact qualified_within (by decide)

theorem statementEnd_within {n : Nat} : statementEnd.Within callee n s := by
  refine .next ?_
  split <;> trivial

/-- A declaration that begins with qualifiers, as an item. -/
theorem qualifiedItem_within : qualified.Within (Rule.run d) (Rule.load .item s) s := by
  refine run_bind (Nat.le_refl _) (by decide : Rule.rank (.qualifiers _) < 17) ?_
  intro quals t ht
  have hle := recedes_run d ht
  refine .next ?_
  split
  · next hx => exact take_bind hle (.of_kind hx (by decide))
  · exact .bind statementEnd_within fun _ _ _ => trivial
  · next hx =>
    -- Names alone pass a symbol only in a call, and that rule has a lower rank.
    have hnames : (run .names >>= fun ns => statementEnd >>= fun _ =>
        extentFrom s.passed >>= fun X => pure (Node.qualifiers X quals ns)).Within (Rule.run d)
          (Rule.load .item s) t :=
      run_bind hle (by decide) fun _ _ _ => .bind statementEnd_within fun _ _ _ => trivial
    refine .second ?_
    split
    · exact take_bind hle (.of_kind hx (by decide))
    · exact hnames
    · exact hnames
    · exact typeSpec_within hle
  · trivial

/-! ### Statements -/

theorem statement_within : Grammar.statement.Within (Rule.run d) (Rule.load .statement s) s := by
  refine .next ?_
  split
  · simp only [block, bind_assoc]
    exact kind_within (Nat.le_refl _) (by decide)
  iterate 10
    · next hx => exact take_bind (Nat.le_refl _) (.of_kind hx (by decide))
  · exact progress_bind (Nat.le_refl _) (by decide) progresses_expression

theorem cases_within : Grammar.cases.Within (Rule.run d) (Rule.load .cases s) s := by
  refine .next ?_
  split
  · trivial
  · trivial
  · exact expect_bind (Nat.le_refl _) fun _ hx => .of_any hx (by decide)

theorem item_within : Grammar.item.Within (Rule.run d) (Rule.load .item s) s := by
  have hstatement : (run .statement).Within (Rule.run d) (Rule.load .item s) s :=
    ⟨Rule.load_lt (by decide) (Nat.le_refl _), fun _ _ _ => trivial⟩
  refine .next ?_
  split
  · next hx => exact take_bind (Nat.le_refl _) (.of_kind hx (by decide))
  · exact qualifiedItem_within
  · exact qualifiedItem_within
  · next hx => exact take_bind (Nat.le_refl _) (.of_kind hx (by decide))
  · refine .ahead ?_
    split
    · exact typeSpec_within (Nat.le_refl _)
    · exact hstatement
  · exact hstatement

theorem items_within (stop : Stop) :
    (Grammar.items stop).Within (Rule.run d) (Rule.load (.items stop) s) s := by
  refine .next ?_
  split
  · trivial
  · have hlt : Rule.rank .item < Rule.rank (.items stop) := Nat.lt_succ_self 17
    exact progress_bind (Nat.le_refl _) hlt progresses_item

end Rules

/-- Whatever a rule calls has a lower load. -/
theorem Rule.within (d : Nat) (r : Rule) (s : State) :
    r.body.Within (Rule.run d) (r.load s) s := by
  cases r with
  | item => exact item_within
  | items stop => exact items_within stop
  | statement => exact statement_within
  | cases => exact cases_within
  | qualifiers found => exact qualifiers_within found
  | layoutParams => exact layoutParams_within
  | dims => exact dims_within
  | declarators => exact kind_within (Nat.le_refl _) (by decide)
  | vars type name => exact vars_within type name
  | members => exact members_within
  | params => exact params_within
  | names => exact kind_within (Nat.le_refl _) (by decide)
  | expression => exact .progress_bind (Nat.le_refl _) (by decide) progresses_assignment
  | sequence =>
    exact .accept_bind (Nat.le_refl _) (fun _ hx => .of_accepts hx (by decide))
      fun _ => trivial
  | assignment => exact .progress_bind (Nat.le_refl _) (by decide) progresses_conditional
  | conditional =>
    exact .progress_bind (Nat.le_refl _) (by decide) (progresses_binary .logicalOr)
  | binary level => exact binary_within level
  | binaryRest level left => exact binaryRest_within level left
  | unary => exact unary_within
  | suffixes object => exact suffixes_within object
  | arguments => exact arguments_within
  | primary => exact primary_within
  | initializer => exact initializer_within
  | elements => exact elements_within

/-! ## Enough depth -/

/-- A run with calls nested deeper than the load does not depend on how deep they may nest. -/
theorem Rule.run_eq_of_load {d d' : Nat} {r : Rule} {s : State} (h : r.load s < d)
    (h' : r.load s < d') : Rule.run d' r s = Rule.run d r s := by
  induction d generalizing d' r s with
  | zero => exact absurd h (Nat.not_lt_zero _)
  | succ d ih =>
    -- The body calls rules below the load only, and there the depths do not matter by induction.
    obtain ⟨d', rfl⟩ : ∃ e, d' = e + 1 := ⟨d' - 1, by omega⟩
    refine (Rule.within d r s).exec_congr ?_
    intro r' t ht
    exact ih (by omega) (by omega)

/-- The depth that suffices for the symbols ahead suffices for every rule. -/
theorem Rule.load_lt_depth (r : Rule) (s : State) : r.load s < s.depth := by
  have hrank := r.rank_lt
  rw [Rule.load, State.depth, Nat.add_mul, Nat.one_mul]
  omega

/-- An item that is accepted with some depth of calls is the one that is read. -/
theorem item?_of_run {d : Nat} {s t : State} {n : Item} (h : Rule.run d .item s = .accepted n t) :
    item? s = .accepted n t := by
  have hload := Rule.load_lt_depth .item s
  -- With the larger one of the two depths, the item is accepted and the depth suffices.
  have hdeep := Rule.run_mono (Nat.le_max_left d s.depth) .item h
  rw [item?, ← hdeep]
  exact Rule.run_eq_of_load (Nat.lt_of_lt_of_le hload (Nat.le_max_right _ _)) hload

end Grammar

end ShaderRepair

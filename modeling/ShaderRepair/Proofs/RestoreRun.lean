import ShaderRepair.Proofs.Omission

/-!
# Runs on symbols some of which will be gone

What is known of an accepted run on the old symbols that notes no repair, before anything is said of
the new ones. This file contains:
- `Omission.Runs`, such a run;
- `Omission.Covers`, which says that a run accounts for all that is gone;
- `Omission.Solid`, which says that a procedure does not begin with a semicolon that is gone.
-/

namespace ShaderRepair

/-- The kinds of symbols that are passed and are no semicolons. -/
def Kind.isTaken : Kind → Bool
  | .semicolon | .error | .endOfInput => false
  | _ => true

theorem Kind.taken_ne {k : Kind} (h : k.isTaken = true) :
    k ≠ .semicolon ∧ k ≠ .error ∧ k ≠ .endOfInput := by
  refine ⟨?_, ?_, ?_⟩ <;> rintro rfl <;> cases h

namespace Grammar

open Procedure

variable {α β γ δ : Type}

namespace Omission

section Runs

variable {o : Omission} {d : Nat} {x : Symbol} {shut : Bool} {held : List Nat}
  {ends : α → List Nat} {f : α → β} {s m t : State} {a : α}

/-! ## Runs without repairs -/

/-- An accepted run without a repair, from a state before the symbol `x` among the old symbols.
Ends that are held already stand further in front. -/
structure Runs (o : Omission) (d : Nat) (x : Symbol) (held : List Nat) (p : Procedure α)
    (s : State) (a : α) (t : State) : Prop where
  next : s.next = x
  rest : s.rest = o.old.drop s.passed
  held : ∀ i ∈ held, i < s.passed
  accepted : p.exec (Rule.run d) s = .accepted a t
  repairs : t.repairs = s.repairs

namespace Runs

variable {p : Procedure α}

theorem le (h : o.Runs d x held p s a t) : s.passed ≤ t.passed :=
  Procedure.passed_le h.accepted

theorem hold {held' : List Nat} (h : o.Runs d x held p s a t) (hheld : ∀ i ∈ held', i < s.passed) :
    o.Runs d x held' p s a t :=
  ⟨h.next, h.rest, hheld, h.accepted, h.repairs⟩

/-- What a procedure accepts is all that matters. -/
theorem congr {p' : Procedure α} (h : o.Runs d x held p s a t)
    (hp : p'.exec (Rule.run d) s = p.exec (Rule.run d) s) : o.Runs d x held p' s a t :=
  ⟨h.next, h.rest, h.held, hp.trans h.accepted, h.repairs⟩

theorem of_position {k : Nat → Procedure α} (h : o.Runs d x held (Procedure.position >>= k) s a t) :
    o.Runs d x held (k s.passed) s a t :=
  h.congr rfl

theorem of_next {k : Symbol → Procedure α} (h : o.Runs d x held (Procedure.next >>= k) s a t) :
    o.Runs d x held (k x) s a t := by
  have hnext := h.next
  subst hnext
  exact h.congr rfl

theorem to_next {k : Symbol → Procedure α} (h : o.Runs d x held (k x) s a t) :
    o.Runs d x held (Procedure.next >>= k) s a t := by
  have hnext := h.next
  subst hnext
  exact h.congr rfl

theorem mono {e : Nat} (h : o.Runs d x held p s a t) (hde : d ≤ e) : o.Runs e x held p s a t :=
  ⟨h.next, h.rest, h.held, Procedure.exec_run_mono hde p h.accepted, h.repairs⟩

/-- A run of one procedure after the other notes no repair in either of them. -/
theorem split {k : α → Procedure γ} {c : γ} (h : o.Runs d x held (p >>= k) s c t) :
    ∃ a m, o.Runs d x held p s a m ∧ o.Runs d m.next held (k a) m c t := by
  obtain ⟨a, m, ha, hc⟩ := exec_bind_accepted.1 h.accepted
  obtain ⟨w, R, hw⟩ := Procedure.run_advances ha
  obtain ⟨w', R', hw'⟩ := Procedure.run_advances hc
  -- Repairs are never taken back, so both parts have none.
  have hnone : R' ++ R = [] :=
    List.self_eq_append_left.1 (h.repairs.symm.trans (hw.trans hw').repairs)
  obtain ⟨rfl, rfl⟩ := List.append_eq_nil_iff.1 hnone
  exact ⟨a, m, ⟨h.next, h.rest, h.held, ha, hw.repairs⟩,
    ⟨rfl, hw.drop h.rest, fun i hi => Nat.lt_of_lt_of_le (h.held i hi) hw.le, hc, hw'.repairs⟩⟩

/-- A rule does what its body does. -/
theorem body {r : Rule} {a : r.Result} (h : o.Runs (d + 1) x held (run r) s a t) :
    o.Runs d x held r.body s a t :=
  ⟨h.next, h.rest, h.held, exec_run_succ d r s ▸ h.accepted, h.repairs⟩

theorem lt_of_shift (h : o.Runs d x held (.shift p) s a t)
    (hx : x.kind ≠ .error ∧ x.kind ≠ .endOfInput) : s.passed < t.passed := by
  have hle : s.shift.passed ≤ t.passed := Procedure.passed_le h.accepted
  rw [(s.advances_shift (h.next ▸ hx)).passed] at hle
  exact hle

theorem lt_of_progress {r : Rule} {a : r.Result} (h : o.Runs d x held (run r) s a t)
    (hr : r.Progresses) : s.passed < t.passed := by
  have hrun := h.accepted
  rw [exec_run] at hrun
  have hlt := hr hrun
  obtain ⟨w, R, hw⟩ := r.advances d hrun
  have hlen := congrArg List.length hw.rest
  have hpassed := hw.passed
  rw [List.length_append] at hlen
  omega

/-- No repair is noted. -/
theorem not_repair {missing : Missing} (h : o.Runs d x held (.repair missing p) s a t) : False := by
  obtain ⟨w, R, hw⟩ := Procedure.run_advances (s := s.repair missing) h.accepted
  have hlen := congrArg List.length (hw.repairs.symm.trans h.repairs)
  simp only [State.repair, List.length_append, List.length_cons] at hlen
  omega

/-- The end of a statement is there. -/
theorem skip_of_statementEnd {u : Unit} (h : o.Runs d x held Procedure.statementEnd s u t) :
    x.kind = .semicolon ∧ t = s.skipSemicolons := by
  have hskip := h.accepted
  rw [exec_statementEnd, h.next] at hskip
  by_cases hx : x.kind = .semicolon
  · rw [if_pos hx] at hskip
    cases hskip
    exact ⟨hx, rfl⟩
  · rw [if_neg hx] at hskip
    cases hskip
    exact absurd (congrArg List.length h.repairs) (Nat.succ_ne_self _)

theorem lt_of_statementEnd (h : o.Runs d x held (Procedure.statementEnd >>= fun _ => p) s a t) :
    s.passed < t.passed := by
  obtain ⟨u, m, hend, hp⟩ := h.split
  obtain ⟨hx, rfl⟩ := hend.skip_of_statementEnd
  exact Nat.lt_of_lt_of_le (s.lt_skipSemicolons (hend.next ▸ hx)) hp.le

theorem lt_of_expect {expected : List Expectation} {k : Name Nat → Procedure α}
    (h : o.Runs d x held (expect expected >>= k) s a t)
    (he : (expected.all fun e => e.wants.isTaken) = true) : s.passed < t.passed := by
  obtain ⟨w, m, hw, hk⟩ := h.split
  obtain ⟨hany, -, rfl⟩ := exec_expect_accepted.1 hw.accepted
  obtain ⟨e, hmem, hyes⟩ := List.any_eq_true.1 hany
  have htaken := List.all_eq_true.1 he e hmem
  rw [← Expectation.kind_of_accepts hyes] at htaken
  have hpassed := (s.advances_shift (Kind.taken_ne htaken).2).passed
  have hle := hk.le
  rw [hpassed] at hle
  exact hle

/-- What may be missing is there. -/
theorem kind_of_orMissing {k : Kind} {missing : Missing}
    (h : o.Runs d x held (orMissing k missing >>= fun _ => p) s a t) :
    x.kind = k ∧ p.exec (Rule.run d) s.shift = .accepted a t := by
  have hp := h.accepted
  rw [exec_orMissing_bind, h.next] at hp
  by_cases hk : x.kind = k
  · rw [if_pos hk] at hp
    exact ⟨hk, hp⟩
  · rw [if_neg hk] at hp
    exact absurd ⟨h.next, h.rest, h.held, hp, h.repairs⟩ (not_repair (p := p))

/-- A semicolon that is gone stands alone. -/
theorem single (h : o.Runs d x held p s a t)
    (hgone : o.gone (s.skipSemicolons.passed - 1) = true)
    (hlt : s.passed < s.skipSemicolons.passed) : s.skipSemicolons.passed = s.passed + 1 := by
  by_contra hne
  -- Otherwise the symbol before it is a semicolon too.
  obtain ⟨n, hn⟩ : ∃ n, s.skipSemicolons.passed = s.passed + n + 2 :=
    ⟨s.skipSemicolons.passed - s.passed - 2, by omega⟩
  have hskip := Advances.skipSemicolons s
  have hall : ∀ y ∈ s.rest.takeWhile (fun y => y.kind = .semicolon), y.kind = .semicolon := by
    intro y hy
    simpa using List.mem_takeWhile_imp hy
  generalize s.rest.takeWhile (fun y => y.kind = .semicolon) = w at hskip hall
  have hlt' : n < w.length := by
    have hlen := hskip.passed
    omega
  have hbefore : o.old[s.passed + n]? = some w[n] := by
    rw [← List.getElem?_drop, ← h.rest, hskip.rest, List.getElem?_append_left hlt']
    exact List.getElem?_eq_getElem hlt'
  rw [hn] at hgone
  exact o.single _ _ hgone hbefore (hall _ (List.getElem_mem hlt'))

end Runs

/-- The semicolons that are gone from `s` to `t` are in the list. -/
def Covers (o : Omission) (l : List Nat) (s t : State) : Prop :=
  ∀ i, o.gone i = true → s.passed ≤ i → i < t.passed → i ∈ l

/-- What produces no ends. -/
def noEnds (_ : α) : List Nat :=
  []

/-! ## Procedures that do not begin with a gap -/

/-- If a run accounts for what is gone, then it does not begin with a semicolon that is gone. With
`shut` this is known of the end of the run. -/
def Solid (o : Omission) (d : Nat) (x : Symbol) (shut : Bool) (held : List Nat)
    (ends : α → List Nat) (p : Procedure α) : Prop :=
  ∀ ⦃s t : State⦄ ⦃a : α⦄, o.Runs d x held p s a t → o.Covers (ends a) s t →
    (shut = true → o.gone t.passed = false) → o.gone s.passed = false

namespace Solid

variable {p : Procedure α} {k : γ → Procedure α}

theorem of_kind (hx : x.kind ≠ .semicolon) : o.Solid d x shut held ends p := by
  intro s t a h _ _
  exact kept_of_kind h.rest (h.next ▸ hx)

/-- In front of a semicolon something has to be shown. -/
theorem of_semicolon (h : x.kind = .semicolon → o.Solid d x shut held ends p) :
    o.Solid d x shut held ends p := by
  by_cases hx : x.kind = .semicolon
  · exact h hx
  · exact of_kind hx

theorem done : o.Solid d x true held ends (.done a) := by
  intro s t b h _ hshut
  cases h.accepted
  exact hshut rfl

theorem next {k : Symbol → Procedure α} (h : o.Solid d x shut held ends (k x)) :
    o.Solid d x shut held ends (Procedure.next >>= k) := by
  intro s t a hrun hcovers hshut
  exact h hrun.of_next hcovers hshut

theorem position {k : Nat → Procedure α} (h : ∀ n, o.Solid d x shut held ends (k n)) :
    o.Solid d x shut held ends (position >>= k) := by
  intro s t a hrun hcovers hshut
  exact h s.passed hrun.of_position hcovers hshut

theorem ahead {k : Bool → Procedure α} (h : ∀ b, o.Solid d x shut held ends (k b)) :
    o.Solid d x shut held ends (.ahead .done >>= k) := by
  intro s t a hrun hcovers hshut
  exact h (Symbol.startsDeclaration s.rest)
    (hrun.congr rfl) hcovers hshut

theorem extentFrom {first : Nat} {k : Extent Nat → Procedure α}
    (h : ∀ X, o.Solid d x shut held ends (k X)) :
    o.Solid d x shut held ends (extentFrom first >>= k) :=
  position fun n => h ⟨first, n - 1⟩

theorem accept {e : Expectation} {k : Bool → Procedure α} (he : e.wants.isTaken = true)
    (h : o.Solid d x shut held ends (k false)) :
    o.Solid d x shut held ends (accept e >>= k) := by
  refine of_semicolon fun hx => ?_
  -- What is asked for is no semicolon, so nothing is passed here.
  have hno : e.accepts x = false := by
    refine Bool.eq_false_iff.2 fun hyes => ?_
    rw [← Expectation.kind_of_accepts hyes, hx] at he
    cases he
  have hsame : o.Solid d x shut held ends
      ((if e.accepts x then .shift (.done true) else .done false : Procedure Bool) >>= k) := by
    rw [hno]
    exact h
  exact next (k := fun y => (if e.accepts y then .shift (.done true) else .done false) >>= k) hsame

theorem expect {expected : List Expectation} {k : Name Nat → Procedure α}
    (he : (expected.all fun e => e.wants.isTaken) = true) :
    o.Solid d x shut held ends (expect expected >>= k) := by
  refine of_semicolon fun hx => ?_
  intro s t a hrun _ _
  obtain ⟨w, m, hw, -⟩ := exec_bind_accepted.1 hrun.accepted
  obtain ⟨e, hmem, hyes⟩ := List.any_eq_true.1 (exec_expect_accepted.1 hw).1
  have htaken := List.all_eq_true.1 he e hmem
  rw [← Expectation.kind_of_accepts hyes, hrun.next, hx] at htaken
  cases htaken

theorem orMissing {kind : Kind} {missing : Missing} (hk : kind.isTaken = true) :
    o.Solid d x shut held ends (orMissing kind missing >>= fun _ => p) := by
  intro s t a hrun _ _
  obtain ⟨hx, -⟩ := hrun.kind_of_orMissing
  exact kept_of_kind hrun.rest (hrun.next ▸ hx ▸ (Kind.taken_ne hk).1)

/-- What is passed and is no end is not gone. -/
theorem of_passed (h : ∀ ⦃s t a⦄, o.Runs d x held p s a t →
    s.passed < t.passed ∧ ∀ i ∈ ends a, i ≠ s.passed) : o.Solid d x shut held ends p := by
  intro s t a hrun hcovers _
  obtain ⟨hlt, hends⟩ := h hrun
  exact Bool.eq_false_iff.2 fun hgone => hends _ (hcovers _ hgone (Nat.le_refl _) hlt) rfl

/-- A symbol in front of what has no ends is not gone. -/
theorem shift (hx : x.kind ≠ .error ∧ x.kind ≠ .endOfInput)
    (hends : ∀ ⦃s a t⦄, p.exec (Rule.run d) s = .accepted a t → ends a = []) :
    o.Solid d x shut held ends (.shift p) := by
  refine of_passed fun s t a hrun => ⟨hrun.lt_of_shift hx, fun i hi => ?_⟩
  rw [hends hrun.accepted] at hi
  exact absurd hi List.not_mem_nil

theorem take (hx : x.kind ≠ .error ∧ x.kind ≠ .endOfInput) {k : Name Nat → Procedure α}
    (hends : ∀ w ⦃s a t⦄, (k w).exec (Rule.run d) s = .accepted a t → ends a = []) :
    o.Solid d x shut held ends (take >>= k) :=
  next (k := fun y => Procedure.position >>= fun n => .shift (k ⟨y.lexeme, n⟩))
    (position fun _ => shift hx (hends _))

/-- A semicolon that ends something without ends is not gone. -/
theorem statementEnd {first : Nat} {node : Extent Nat → α} (hends : ∀ X, ends (node X) = []) :
    o.Solid d x shut held ends (Procedure.statementEnd >>= fun _ =>
      Procedure.extentFrom first >>= fun X => Pure.pure (node X)) := by
  refine of_passed fun s t a hrun => ⟨hrun.lt_of_statementEnd, fun i hi => ?_⟩
  obtain ⟨u, m, -, hnode⟩ := hrun.split
  cases hnode.accepted
  rw [hends] at hi
  exact absurd hi List.not_mem_nil

/-- A rule that passes something and has no ends. -/
theorem of_progress {r : Rule} {k : r.Result → Procedure α} (hr : r.Progresses) :
    o.Solid d x shut held noEnds (run r >>= k) := by
  refine of_passed fun s t a hrun => ⟨?_, fun i hi => absurd hi List.not_mem_nil⟩
  obtain ⟨c, m, hc, ha⟩ := hrun.split
  exact Nat.lt_of_lt_of_le (hc.lt_of_progress hr) ha.le

end Solid

end Runs

end Omission

end Grammar

end ShaderRepair

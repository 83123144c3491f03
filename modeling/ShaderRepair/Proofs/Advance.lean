import ShaderRepair.Proofs.Piece

/-!
# How far a run gets

Whatever a procedure does, it passes a part of the symbols ahead and adds to the repairs. This file
contains:
- `Advances`, the symbols and the repairs between two states;
- `Procedure.advances`, for every run, accepted or not;
- `Rule.advances` and `Procedure.run_advances`, for accepted ones.
-/

namespace ShaderRepair

namespace Grammar

/-- Between the states the symbols `w` have been passed and the repairs `R` have been noted, the
latest one first. -/
structure Advances (s t : State) (w : List Symbol) (R : List Repair) : Prop where
  rest : s.rest = w ++ t.rest
  passed : t.passed = s.passed + w.length
  repairs : t.repairs = R ++ s.repairs

namespace Advances

variable {s m t : State} {w w' : List Symbol} {R R' : List Repair}

theorem refl (s : State) : Advances s s [] [] :=
  ⟨rfl, rfl, rfl⟩

theorem trans (h : Advances s m w R) (h' : Advances m t w' R') :
    Advances s t (w ++ w') (R' ++ R) := by
  refine ⟨?_, ?_, ?_⟩
  · rw [h.rest, h'.rest, List.append_assoc]
  · rw [h'.passed, h.passed, List.length_append, Nat.add_assoc]
  · rw [h'.repairs, h.repairs, List.append_assoc]

theorem shift {x : Symbol} {more : List Symbol} (hr : s.rest = x :: more) :
    Advances s s.shift [x] [] := by
  rw [State.shift_of_rest hr]
  exact ⟨hr, rfl, rfl⟩

theorem skipSemicolons (s : State) :
    Advances s s.skipSemicolons (s.rest.takeWhile fun x => x.kind = .semicolon) [] := by
  refine ⟨?_, rfl, rfl⟩
  exact (List.prefix_iff_eq_append.1 (List.takeWhile_prefix _)).symm

theorem repair (s : State) (m : Missing) : Advances s (s.repair m) [] [⟨s.passed, m⟩] :=
  ⟨rfl, rfl, rfl⟩

theorem le (h : Advances s t w R) : s.passed ≤ t.passed := by
  rw [h.passed]
  exact Nat.le_add_right _ _

/-- A state whose symbols are those of a list from its place on stays one. -/
theorem drop {xs : List Symbol} (h : Advances s t w R) (hs : s.rest = xs.drop s.passed) :
    t.rest = xs.drop t.passed := by
  rw [h.passed, ← List.drop_drop, ← hs, h.rest]
  exact List.drop_left.symm

end Advances

/-- A shift passes the next symbol, or does nothing at the end of input. -/
theorem State.shift_cases (s : State) :
    Advances s s.shift [s.next] [] ∨ s.shift = s ∧ s.next.kind = .endOfInput := by
  cases hr : s.rest with
  | nil => exact .inr ⟨by simp [State.shift, hr], by simp [State.next, hr, Symbol.finish]⟩
  | cons x more =>
    have hx : s.next = x := by simp [State.next, hr]
    rw [hx]
    exact .inl (.shift hr)

/-- Where symbols are left, the next one is the one at the place. -/
theorem State.next?_of_drop {s : State} {xs : List Symbol} (hs : s.rest = xs.drop s.passed)
    (hx : s.next.kind ≠ .endOfInput) : xs[s.passed]? = some s.next := by
  obtain ⟨more, hrest⟩ := State.rest_of_next rfl hx
  rw [hs] at hrest
  rw [← Nat.add_zero s.passed, ← List.getElem?_drop, hrest]
  rfl

theorem State.passed_le_shift (s : State) : s.passed ≤ s.shift.passed := by
  rcases s.shift_cases with h | ⟨h, -⟩
  · exact h.le
  · exact Nat.le_of_eq (congrArg State.passed h).symm

theorem State.pending_shift (s : State) : s.shift.pending = s.pending := by
  unfold State.shift
  split <;> rfl

/-- The state in which a run ends. -/
def Outcome.state {α : Type} : Outcome α → State
  | .accepted _ s => s
  | .rejected _ s => s

section Runs

variable {α β : Type} {s t : State} {a : α}

/-- So does every run, accepted or not, if the rules it calls do. -/
theorem Procedure.advances {callee : (r : Rule) → State → Outcome r.Result}
    (hcallee : ∀ r s, ∃ w R, Advances s (callee r s).state w R) (p : Procedure α) (s : State) :
    ∃ w R, Advances s (p.exec callee s).state w R := by
  induction p generalizing s with
  | done b => exact ⟨[], [], .refl s⟩
  | look k ih => exact ih _ _ s
  | ahead k ih => exact ih _ s
  | here k ih => exact ih _ s
  | shift k ih =>
    obtain ⟨w, R, hmore⟩ := ih s.shift
    rcases s.shift_cases with hw | ⟨hsame, -⟩
    · exact ⟨_, _, hw.trans hmore⟩
    · rw [hsame] at hmore
      exact ⟨w, R, by rwa [exec, hsame]⟩
  | skipSemicolons k ih =>
    obtain ⟨w', R, hmore⟩ := ih s.skipSemicolons
    exact ⟨_, _, (Advances.skipSemicolons s).trans hmore⟩
  | repair m k ih =>
    obtain ⟨w', R, hmore⟩ := ih (s.repair m)
    exact ⟨_, _, (Advances.repair s m).trans hmore⟩
  | build e k ih =>
    obtain ⟨w, R, hmore⟩ := ih (s.build e)
    exact ⟨w, R, hmore.rest, hmore.passed, hmore.repairs⟩
  | widen e k ih =>
    obtain ⟨w, R, hmore⟩ := ih (s.widen e)
    exact ⟨w, R, hmore.rest, hmore.passed, hmore.repairs⟩
  | reject index expected => exact ⟨[], [], .refl s⟩
  | call r k ih =>
    obtain ⟨w, R, hcall⟩ := hcallee r s
    rw [exec]
    cases hc : callee r s with
    | accepted b m =>
      rw [hc] at hcall
      obtain ⟨w', R', hmore⟩ := ih b m
      exact ⟨_, _, hcall.trans hmore⟩
    | rejected why m =>
      rw [hc] at hcall
      exact ⟨w, R, hcall⟩

theorem Rule.run_state_advances (d : Nat) (r : Rule) (s : State) :
    ∃ w R, Advances s (Rule.run d r s).state w R := by
  induction d generalizing r s with
  | zero => exact ⟨[], [], .refl s⟩
  | succ d ih => exact r.body.advances ih s

theorem Rule.advances (d : Nat) (r : Rule) {a : r.Result} (h : Rule.run d r s = .accepted a t) :
    ∃ w R, Advances s t w R := by
  have hrun := r.run_state_advances d s
  rwa [h] at hrun

theorem Procedure.run_advances {d : Nat} {p : Procedure α}
    (h : p.exec (Rule.run d) s = .accepted a t) : ∃ w R, Advances s t w R := by
  have hrun := p.advances (fun r => r.run_state_advances d) s
  rwa [h] at hrun

theorem Procedure.passed_le {d : Nat} {p : Procedure α}
    (h : p.exec (Rule.run d) s = .accepted a t) : s.passed ≤ t.passed := by
  obtain ⟨w, R, hw⟩ := Procedure.run_advances h
  exact hw.le

end Runs

end Grammar

end ShaderRepair

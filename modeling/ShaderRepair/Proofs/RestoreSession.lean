import ShaderRepair.Proofs.NestingDocument
import ShaderRepair.Proofs.RestoreStatement

/-!
# Restoring semicolons of a session

A session that reads all its symbols without a repair reads what is left of them as well, where the
semicolons that are gone are ends of what it has read. This file contains:
- `Grammar.item?_restored`, the step: one item;
- `Session.advance_restored`, the run: all items.
-/

namespace ShaderRepair

open Grammar

/-! ## One item -/

namespace Grammar

namespace Omission

variable {o : Omission} {s t : State} {n : Item}

/-- An item that is read without a repair. -/
theorem runs_item (h : item? s = .accepted n t) (hrest : s.rest = o.old.drop s.passed)
    (hrepairs : t.repairs = s.repairs) : o.Runs s.depth s.next [] (Procedure.run .item) s n t :=
  ⟨rfl, hrest, nofun, (exec_run _ _).trans h, hrepairs⟩

/-- The ends of an item stand among the symbols that it passes. If all that is gone there is among
them, and what stands behind is not gone, then the item is read from what is left, with moved
marks. -/
theorem item?_restored (h : item? s = .accepted n t) (hrest : s.rest = o.old.drop s.passed)
    (hrepairs : t.repairs = s.repairs) :
    (∀ i ∈ n.terminators, s.passed ≤ i ∧ i < t.passed) ∧
      (o.Covers n.terminators s t → o.gone t.passed = false → ∀ ⦃s' : State⦄, o.Beside s s' →
        ∃ t', item? s' = .accepted (n.map o.moved o.tree) t' ∧ o.Beside t t') := by
  obtain ⟨hends, hsim⟩ := o.restoresRules s.depth .item s.next (runs_item h hrest hrepairs)
  refine ⟨fun i hi => ?_, fun hcovers hshut s' hs' => ?_⟩
  · obtain ⟨hlt, hle⟩ := hends i hi
    exact ⟨hle.resolve_left List.not_mem_nil, hlt⟩
  · obtain ⟨t', ht', hbeside⟩ := hsim hcovers (fun _ => hshut) hs'
    exact ⟨t', item?_of_run ((exec_run _ _).symm.trans ht'), hbeside⟩

/-- An item that begins with a semicolon has no ends. -/
theorem terminators_of_semicolon (h : item? s = .accepted n t)
    (hrest : s.rest = o.old.drop s.passed) (hrepairs : t.repairs = s.repairs)
    (hs : s.next.kind = .semicolon) : n.terminators = [] ∧ s.passed < t.passed :=
  (runs_item h hrest hrepairs).item_of_semicolon hs

/-- Where the old symbols end, the new ones do. -/
theorem Beside.nil {s' : State} (h : o.Beside s s') (hs : s.rest = []) : s'.rest = [] := by
  have hle : o.new.length ≤ o.count s.passed := by
    rw [o.length]
    exact count_mono (List.drop_eq_nil_iff.1 (h.rest.symm.trans hs))
  rw [h.rest', h.passed]
  exact List.drop_eq_nil_of_le hle

end Omission

end Grammar

/-! ## All items -/

namespace Session

/-- A run over the items `ns`, and what a run over what is left of them does. -/
structure Restored (o : Omission) (ns : List Item) (s t : Session) : Prop where
  reads : s.Reads t ns
  bounds : ∀ i ∈ Node.terminatorsAll ns, s.state.passed ≤ i
  /-- A semicolon in front of the items would be an item of its own, without ends. -/
  kept : o.Covers (Node.terminatorsAll ns) s.state t.state → o.gone s.state.passed = false
  restores : o.Covers (Node.terminatorsAll ns) s.state t.state → ∀ ⦃s' : Session⦄ ⦃count : Nat⦄,
    o.Beside s.state s'.state → s'.state.rest.length < count →
    ∃ t', s'.advance count = (t', none) ∧ s'.Reads t' (Node.mapAll o.moved o.tree ns) ∧
      o.Beside t.state t'.state

namespace Restored

variable {o : Omission} {n : Item} {ns : List Item} {s t : Session} {m : State}

theorem nil (hs : s.state.rest = []) (hrest : s.state.rest = o.old.drop s.state.passed) :
    Restored o [] s s := by
  refine ⟨⟨rfl, hs⟩, nofun, fun _ => ?_, fun _ s' count hs' _ => ?_⟩
  · refine Omission.kept_of_kind hrest ?_
    rw [State.next, hs]
    exact Kind.noConfusion
  · exact ⟨s', advance_of_nil (hs'.nil hs), ⟨rfl, hs'.nil hs⟩, hs'⟩

theorem cons (hn : item? s.state = .accepted n m)
    (hrest : s.state.rest = o.old.drop s.state.passed) (hrepairs : m.repairs = s.state.repairs)
    (hmt : m.passed ≤ t.state.passed) (h : Restored o ns (s.push (.item n) m) t) :
    Restored o (n :: ns) s t := by
  obtain ⟨hends, hitem⟩ := Omission.item?_restored hn hrest hrepairs
  obtain ⟨w, R, hw⟩ := Rule.advances _ .item hn
  have hbounds : ∀ i ∈ Node.terminatorsAll ns, m.passed ≤ i := h.bounds
  refine ⟨h.reads.push, fun i hi => ?_, fun hcovers => ?_, fun hcovers s' count hs' hcount => ?_⟩
  · rcases List.mem_append.1 hi with hi | hi
    · exact (hends i hi).1
    · exact Nat.le_trans hw.le (hbounds i hi)
  · refine Bool.eq_false_iff.2 fun hgone => ?_
    obtain ⟨hnone, hlt⟩ := Omission.terminators_of_semicolon hn hrest hrepairs
      (Omission.kind_of_gone hgone hrest)
    have hmem := hcovers _ hgone (Nat.le_refl _) (Nat.lt_of_lt_of_le hlt hmt)
    rw [Node.terminatorsAll, hnone, List.nil_append] at hmem
    exact absurd hlt (Nat.not_lt.2 (hbounds _ hmem))
  -- What is gone up to `m` is an end of the item, and what is gone behind it is not.
  · have hcovers₁ : o.Covers n.terminators s.state m := by
      intro i hgone hle hlt
      rcases List.mem_append.1 (hcovers i hgone hle (Nat.lt_of_lt_of_le hlt hmt)) with hi | hi
      · exact hi
      · exact absurd hlt (Nat.not_lt.2 (hbounds i hi))
    have hcovers₂ : o.Covers (Node.terminatorsAll ns) m t.state := by
      intro i hgone hle hlt
      rcases List.mem_append.1 (hcovers i hgone (Nat.le_trans hw.le hle) hlt) with hi | hi
      · exact absurd (hends i hi).2 (Nat.not_lt.2 hle)
      · exact hi
    obtain ⟨m', hm', hbeside⟩ := hitem hcovers₁ (h.kept hcovers₂) hs'
    have hlen := progresses_item hm'
    have hs'' : s'.state.rest ≠ [] := List.ne_nil_of_length_pos (Nat.zero_lt_of_lt hlen)
    obtain ⟨count, rfl⟩ : ∃ k, count = k + 1 := ⟨count - 1, by omega⟩
    have hpush : o.Beside (s.push (.item n) m).state
        (s'.push (.item (n.map o.moved o.tree)) m').state :=
      ⟨hbeside.rest, hbeside.rest', hbeside.passed, hbeside.repairs⟩
    have hcount' : (s'.push (.item (n.map o.moved o.tree)) m').state.rest.length < count :=
      Nat.lt_of_lt_of_le hlen (Nat.le_of_lt_succ hcount)
    obtain ⟨t', ht', hreads', hbeside'⟩ := h.restores hcovers₂ hpush hcount'
    refine ⟨t', ?_, hreads'.push, hbeside'⟩
    rw [advance_of_accepted hm' hs'']
    exact ht'

end Restored

/-- A run over all items, by induction on their number. -/
theorem advance_restored {o : Omission} (count : Nat) {s t : Session}
    (h : s.advance count = (t, none)) (hcount : s.state.rest.length < count)
    (hrest : s.state.rest = o.old.drop s.state.passed)
    (hrepairs : t.state.repairs = s.state.repairs) : ∃ ns, Restored o ns s t := by
  induction count generalizing s with
  | zero => exact absurd hcount (Nat.not_lt_zero _)
  | succ count ih =>
    by_cases hs : s.state.rest = []
    · rw [advance_of_nil hs] at h
      cases h
      exact ⟨[], .nil hs hrest⟩
    · obtain ⟨n, m, hn, hmore⟩ := advance_accepted h hs
      obtain ⟨w, R, hw⟩ := Rule.advances _ .item hn
      obtain ⟨w', R', hw', -⟩ := advance_balances _ hmore
      have hw'' : Advances m t.state w' R' := ⟨hw'.rest, hw'.passed, hw'.repairs⟩
      -- Neither the item nor the others have noted a repair.
      have hnone : R' ++ R = [] :=
        List.self_eq_append_left.1 (hrepairs.symm.trans (hw.trans hw'').repairs)
      obtain ⟨rfl, rfl⟩ := List.append_eq_nil_iff.1 hnone
      have hlen := progresses_item hn
      obtain ⟨ns, hns⟩ := ih hmore (Nat.lt_of_lt_of_le hlen (Nat.le_of_lt_succ hcount))
        (hw.drop hrest) hw''.repairs
      exact ⟨n :: ns, hns.cons hn hrest hw.repairs hw''.le⟩

end Session

end ShaderRepair

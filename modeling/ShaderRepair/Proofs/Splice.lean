import Mathlib.Data.List.Basic
import ShaderRepair.Edit

/-!
# Splicing, offset by offset

Insertions are made in ascending order of their offsets, so at each offset stand those that name it,
in the order in which they were given. This file contains:
- `Insertion.textAt`, what stands at an offset, and `Text.filled`, a text filled up with it;
- sorting: ascending, and without a change among insertions at one offset;
- `Text.splice_eq_filled`.
-/

namespace ShaderRepair

namespace Insertion

/-- What is put in at an offset. -/
def textAt (insertions : List Insertion) (offset : Nat) : Text :=
  (insertions.filter fun e => e.offset = (offset : Int)).flatMap Insertion.text

theorem textAt_cons_of_eq {e : Insertion} {offset : Nat} (h : e.offset = offset)
    (more : List Insertion) : textAt (e :: more) offset = e.text ++ textAt more offset := by
  simp [textAt, h]

theorem textAt_cons_of_ne {e : Insertion} {offset : Nat} (h : e.offset ≠ offset)
    (more : List Insertion) : textAt (e :: more) offset = textAt more offset := by
  simp [textAt, h]

theorem textAt_eq_nil {insertions : List Insertion} {offset : Nat}
    (h : ∀ e ∈ insertions, e.offset ≠ offset) : textAt insertions offset = [] := by
  have hnone : (insertions.filter fun e => e.offset = (offset : Int)) = [] := by
    simpa [List.filter_eq_nil_iff] using h
  rw [textAt, hnone]
  rfl

/-! ## Sorting -/

theorem mem_insertSorted {e f : Insertion} {more : List Insertion} :
    f ∈ insertSorted e more ↔ f = e ∨ f ∈ more := by
  induction more with
  | nil => simp [insertSorted]
  | cons g more ih =>
    rw [insertSorted]
    split
    · simp
    · simp [ih, or_left_comm]

theorem mem_sort {f : Insertion} {insertions : List Insertion} :
    f ∈ sort insertions ↔ f ∈ insertions := by
  induction insertions with
  | nil => rfl
  | cons e more ih => rw [sort, mem_insertSorted, ih, List.mem_cons]

/-- Offsets do not descend. -/
def Ascending (insertions : List Insertion) : Prop :=
  insertions.Pairwise fun e f => e.offset ≤ f.offset

theorem Ascending.insertSorted {more : List Insertion} (h : Ascending more) (e : Insertion) :
    Ascending (insertSorted e more) := by
  induction more with
  | nil => exact List.pairwise_singleton _ _
  | cons f more ih =>
    obtain ⟨hf, hmore⟩ := List.pairwise_cons.1 h
    rw [Insertion.insertSorted]
    split
    · next hle =>
      refine List.pairwise_cons.2 ⟨?_, h⟩
      intro g hg
      rcases List.mem_cons.1 hg with rfl | hg
      · exact hle
      · exact Int.le_trans hle (hf g hg)
    · next hle =>
      refine List.pairwise_cons.2 ⟨?_, ih hmore⟩
      intro g hg
      rcases mem_insertSorted.1 hg with rfl | hg
      · omega
      · exact hf g hg

theorem ascending_sort (insertions : List Insertion) : Ascending (sort insertions) := by
  induction insertions with
  | nil => exact List.Pairwise.nil
  | cons e more ih => exact ih.insertSorted e

/-- An insertion is put behind such only as have a smaller offset. -/
theorem filter_insertSorted (e : Insertion) (more : List Insertion) (offset : Int) :
    (insertSorted e more).filter (fun f => f.offset = offset) =
      (e :: more).filter fun f => f.offset = offset := by
  induction more with
  | nil => rfl
  | cons f more ih =>
    rw [insertSorted]
    split
    · rfl
    · next hle =>
      rw [List.filter_cons, ih]
      by_cases he : e.offset = offset
      · have hf : f.offset ≠ offset := by omega
        simp [he, hf]
      · simp [List.filter_cons, he]

/-- Sorting keeps the insertions at each offset in their order. -/
theorem filter_sort (insertions : List Insertion) (offset : Int) :
    (sort insertions).filter (fun f => f.offset = offset) =
      insertions.filter fun f => f.offset = offset := by
  induction insertions with
  | nil => rfl
  | cons e more ih => rw [sort, filter_insertSorted, List.filter_cons, List.filter_cons, ih]

theorem textAt_sort (insertions : List Insertion) (offset : Nat) :
    textAt (sort insertions) offset = textAt insertions offset := by
  rw [textAt, textAt, filter_sort]

end Insertion

namespace Text

open Insertion (textAt)

/-! ## Filling up -/

/-- A text, the first byte of which has the offset `start`, with something put in at each offset. -/
def filled (gap : Nat → Text) : Nat → Text → Text
  | start, [] => gap start
  | start, b :: s => gap start ++ b :: filled gap (start + 1) s

variable {gap : Nat → Text}

/-- Where nothing is put in, nothing changes. -/
theorem filled_append {start : Nat} {a : Text} (v : Text)
    (h : ∀ n, start ≤ n → n < start + a.length → gap n = []) :
    filled gap start (a ++ v) = a ++ filled gap (start + a.length) v := by
  induction a generalizing start with
  | nil => rfl
  | cons b a ih =>
    have hgap : gap start = [] := h start (Nat.le_refl _) (by simp)
    have hmore : filled gap (start + 1) (a ++ v) = a ++ filled gap (start + 1 + a.length) v :=
      ih fun n hn hlt => h n (by omega) (by simp only [List.length_cons]; omega)
    rw [List.cons_append, filled, hgap, hmore, List.length_cons, Nat.add_right_comm]
    rfl

/-- Something put in where the text starts comes first. -/
theorem filled_of_front {gap' : Nat → Text} {start : Nat} {w : Text} (s : Text)
    (hfront : gap' start = w ++ gap start) (h : ∀ n, start < n → gap' n = gap n) :
    filled gap' start s = w ++ filled gap start s := by
  have hsame : ∀ (s : Text) (n : Nat), start < n → filled gap' n s = filled gap n s := by
    intro s
    induction s with
    | nil => exact fun n hn => h n hn
    | cons b s ih =>
      intro n hn
      rw [filled, filled, h n hn, ih (n + 1) (Nat.lt_succ_of_lt hn)]
  cases s with
  | nil => exact hfront
  | cons b s =>
    rw [filled, filled, hfront, hsame s (start + 1) (Nat.lt_succ_self start), List.append_assoc]

theorem spliceSorted_eq_filled {insertions : List Insertion}
    (hsorted : Insertion.Ascending insertions) (start : Nat) (s : Text)
    (h : ∀ e ∈ insertions, (start : Int) ≤ e.offset ∧ e.offset ≤ start + s.length) :
    spliceSorted start s insertions = filled (textAt insertions) start s := by
  induction insertions generalizing start s with
  | nil =>
    have hnil : filled (textAt []) start (s ++ []) =
        s ++ filled (textAt []) (start + s.length) [] :=
      filled_append [] fun _ _ _ => rfl
    rw [List.append_nil] at hnil
    rw [spliceSorted, hnil]
    simp [filled, textAt]
  | cons e more ih =>
    obtain ⟨he, hmore⟩ := List.pairwise_cons.1 hsorted
    obtain ⟨hlow, hhigh⟩ := h e List.mem_cons_self
    obtain ⟨n, hn⟩ : ∃ n : Nat, e.offset = start + n := ⟨(e.offset - start).toNat, by omega⟩
    -- The text is cut at the first insertion, and nothing is put in before it.
    have hle : n ≤ s.length := by omega
    have hmin : min (e.offset - start).toNat s.length = n := by omega
    have hbefore : ∀ m, start ≤ m → m < start + (s.take n).length →
        textAt (e :: more) m = [] := by
      intro m hm hlt
      rw [List.length_take] at hlt
      refine Insertion.textAt_eq_nil ?_
      intro f hf
      rcases List.mem_cons.1 hf with rfl | hf
      · omega
      · have := he f hf
        omega
    have hlen : start + (s.take n).length = start + n := by
      rw [List.length_take]
      omega
    have hrest := ih hmore (start + n) (s.drop n) fun f hf => by
      have h₁ := he f hf
      have h₂ := (h f (List.mem_cons_of_mem e hf)).2
      rw [List.length_drop]
      omega
    have hhere : textAt (e :: more) (start + n) = e.text ++ textAt more (start + n) :=
      Insertion.textAt_cons_of_eq (by omega) more
    have hlater : ∀ m, start + n < m → textAt (e :: more) m = textAt more m :=
      fun m hm => Insertion.textAt_cons_of_ne (by omega) more
    calc spliceSorted start s (e :: more)
        = s.take n ++ e.text ++ spliceSorted (start + n) (s.drop n) more := by
          simp only [spliceSorted, hmin]
      _ = s.take n ++ filled (textAt (e :: more)) (start + n) (s.drop n) := by
          rw [hrest, filled_of_front _ hhere hlater, List.append_assoc]
      _ = filled (textAt (e :: more)) start (s.take n ++ s.drop n) := by
          rw [filled_append _ hbefore, hlen]
      _ = filled (textAt (e :: more)) start s := by
          rw [List.take_append_drop]

/-- Splicing puts in at each offset what is to stand there. -/
theorem splice_eq_filled {source : Text} {insertions : List Insertion}
    (h : ∀ e ∈ insertions, 0 ≤ e.offset ∧ e.offset ≤ source.length) :
    source.splice insertions = filled (textAt insertions) 0 source := by
  have hsort : textAt (Insertion.sort insertions) = textAt insertions :=
    funext (Insertion.textAt_sort insertions)
  rw [splice, ← hsort]
  refine spliceSorted_eq_filled (Insertion.ascending_sort insertions) 0 source ?_
  intro e he
  have := h e (Insertion.mem_sort.1 he)
  omega

end Text

end ShaderRepair

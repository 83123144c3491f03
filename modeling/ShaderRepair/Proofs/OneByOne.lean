import Mathlib.Algebra.GroupWithZero.Nat
import ShaderRepair.Proofs.Splice

/-!
# Splicing, insertion by insertion

All insertions are made in one pass over the source. Making them one after the other, each in the
text that the ones before have left, comes to the same if the last one is made first: then the
offsets of those that are still to come are not moved. This file contains:
- `Text.insertEach`, a source with insertions made one after the other;
- `Insertion.Reorders` and `Insertion.StableOrder`, and that a list has one stable order;
- `Text.spliceSorted_eq`, which says that one pass makes the insertions one after the other;
- `Text.splice_one_by_one`, for insertions in any order and with any offsets.
-/

namespace ShaderRepair

/-! ## Orders -/

namespace Insertion

variable {insertions sorted sorted' : List Insertion}

/-- Both lists have the same insertions at each offset, in the same order. -/
def Agree (insertions others : List Insertion) : Prop :=
  ∀ offset : Int,
    insertions.filter (fun e => e.offset = offset) = others.filter fun e => e.offset = offset

/-- The same insertions in another order, in which those that name the same offset keep theirs. -/
structure Reorders (insertions others : List Insertion) : Prop where
  perm : others.Perm insertions
  agree : Agree others insertions

/-- The order by offset that keeps insertions at one offset in their order. -/
structure StableOrder (insertions sorted : List Insertion) : Prop
    extends Reorders insertions sorted where
  ascending : Ascending sorted

theorem perm_insertSorted (e : Insertion) (more : List Insertion) :
    (insertSorted e more).Perm (e :: more) := by
  induction more with
  | nil => exact .refl _
  | cons f more ih =>
    rw [insertSorted]
    split
    · exact .refl _
    · exact (ih.cons f).trans (.swap e f more)

theorem perm_sort (insertions : List Insertion) : (sort insertions).Perm insertions := by
  induction insertions with
  | nil => exact .refl _
  | cons e more ih => exact (perm_insertSorted e _).trans (ih.cons e)

theorem stableOrder_sort (insertions : List Insertion) :
    StableOrder insertions (sort insertions) :=
  ⟨⟨perm_sort insertions, filter_sort insertions⟩, ascending_sort insertions⟩

theorem Agree.mem_iff {others : List Insertion} (h : Agree insertions others) (e : Insertion) :
    e ∈ insertions ↔ e ∈ others := by
  have hfilter := congrArg (e ∈ ·) (h e.offset)
  simpa using hfilter

/-- In an ascending list the first offset is the lowest. -/
theorem Ascending.head_le {e f : Insertion} {more : List Insertion} (h : Ascending (e :: more))
    (hf : f ∈ e :: more) : e.offset ≤ f.offset := by
  rcases List.mem_cons.1 hf with rfl | hf
  · exact Int.le_refl _
  · exact (List.pairwise_cons.1 h).1 f hf

/-- Ascending lists that agree are the same. -/
theorem Ascending.ext (h : Ascending sorted) (h' : Ascending sorted')
    (hagree : Agree sorted sorted') : sorted = sorted' := by
  induction sorted generalizing sorted' with
  | nil =>
    have hnone : ∀ e, e ∉ sorted' := fun e he => nomatch (hagree.mem_iff e).2 he
    exact (List.eq_nil_iff_forall_not_mem.2 hnone).symm
  | cons e more ih =>
    have he := (hagree.mem_iff e).1 List.mem_cons_self
    obtain ⟨f, more', rfl⟩ := List.exists_cons_of_ne_nil (List.ne_nil_of_mem he)
    have hf := (hagree.mem_iff f).2 List.mem_cons_self
    -- Both begin with the lowest offset there is, and so with the same insertion.
    have hoffset : e.offset = f.offset := Int.le_antisymm (h.head_le hf) (h'.head_le he)
    have hhead := hagree f.offset
    rw [List.filter_cons_of_pos (by simpa using hoffset),
      List.filter_cons_of_pos (by simp)] at hhead
    obtain ⟨rfl, -⟩ := List.cons.inj hhead
    have htail : Agree more more' := by
      intro offset
      have hboth := hagree offset
      rw [List.filter_cons, List.filter_cons] at hboth
      split at hboth
      · exact (List.cons.inj hboth).2
      · exact hboth
    rw [ih (List.pairwise_cons.1 h).2 (List.pairwise_cons.1 h').2 htail]

/-- There is no other stable order. -/
theorem StableOrder.eq_sort (h : StableOrder insertions sorted) : sorted = sort insertions :=
  h.ascending.ext (ascending_sort insertions) fun offset =>
    (h.agree offset).trans (filter_sort insertions offset).symm

/-- Insertions that change places with such as name other offsets are sorted the same way. -/
theorem Reorders.sort_eq {others : List Insertion} (h : Reorders insertions others) :
    sort others = sort insertions :=
  (ascending_sort others).ext (ascending_sort insertions) fun offset => by
    rw [filter_sort, filter_sort, h.agree offset]

end Insertion

/-! ## One insertion after the other -/

namespace Text

open Insertion (Ascending Reorders StableOrder)

/-- The place in a text that an offset means: the front for an offset before the text, the end for
one behind it. -/
def clamp (s : Text) (offset : Int) : Nat :=
  min offset.toNat s.length

/-- A text with another one put in behind its first `n` bytes. -/
def insertAt (s : Text) (n : Nat) (w : Text) : Text :=
  s.take n ++ w ++ s.drop n

/-- Makes insertions one after the other, the last one first, each at the place that its offset
means. -/
def insertEach (place : Int → Nat) (s : Text) (insertions : List Insertion) : Text :=
  insertions.foldr (fun e t => t.insertAt (place e.offset) e.text) s

variable {place place' : Int → Nat}

theorem insertEach_cons (e : Insertion) (more : List Insertion) (s : Text) :
    insertEach place s (e :: more) = (insertEach place s more).insertAt (place e.offset) e.text :=
  rfl

theorem length_insertAt (s : Text) (n : Nat) (w : Text) :
    (s.insertAt n w).length = s.length + w.length := by
  simp only [insertAt, List.length_append, List.length_take, List.length_drop]
  omega

theorem sublist_insertAt (s : Text) (n : Nat) (w : Text) : s.Sublist (s.insertAt n w) := by
  have h : (s.take n ++ s.drop n).Sublist (s.take n ++ w ++ s.drop n) :=
    (List.sublist_append_left _ w).append (.refl _)
  rwa [List.take_append_drop] at h

theorem insertAt_append (a s : Text) (n : Nat) (w : Text) :
    (a ++ s).insertAt (a.length + n) w = a ++ s.insertAt n w := by
  simp only [insertAt, List.take_length_add_append, List.drop_length_add_append, List.append_assoc]

/-- Every insertion adds its text. -/
theorem length_insertEach (s : Text) (insertions : List Insertion) :
    (insertEach place s insertions).length =
      s.length + (insertions.map fun e => e.text.length).sum := by
  induction insertions with
  | nil => rfl
  | cons e more ih =>
    rw [insertEach_cons, length_insertAt, ih, List.map_cons, List.sum_cons]
    omega

/-- No insertion takes anything away. -/
theorem sublist_insertEach (s : Text) (insertions : List Insertion) :
    s.Sublist (insertEach place s insertions) := by
  induction insertions with
  | nil => exact .refl _
  | cons e more ih => exact ih.trans (sublist_insertAt _ _ _)

/-- Insertions behind a front part leave it alone. -/
theorem insertEach_append {insertions : List Insertion} (a s : Text)
    (h : ∀ e ∈ insertions, place e.offset = a.length + place' e.offset) :
    insertEach place (a ++ s) insertions = a ++ insertEach place' s insertions := by
  induction insertions with
  | nil => rfl
  | cons e more ih =>
    rw [insertEach_cons, insertEach_cons, ih fun f hf => h f (List.mem_cons_of_mem e hf),
      h e List.mem_cons_self, insertAt_append]

/-! ## One pass -/

/-- One pass over a text makes the insertions one after the other, by induction on the first of
them: what follows is made behind it. -/
theorem spliceSorted_eq {insertions : List Insertion} (h : Ascending insertions) (start : Nat)
    (s : Text) :
    spliceSorted start s insertions =
      insertEach (fun offset => s.clamp (offset - start)) s insertions := by
  induction insertions generalizing start s with
  | nil => rfl
  | cons e more ih =>
    obtain ⟨he, hmore⟩ := List.pairwise_cons.1 h
    obtain ⟨n, hn⟩ : ∃ n, s.clamp (e.offset - start) = n := ⟨_, rfl⟩
    have hle : n ≤ s.length := hn ▸ Nat.min_le_right _ _
    have hlen : (s.take n).length = n := by
      rw [List.length_take]
      omega
    -- The offsets behind the first one mean the same places, counted from there.
    have hplace : ∀ f ∈ more, s.clamp (f.offset - start) =
        (s.take n).length + clamp (s.drop n) (f.offset - (start + n : Nat)) := by
      intro f hf
      have hoffset := he f hf
      rw [hlen]
      simp only [clamp, List.length_drop] at hn ⊢
      omega
    have hrest : insertEach (fun offset => s.clamp (offset - start)) (s.take n ++ s.drop n) more =
        s.take n ++ insertEach (fun offset => clamp (s.drop n) (offset - (start + n : Nat)))
          (s.drop n) more :=
      insertEach_append _ _ hplace
    rw [List.take_append_drop, ← ih hmore (start + n)] at hrest
    have hput : insertAt (s.take n ++ spliceSorted (start + n) (s.drop n) more) n e.text =
        s.take n ++ e.text ++ spliceSorted (start + n) (s.drop n) more := by
      have happ := insertAt_append (s.take n) (spliceSorted (start + n) (s.drop n) more) 0 e.text
      rw [hlen, Nat.add_zero] at happ
      rw [happ]
      simp [insertAt]
    calc spliceSorted start s (e :: more)
        = s.take n ++ e.text ++ spliceSorted (start + n) (s.drop n) more := by
          rw [spliceSorted, show min (e.offset - start).toNat s.length = n from hn]
      _ = insertEach (fun offset => s.clamp (offset - start)) s (e :: more) := by
          rw [insertEach_cons, hrest, hn, hput]

/-- Splicing makes the insertions one after the other, from the last to the first in their order by
offset, whatever the offsets are and wherever they lie. The source is all there, in order, the
length is that of all parts, and insertions at different offsets may be given in any order. -/
theorem splice_one_by_one (source : Text) (insertions : List Insertion) :
    (∃! sorted, StableOrder insertions sorted) ∧
    (∀ sorted, StableOrder insertions sorted →
      source.splice insertions = insertEach source.clamp source sorted) ∧
    source.Sublist (source.splice insertions) ∧
    (source.splice insertions).length =
      source.length + (insertions.map fun e => e.text.length).sum ∧
    ∀ others, Reorders insertions others → source.splice others = source.splice insertions := by
  have hsplice : source.splice insertions =
      insertEach source.clamp source (Insertion.sort insertions) := by
    have hpass := spliceSorted_eq (Insertion.ascending_sort insertions) 0 source
    have hplace : (fun offset => source.clamp (offset - (0 : Nat))) = source.clamp := by
      funext offset
      rw [Int.natCast_zero, Int.sub_zero]
    rwa [hplace] at hpass
  refine ⟨⟨_, Insertion.stableOrder_sort insertions, fun _ h => h.eq_sort⟩, ?_, ?_, ?_, ?_⟩
  · intro sorted h
    rw [hsplice, h.eq_sort]
  · rw [hsplice]
    exact sublist_insertEach source _
  · rw [hsplice, length_insertEach, ((Insertion.perm_sort insertions).map _).sum_nat]
  · intro others h
    rw [splice, splice, h.sort_eq]

/-- Offsets before the text and behind it, out of order. -/
example : splice (ascii "ab") [⟨9, ascii "x"⟩, ⟨-1, ascii "y"⟩, ⟨1, ascii "z"⟩, ⟨-5, ascii "w"⟩,
    ⟨2, ascii "v"⟩, ⟨1, ascii "u"⟩] = ascii "wyazubvx" := by decide

end Text

end ShaderRepair

import ShaderRepair.Proofs.RelocateSession

/-!
# Edits of repairs that have been moved

Repairs that are noted again, with other numbers, become the edits they became before, but at the
places that the tokens have now. This file contains:
- `Stream.Displaces`, streams whose tokens differ in their places;
- `Stream.Displaces.edits_report` and `Stream.Displaces.tally_report`, for reports with the same
  repairs.
-/

namespace ShaderRepair

open Grammar

namespace Correction

/-- The correction with other edits. -/
def mapEdits (f : Edit → Edit) (c : Correction) : Correction :=
  { c with edits := c.edits.map f }

variable (f : Edit → Edit) (cs : List Correction)

theorem enabled_mapEdits (o : Options) :
    enabled o (cs.map (mapEdits f)) = (enabled o cs).map (mapEdits f) := by
  rw [enabled, enabled, List.filter_map]
  rfl

theorem allEdits_mapEdits : allEdits (cs.map (mapEdits f)) = (allEdits cs).map f := by
  rw [allEdits, allEdits, List.flatMap_map, List.map_flatMap]
  rfl

theorem tally_mapEdits : tally (cs.map (mapEdits f)) = tally cs := by
  rw [tally, tally, List.map_map]
  rfl

end Correction

namespace Grammar.Repair

theorem puts_move (r : Repair) (offset : Nat) :
    (r.move offset).puts = r.puts.map fun x => (x.1 + offset, x.2) := by
  obtain ⟨index, missing⟩ := r
  cases missing <;> rfl

/-- Moving changes neither mark nor category, apart from that of a semicolon. -/
theorem mark_move (stream stream' : Stream) (r : Repair) (offset : Nat) :
    (Correction.ofRepair stream' (r.move offset)).mark = (Correction.ofRepair stream r).mark := by
  obtain ⟨index, missing⟩ := r
  cases missing <;> rfl

theorem category_move (stream stream' : Stream) (r : Repair) (offset : Nat)
    (h : r.missing = .semicolon →
      Correction.semicolonCategory (stream'.token (r.index + offset - 1))
          (stream'.token (r.index + offset)) =
        Correction.semicolonCategory (stream.token (r.index - 1)) (stream.token r.index)) :
    (Correction.ofRepair stream' (r.move offset)).category =
      (Correction.ofRepair stream r).category := by
  obtain ⟨index, missing⟩ := r
  cases missing with
  | semicolon => exact h rfl
  | _ => rfl

end Grammar.Repair

/-- The first `count` tokens of one stream are those of the other one from the number `offset` on,
at other places. An edit next to one of them becomes the edit there, and a line ends behind one of
them in both streams or in neither. -/
structure Stream.Displaces (stream stream' : Stream) (count offset : Nat) (φ : Token → Token)
    (f : Edit → Edit) : Prop where
  token : ∀ i < count, stream'.token (i + offset) = φ (stream.token i)
  after : ∀ i < count, ∀ text, Correction.after (φ (stream.token i)) text =
    f (Correction.after (stream.token i) text)
  before : ∀ i < count, ∀ text, Correction.before (φ (stream.token i)) text =
    f (Correction.before (stream.token i) text)
  category : ∀ i < count,
    Correction.semicolonCategory (stream'.token (i + offset)) (stream'.token (i + 1 + offset)) =
      Correction.semicolonCategory (stream.token i) (stream.token (i + 1))

/-- Under all options everything that repairs put in becomes an edit. -/
theorem Stream.edits_report_all (stream : Stream) (ns : List Item) (R : List Repair) :
    (stream.report Options.all ns R).edits = (R.flatMap Repair.puts).map (Put.edit stream) := by
  rw [Stream.report, Correction.enabled_map, Repair.chosen_all, Correction.allEdits_map]

namespace Stream.Displaces

variable {stream stream' : Stream} {count offset : Nat} {φ : Token → Token} {f : Edit → Edit}
  (h : stream.Displaces stream' count offset φ f)
include h

theorem edit {x : Nat × Put} (hpos : 0 < x.1) (hx : Put.anchor x < count) :
    Put.edit stream' (x.1 + offset, x.2) = f (Put.edit stream x) := by
  obtain ⟨n, k | type⟩ := x
  · have hn : n + offset - 1 = n - 1 + offset := by
      have hn : 0 < n := hpos
      omega
    have htoken := h.token _ hx
    simp only [Put.anchor] at htoken hx
    simp only [Put.edit, hn, htoken]
    exact h.after _ hx _
  · have htoken := h.token _ hx
    simp only [Put.anchor] at htoken hx
    simp only [Put.edit, htoken]
    exact h.before _ hx _

theorem ofRepair {R : List Repair} (hR : Anchored count R) {r : Repair} (hr : r ∈ R) :
    Correction.ofRepair stream' (r.move offset) =
      (Correction.ofRepair stream r).mapEdits f := by
  have hcategory := r.category_move stream stream' offset fun hmissing => by
    obtain ⟨index, missing⟩ := r
    obtain rfl : missing = .semicolon := hmissing
    obtain ⟨hpos, hle⟩ := hR.semicolon hr
    obtain ⟨i, rfl⟩ : ∃ i, index = i + 1 := ⟨index - 1, by omega⟩
    have hi : i + 1 + offset - 1 = i + offset := by omega
    simp only [hi, Nat.add_sub_cancel]
    exact h.category i hle
  have hedits : (Correction.ofRepair stream' (r.move offset)).edits =
      (Correction.ofRepair stream r).edits.map f := by
    rw [edits_ofRepair, edits_ofRepair, r.puts_move, List.map_map, List.map_map]
    refine List.map_congr_left fun x hx => ?_
    obtain ⟨hpos, -, hanchor⟩ := hR x (List.mem_flatMap.2 ⟨r, hr, hx⟩)
    exact h.edit hpos hanchor
  rw [Correction.mapEdits, ← hedits, ← r.mark_move stream stream' offset, ← hcategory]

/-- The options ask for the same corrections. -/
theorem enabled {R : List Repair} (hR : Anchored count R) (o : Options) :
    Correction.enabled o ((R.map (Repair.move offset)).map (Correction.ofRepair stream')) =
      (Correction.enabled o (R.map (Correction.ofRepair stream))).map (Correction.mapEdits f) := by
  rw [← Correction.enabled_mapEdits, List.map_map, List.map_map]
  exact congrArg _ (List.map_congr_left fun r hr => h.ofRepair hR hr)

/-- So the same is put in, at the other places. -/
theorem edits_report {R : List Repair} (hR : Anchored count R) (o : Options) (ns ns' : List Item) :
    (stream'.report o ns' (R.map (Repair.move offset))).edits =
      (stream.report o ns R).edits.map f := by
  rw [Stream.report, Stream.report, h.enabled hR, Correction.allEdits_mapEdits]

theorem tally_report {R : List Repair} (hR : Anchored count R) (o : Options) (ns ns' : List Item) :
    (stream'.report o ns' (R.map (Repair.move offset))).tally = (stream.report o ns R).tally := by
  rw [Stream.report, Stream.report, h.enabled hR, Correction.tally_mapEdits]

end Stream.Displaces

end ShaderRepair

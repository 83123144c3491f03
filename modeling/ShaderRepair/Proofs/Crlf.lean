import ShaderRepair.Position
import ShaderRepair.Proofs.Ignored

/-!
# Line breaks of two bytes

A text with a carriage return put in front of every line feed has the same lines and the same
columns, only offsets change. This file contains:
- `Text.crlf` and `Text.crlfOffset`, the text and what becomes of an offset;
- the lines of the text, its runes, and what is found in it;
- `Position.crlf`, what becomes of a place.
-/

namespace ShaderRepair

open Reach

namespace Text

/-- The text with a carriage return put in front of every line feed. -/
def crlf (s : Text) : Text :=
  s.flatMap fun b => if b = lineFeed then [carriageReturn, lineFeed] else [b]

@[simp] theorem crlf_nil : crlf [] = [] := rfl

theorem crlf_feed (s : Text) : crlf (lineFeed :: s) = carriageReturn :: lineFeed :: crlf s := rfl

theorem crlf_cons {b : UInt8} (hb : b ≠ lineFeed) (s : Text) : crlf (b :: s) = b :: crlf s := by
  rw [crlf, List.flatMap_cons, if_neg hb]
  rfl

theorem crlf_append (a v : Text) : crlf (a ++ v) = crlf a ++ crlf v :=
  List.flatMap_append

theorem crlf_of_notMem {a : Text} (h : lineFeed ∉ a) : crlf a = a := by
  induction a with
  | nil => rfl
  | cons b a ih =>
    rw [List.mem_cons, not_or] at h
    rw [crlf_cons (Ne.symm h.1), ih h.2]

/-- The first line is there, with a carriage return at its end. -/
theorem crlf_line {line : Text} (h : lineFeed ∉ line) (x : Text) :
    crlf (line ++ lineFeed :: x) = line ++ [carriageReturn] ++ lineFeed :: crlf x := by
  rw [crlf_append, crlf_of_notMem h, crlf_feed, List.append_assoc]
  rfl

theorem length_le_crlf (s : Text) : s.length ≤ (crlf s).length := by
  induction s with
  | nil => exact Nat.le_refl _
  | cons b s ih =>
    by_cases hb : b = lineFeed
    · rw [hb, crlf_feed, List.length_cons, List.length_cons, List.length_cons]
      omega
    · rw [crlf_cons hb, List.length_cons, List.length_cons]
      exact Nat.succ_le_succ ih

theorem crlf_eq_nil {s : Text} : crlf s = [] ↔ s = [] := by
  constructor
  · intro h
    have hle := length_le_crlf s
    rw [h] at hle
    exact List.length_eq_zero_iff.1 (Nat.le_zero.1 hle)
  · rintro rfl
    rfl

/-- What holds of a single line, and of a text if it holds of what is behind its first line, holds
of all texts. -/
theorem line_induction {motive : Text → Prop} (last : ∀ line, lineFeed ∉ line → motive line)
    (line : ∀ line x, lineFeed ∉ line → motive x → motive (line ++ lineFeed :: x)) (s : Text) :
    motive s := by
  induction hn : s.length using Nat.strongRecOn generalizing s with
  | ind n ih =>
    rcases exists_line s with hs | ⟨front, x, rfl, hfront⟩
    · exact last s hs
    · refine line front x hfront (ih x.length ?_ x rfl)
      rw [← hn, List.length_append, List.length_cons]
      omega

/-! ## Offsets -/

/-- The offset in the text with carriage returns that the offset `n` becomes. -/
def crlfOffset (s : Text) (n : Nat) : Nat :=
  (crlf (s.take n)).length

theorem take_crlf (s : Text) (n : Nat) : (crlf s).take (s.crlfOffset n) = crlf (s.take n) := by
  have happ := crlf_append (s.take n) (s.drop n)
  rw [List.take_append_drop] at happ
  rw [happ, crlfOffset, List.take_left]

theorem crlfOffset_append (a v : Text) (n : Nat) :
    (a ++ v).crlfOffset (a.length + n) = (crlf a).length + v.crlfOffset n := by
  rw [crlfOffset, List.take_length_add_append, crlf_append, List.length_append]
  rfl

theorem crlfOffset_cons (b : UInt8) (s : Text) (n : Nat) :
    crlfOffset (b :: s) (n + 1) = (crlf [b]).length + crlfOffset s n := by
  rw [← crlfOffset_append, List.length_singleton, Nat.add_comm 1]
  rfl

theorem crlfOffset_left (a v : Text) : (a ++ v).crlfOffset a.length = (crlf a).length :=
  crlfOffset_append a v 0

theorem crlfOffset_length (s : Text) : s.crlfOffset s.length = (crlf s).length := by
  rw [crlfOffset, List.take_length]

/-- On the first line offsets do not change. -/
theorem crlfOffset_of_notMem {s : Text} {n : Nat} (hn : n ≤ s.length)
    (h : lineFeed ∉ s.take n) : s.crlfOffset n = n := by
  rw [crlfOffset, crlf_of_notMem h, List.length_take_of_le hn]

theorem crlfOffset_of_le {line : Text} (h : lineFeed ∉ line) (x : Text) {n : Nat}
    (hn : n ≤ line.length) : (line ++ x).crlfOffset n = n := by
  refine crlfOffset_of_notMem ?_ ?_
  · rw [List.length_append]
    exact Nat.le_add_right_of_le hn
  · rw [List.take_append_of_le_length hn]
    exact fun hmem => h (List.mem_of_mem_take hmem)

theorem crlfOffset_lt {s : Text} {m n : Nat} (hmn : m < n) (hn : n ≤ s.length) :
    s.crlfOffset m < s.crlfOffset n := by
  have hsplit : s.take n = s.take m ++ (s.take n).drop m := by
    have happ := List.take_append_drop m (s.take n)
    rw [List.take_take, Nat.min_eq_left (Nat.le_of_lt hmn)] at happ
    exact happ.symm
  have hpos : 0 < ((s.take n).drop m).length := by
    rw [List.length_drop, List.length_take_of_le hn]
    omega
  have hle := length_le_crlf ((s.take n).drop m)
  rw [crlfOffset, crlfOffset, hsplit, crlf_append, List.length_append]
  omega

theorem crlfOffset_le_iff {s : Text} {m n : Nat} (hm : m ≤ s.length) (hn : n ≤ s.length) :
    s.crlfOffset m ≤ s.crlfOffset n ↔ m ≤ n := by
  constructor
  · intro h
    by_contra hlt
    have := crlfOffset_lt (Nat.lt_of_not_le hlt) hm
    omega
  · intro h
    rcases Nat.lt_or_eq_of_le h with hlt | rfl
    · exact Nat.le_of_lt (crlfOffset_lt hlt hn)
    · exact Nat.le_refl _

theorem crlfOffset_inj {s : Text} {m n : Nat} (hm : m ≤ s.length) (hn : n ≤ s.length) :
    s.crlfOffset m = s.crlfOffset n ↔ m = n := by
  rw [Nat.le_antisymm_iff, crlfOffset_le_iff hm hn, crlfOffset_le_iff hn hm, Nat.le_antisymm_iff]

/-! ## Lines -/

theorem chomp_of_notMem {line : Text} (h : carriageReturn ∉ line) : chomp line = line := by
  rcases chomp_cases line with hsame | hmore
  · exact hsame
  · rw [hmore] at h
    exact absurd (List.mem_append_right _ (List.mem_singleton_self _)) h

/-- The lines are shown as they were. -/
theorem map_chomp_lines_crlf {s : Text} (hs : carriageReturn ∉ s) :
    (lines (crlf s)).map chomp = lines s := by
  induction s using line_induction with
  | last line h =>
    rw [crlf_of_notMem h, lines, split_of_notMem h, List.map_singleton, chomp_of_notMem hs]
  | line line x h ih =>
    rw [List.mem_append, List.mem_cons, not_or, not_or] at hs
    have hfront : lineFeed ∉ line ++ [carriageReturn] := by
      rw [List.mem_append, List.mem_singleton, not_or]
      exact ⟨h, by decide⟩
    have hlines := split_append_cons (crlf x) hfront
    rw [crlf_line h, lines, hlines, lines, split_append_cons x h, List.map_cons, chomp,
      dropFinal_append]
    exact congrArg (line :: ·) (ih hs.2.2)

theorem map_chomp_lines {s : Text} (hs : carriageReturn ∉ s) : (lines s).map chomp = lines s := by
  induction s using line_induction with
  | last line h => rw [lines, split_of_notMem h, List.map_singleton, chomp_of_notMem hs]
  | line line x h ih =>
    rw [List.mem_append, List.mem_cons, not_or, not_or] at hs
    rw [lines, split_append_cons x h, List.map_cons, chomp_of_notMem hs.1]
    exact congrArg (line :: ·) (ih hs.2.2)

/-! ## What is found -/

section Find

variable {w : Text} (hw : ∀ b ∈ w, isBreakByte b = false)
include hw

/-- A text without line breaks stands at the front if it stood there. -/
theorem isPrefixOf_crlf (s : Text) : w.isPrefixOf (crlf s) = w.isPrefixOf s := by
  induction w generalizing s with
  | nil => rfl
  | cons c w ih =>
    have hc : isBreakByte c = false := hw c List.mem_cons_self
    cases s with
    | nil => rfl
    | cons b s =>
      by_cases hb : b = lineFeed
      · have hfeed : (c == lineFeed) = false := by
          rw [beq_eq_false_iff_ne]
          rintro rfl
          cases hc
        have hreturn : (c == carriageReturn) = false := by
          rw [beq_eq_false_iff_ne]
          rintro rfl
          cases hc
        rw [hb, crlf_feed, List.isPrefixOf_cons_cons, List.isPrefixOf_cons_cons, hfeed, hreturn,
          Bool.false_and, Bool.false_and]
      · rw [crlf_cons hb, List.isPrefixOf_cons_cons, List.isPrefixOf_cons_cons,
          ih (fun d hd => hw d (List.mem_cons_of_mem c hd)) s]

theorem isPrefixOf_break (hne : w ≠ []) {b : UInt8} (hb : isBreakByte b = true) (s : Text) :
    w.isPrefixOf (b :: s) = false := by
  obtain ⟨c, w, rfl⟩ := List.exists_cons_of_ne_nil hne
  have hc : isBreakByte c = false := hw c List.mem_cons_self
  have hcb : (c == b) = false := by
    rw [beq_eq_false_iff_ne]
    rintro rfl
    rw [hb] at hc
    cases hc
  rw [List.isPrefixOf_cons_cons, hcb, Bool.false_and]

/-- It is found where it was. -/
theorem find?_crlf (hne : w ≠ []) (s : Text) :
    find? w (crlf s) = (find? w s).map (crlfOffset s) := by
  induction s with
  | nil =>
    have hempty : ¬w.isEmpty = true := by simpa using hne
    rw [crlf_nil, find?, if_neg hempty]
    rfl
  | cons b s ih =>
    have hmore : ((find? w s).map (· + 1)).map (crlfOffset (b :: s)) =
        (find? w (crlf s)).map ((crlf [b]).length + ·) := by
      rw [ih, Option.map_map, Option.map_map]
      congr 1
      funext n
      exact crlfOffset_cons b s n
    by_cases hb : b = lineFeed
    · subst hb
      have hnot := isPrefixOf_break hw hne (b := lineFeed) rfl
      have hnot' := isPrefixOf_break hw hne (b := carriageReturn) rfl
      rw [find?, if_neg (by rw [hnot]; exact Bool.false_ne_true), hmore, crlf_feed, find?,
        if_neg (by rw [hnot']; exact Bool.false_ne_true), find?,
        if_neg (by rw [hnot]; exact Bool.false_ne_true), Option.map_map]
      congr 1
      funext n
      exact Nat.add_comm n 2
    · have hprefix := isPrefixOf_crlf hw (b :: s)
      have hone : crlf [b] = [b] := crlf_cons hb []
      rw [crlf_cons hb] at hprefix ⊢
      rw [find?, find?, hprefix]
      split
      · rfl
      · rw [hmore, hone]
        congr 1
        funext n
        exact Nat.add_comm n 1

end Find

end Text

/-! ## Runes and places -/

/-- A rune does not depend on the line breaks behind it. -/
theorem Rune.first_crlf (b : UInt8) (s : Text) : first b (Text.crlf s) = first b s := by
  rcases Text.exists_line s with h | ⟨line, x, rfl, h⟩
  · rw [Text.crlf_of_notMem h]
  · have hfeed : NoTail (Text.lineFeed :: x) := by
      rintro c y hc
      obtain ⟨rfl, -⟩ := List.cons.inj hc
      decide
    have hreturn : NoTail (Text.carriageReturn :: Text.lineFeed :: Text.crlf x) := by
      rintro c y hc
      obtain ⟨rfl, -⟩ := List.cons.inj hc
      decide
    rw [Text.crlf_line h, List.append_assoc, List.singleton_append, first_append hreturn,
      first_append hfeed]

/-- Behind its first byte a rune has no ASCII. -/
theorem Rune.tails (b : UInt8) (s : Text) :
    ∀ c ∈ s.take ((first b s).width - 1), (0x80 : UInt8) ≤ c := by
  obtain ⟨w, y, hs, hw, htails⟩ := first_tails b s
  generalize (first b s).width - 1 = n at hw ⊢
  subst hs
  rw [List.take_append_of_le_length hw]
  exact fun c hc => htails c (List.mem_of_mem_take hc)

namespace Position

/-- Carriage returns in front of line feeds change neither the line nor the column behind a text. -/
theorem foldl_step_crlf (k : Nat) (s : Text) (hk : ∀ c ∈ s.take k, (0x80 : UInt8) ≤ c)
    (p : Position) :
    (Text.runesAfter k (Text.crlf s)).foldl step p = (Text.runesAfter k s).foldl step p := by
  induction s generalizing k p with
  | nil => rfl
  | cons b s ih =>
    cases k with
    | succ k =>
      rw [List.take_succ_cons] at hk
      have hb : b ≠ Text.lineFeed := by
        rintro rfl
        exact absurd (hk Text.lineFeed List.mem_cons_self) (by decide)
      rw [Text.crlf_cons hb]
      exact ih k (fun c hc => hk c (List.mem_cons_of_mem b hc)) p
    | zero =>
      by_cases hb : b = Text.lineFeed
      · subst hb
        exact ih 0 (by simp) (p.step (.scalar 10))
      · rw [Text.crlf_cons hb, Text.runesAfter, Text.runesAfter, Rune.first_crlf]
        exact ih _ (Rune.tails b s) (p.step (Rune.first b s))

/-- Lines and columns are counted whatever the offset is. -/
theorem foldl_step_offset (rs : List Rune) (p : Position) (n : Int) :
    rs.foldl step { p with offset := n } = { rs.foldl step p with offset := n } := by
  induction rs generalizing p with
  | nil => rfl
  | cons r rs ih =>
    have hstep : step { p with offset := n } r = { p.step r with offset := n } := by
      unfold step
      split
      · rfl
      · rfl
    rw [List.foldl_cons, List.foldl_cons, hstep, ih]

/-- What becomes of a place in the text `s`. -/
def crlf (s : Text) (p : Position) : Position :=
  ⟨s.crlfOffset p.offset.toNat, p.line, p.column⟩

/-- Moving along a part of the text, and along what becomes of it. -/
theorem advance_crlf {w a v : Text} {p : Position} (hp : p.offset = w.length) :
    (p.crlf (w ++ (a ++ v))).advance (Text.crlf a) = (p.advance a).crlf (w ++ (a ++ v)) := by
  have hruns := foldl_step_crlf 0 a (by simp)
  have hstart : p.offset.toNat = w.length := by rw [hp, Int.toNat_natCast]
  have hstop : (p.advance a).offset.toNat = (w ++ a).length := by
    have hadvance : (p.advance a).offset = p.offset + a.length := rfl
    rw [hadvance, hp, List.length_append, ← Int.natCast_add, Int.toNat_natCast]
  have hoffset : ((w ++ (a ++ v)).crlfOffset w.length : Int) + (Text.crlf a).length =
      (w ++ (a ++ v)).crlfOffset (w ++ a).length := by
    rw [Text.crlfOffset_left, ← List.append_assoc, Text.crlfOffset_left, Text.crlf_append,
      List.length_append]
    rfl
  have hplace : p.crlf (w ++ (a ++ v)) =
      { p with offset := (w ++ (a ++ v)).crlfOffset w.length } := by
    rw [crlf, hstart]
  rw [hplace, advance, Text.runes, foldl_step_offset, hruns, crlf, hstop, ← hoffset]
  rfl

end Position

end ShaderRepair

import ShaderRepair.Proofs.Reach

/-!
# Blanks, comments and directives

These go on up to something that ends them, so where a text is changed behind one of them, what
matters is what the changed text begins with. This file contains:
- `Continues v v'`, which says that `v'` begins like `v` where this could matter;
- runs of blanks: `Reach.blanks_congr`;
- comments and directives: `Reach.comment_congr` and `Reach.directive_congr`;
- what such a lexeme ends with, and what can follow it.
-/

namespace ShaderRepair

/-- The ASCII characters that are not blank. -/
def isSolid (b : UInt8) : Bool :=
  0x21 ≤ b && b ≤ 0x7E

/-- A text that begins a line or is empty. -/
def EndsLine (v : Text) : Prop :=
  v = [] ∨ (∃ x, v = Text.lineFeed :: x) ∨ ∃ x, v = Text.carriageReturn :: Text.lineFeed :: x

/-- The second text begins like the first one, as far as line breaks and blanks go. -/
structure Continues (v v' : Text) : Prop where
  nil : v = [] → v' = []
  feed : ∀ x, v = Text.lineFeed :: x → ∃ x', v' = Text.lineFeed :: x'
  crlf : ∀ x, v = Text.carriageReturn :: Text.lineFeed :: x →
    ∃ x', v' = Text.carriageReturn :: Text.lineFeed :: x'
  solid : ∀ b x, v = b :: x → isSolid b = true → ∃ b' x', v' = b' :: x' ∧ isSolid b' = true

theorem Continues.refl (v : Text) : Continues v v :=
  ⟨id, fun x h => ⟨x, h⟩, fun x h => ⟨x, h⟩, fun b x h hb => ⟨b, x, h, hb⟩⟩

/-- Where a solid byte stands, another one may stand. -/
theorem Continues.of_solid {b c : UInt8} (hb : isSolid b = true) (hc : isSolid c = true)
    (x y : Text) : Continues (b :: x) (c :: y) := by
  refine ⟨fun hnil => absurd hnil (List.cons_ne_nil b x), ?_, ?_, fun _ _ _ _ => ⟨c, y, rfl, hc⟩⟩
  · intro z hz
    rw [(List.cons.inj hz).1] at hb
    cases hb
  · intro z hz
    rw [(List.cons.inj hz).1] at hb
    cases hb

theorem EndsLine.not_solid {b : UInt8} {x : Text} (h : EndsLine (b :: x)) :
    isSolid b = false := by
  rcases h with h | ⟨y, h⟩ | ⟨y, h⟩
  · cases h
  · cases h
    rfl
  · cases h
    rfl

/-! ## Runes -/

/-- A text that goes on with no tail of a rune. -/
def NoTail (v : Text) : Prop :=
  ∀ b x, v = b :: x → b < 0x80

namespace Rune

theorem first_of_ascii {b : UInt8} (h : b < 0x80) (s : Text) : first b s = .scalar b.toNat :=
  if_pos h

theorem isTail_of_ascii {b : UInt8} (h : b < 0x80) : isTail b = false := by
  simp only [isTail, Bool.and_eq_false_iff, decide_eq_false_iff_not, UInt8.not_le]
  exact .inl h

theorem isSecond_of_ascii {b : UInt8} (lead : UInt8) (h : b < 0x80) : isSecond lead b = false := by
  have hle : ∀ c : UInt8, 0x80 ≤ c → decide (c ≤ b) = false := by
    intro c hc
    rw [decide_eq_false_iff_not, UInt8.not_le]
    exact UInt8.lt_of_lt_of_le h hc
  simp only [isSecond, isTail_of_ascii h, hle _ (show (0x80 : UInt8) ≤ 0xA0 by decide),
    hle _ (show (0x80 : UInt8) ≤ 0x80 by decide), hle _ (show (0x80 : UInt8) ≤ 0x90 by decide),
    Bool.false_and, ite_self]

/-- A rune does not depend on what follows, if this is no tail. -/
theorem first_append {v : Text} (hv : NoTail v) (b : UInt8) (x : Text) :
    first b (x ++ v) = first b x := by
  match v with
  | [] => rw [List.append_nil]
  | c :: v =>
    have hc : c < 0x80 := hv c v rfl
    have htail := isTail_of_ascii hc
    have hsecond := isSecond_of_ascii b hc
    match x with
    | [] => cases v <;> (try cases ‹Text›) <;> simp [first, htail, hsecond]
    | [d] => cases v <;> simp [first, htail]
    | [d, e] => simp [first, htail]
    | d :: e :: f :: x => rfl

theorem le_of_isTail {b : UInt8} (h : isTail b = true) : 0x80 ≤ b := by
  by_contra hb
  rw [isTail_of_ascii (UInt8.not_le.1 hb)] at h
  cases h

theorem le_of_isSecond {lead b : UInt8} (h : isSecond lead b = true) : 0x80 ≤ b := by
  by_contra hb
  rw [isSecond_of_ascii lead (UInt8.not_le.1 hb)] at h
  cases h

theorem width_le_two (code : Nat) (h : code < 0x800) : (scalar code).width ≤ 2 := by
  simp only [width]
  split <;> omega

theorem width_le_three (code : Nat) (h : code < 0x10000) : (scalar code).width ≤ 3 := by
  simp only [width]
  split
  · omega
  · split <;> omega

theorem width_le_four (r : Rune) : r.width ≤ 4 := by
  cases r with
  | scalar code =>
    simp only [width]
    split
    · omega
    · split
      · omega
      · split <;> omega
  | invalid b => exact Nat.le_add_left 1 3

theorem tailBits_lt (b : UInt8) : tailBits b < 64 :=
  Nat.mod_lt _ (by decide)

/-- The bytes that a rune takes behind its first one are there, and they are no ASCII. -/
theorem first_tails (b : UInt8) (x : Text) :
    ∃ w y, x = w ++ y ∧ (first b x).width - 1 ≤ w.length ∧ ∀ c ∈ w, 0x80 ≤ c := by
  have hone : ∀ r : Rune, r.width ≤ 1 →
      ∃ w y, x = w ++ y ∧ r.width - 1 ≤ w.length ∧ ∀ c ∈ w, (0x80 : UInt8) ≤ c :=
    fun r hr => ⟨[], x, rfl, by simp only [List.length_nil]; omega, by simp⟩
  have hinvalid := hone (.invalid b) (Nat.le_refl 1)
  -- The first byte tells the length: one byte, none that begins a rune, two, three or four bytes.
  unfold first
  split
  · next hb =>
    refine hone _ ?_
    have hlt : b.toNat < 0x80 := UInt8.lt_iff_toNat_lt.1 hb
    simp [width, hlt]
  split
  · exact hinvalid
  split
  · split
    · next c y =>
      split
      · next hc =>
        have hw := width_le_two (b.toNat % 32 * 64 + tailBits c) (by
          have := tailBits_lt c
          omega)
        refine ⟨[c], y, rfl, by simp only [List.length_singleton]; omega, ?_⟩
        simpa using le_of_isTail hc
      · exact hinvalid
    · exact hinvalid
  split
  · split
    · next c d y =>
      split
      · next hcd =>
        rw [Bool.and_eq_true] at hcd
        have hw := width_le_three ((b.toNat % 16 * 64 + tailBits c) * 64 + tailBits d) (by
          have := tailBits_lt c
          have := tailBits_lt d
          omega)
        refine ⟨[c, d], y, rfl, by simp only [List.length_cons, List.length_nil]; omega, ?_⟩
        simpa using ⟨le_of_isSecond hcd.1, le_of_isTail hcd.2⟩
      · exact hinvalid
    · exact hinvalid
  split
  · split
    · next c d e y =>
      split
      · next hcde =>
        rw [Bool.and_eq_true, Bool.and_eq_true] at hcde
        refine ⟨[c, d, e], y, rfl, Nat.sub_le_sub_right (width_le_four _) 1, ?_⟩
        simpa using ⟨le_of_isSecond hcde.1.1, le_of_isTail hcde.1.2, le_of_isTail hcde.2⟩
      · exact hinvalid
    · exact hinvalid
  · exact hinvalid

end Rune

/-! ## Runs of blanks -/

/-- The bytes of blank runes. -/
def isBlankByte (b : UInt8) : Bool :=
  (9 ≤ b && b ≤ 13) || b = 32 || 0x80 ≤ b

namespace Text

theorem blankAfter_le (k : Nat) (s : Text) : blankAfter k s ≤ s.length := by
  fun_induction blankAfter k s with
  | case1 => exact Nat.le_refl _
  | case2 k b s ih => exact Nat.succ_le_succ ih
  | case3 b s r h ih => exact Nat.succ_le_succ ih
  | case4 => exact Nat.zero_le _

/-- How many bytes behind the first one a rune takes. -/
theorem first_width_le (b : UInt8) (s : Text) : (Rune.first b s).width - 1 ≤ s.length := by
  obtain ⟨w, y, hs, hw, -⟩ := Rune.first_tails b s
  have hlen := congrArg List.length hs
  rw [List.length_append] at hlen
  omega

/-- A run of blanks ends in front of `v`, or goes on with the blanks that `v` begins with. -/
theorem blankAfter_append {v : Text} (hv : NoTail v) (k : Nat) (a : Text) (hk : k ≤ a.length) :
    blankAfter k (a ++ v) =
      if blankAfter k a = a.length then a.length + blankRun v else blankAfter k a := by
  induction a generalizing k with
  | nil =>
    obtain rfl : k = 0 := Nat.le_zero.1 hk
    simp [blankAfter, blankRun]
  | cons b a ih =>
    cases k with
    | succ k =>
      have hk' : k ≤ a.length := Nat.le_of_succ_le_succ hk
      simp only [List.cons_append, blankAfter, ih k hk', List.length_cons, Nat.add_right_cancel_iff]
      split <;> omega
    | zero =>
      have hrune := Rune.first_append hv b a
      simp only [List.cons_append, blankAfter, hrune]
      split
      · have hk' := first_width_le b a
        simp only [ih _ hk', List.length_cons, Nat.add_right_cancel_iff]
        split <;> omega
      · simp

/-- Where a run of blanks ends, no other one begins. -/
theorem blankRun_drop (k : Nat) (s : Text) (hk : k ≤ s.length) :
    blankRun (s.drop (blankAfter k s)) = 0 := by
  fun_induction blankAfter k s with
  | case1 k => rfl
  | case2 k b s ih => exact ih (Nat.le_of_succ_le_succ hk)
  | case3 b s r h ih => exact ih (first_width_le b s)
  | case4 b s r h =>
    rw [List.drop_zero, blankRun, blankAfter]
    exact if_neg h

theorem isBlankByte_of_isBlank {b : UInt8} {s : Text} (h : (Rune.first b s).isBlank = true) :
    isBlankByte b = true := by
  by_cases hb : b < 0x80
  · rw [Rune.first_of_ascii hb, Rune.isBlank, Rune.code] at h
    have hlt : b.toNat < 0x80 := UInt8.lt_iff_toNat_lt.1 hb
    simp only [Rune.isBlankCode, Bool.or_eq_true, Bool.and_eq_true, decide_eq_true_eq,
      beq_iff_eq] at h
    have hcode : (9 ≤ b.toNat ∧ b.toNat ≤ 13) ∨ b.toNat = 32 := by omega
    rcases hcode with ⟨h₁, h₂⟩ | h₁
    · simp [isBlankByte, UInt8.le_iff_toNat_le, h₁, h₂]
    · have hb' : b = 32 := UInt8.toNat_inj.1 h₁
      simp [isBlankByte, hb']
  · simp [isBlankByte, UInt8.not_lt.1 hb]

theorem blankAfter_bytes (k : Nat) (s : Text) (hk : ∀ c ∈ s.take k, (0x80 : UInt8) ≤ c) :
    ∀ c ∈ s.take (blankAfter k s), isBlankByte c = true := by
  fun_induction blankAfter k s with
  | case1 k => simp
  | case2 k b s ih =>
    intro c hc
    rw [List.take_succ_cons, List.mem_cons] at hc
    rcases hc with rfl | hc
    · have hb : (0x80 : UInt8) ≤ c := hk c (by simp)
      simp [isBlankByte, hb]
    · exact ih (fun d hd => hk d (by simp [hd])) c hc
  | case3 b s r h ih =>
    intro c hc
    rw [List.take_succ_cons, List.mem_cons] at hc
    rw [Bool.and_eq_true] at h
    rcases hc with rfl | hc
    · exact isBlankByte_of_isBlank h.2
    · refine ih ?_ c hc
      intro d hd
      obtain ⟨w, y, hs, hw, htail⟩ := Rune.first_tails b s
      rw [hs, List.take_append_of_le_length hw] at hd
      exact htail d (List.mem_of_mem_take hd)
  | case4 => simp

end Text

namespace Reach

open Text

/-! ### Blanks on one line -/

/-- A text that begins with nothing that could be blank but a line break. -/
def Halts (v : Text) : Prop :=
  EndsLine v ∨ ∃ b x, v = b :: x ∧ isSolid b = true

theorem isSolid_ascii {b : UInt8} (h : isSolid b = true) : b < 0x80 := by
  simp only [isSolid, Bool.and_eq_true, decide_eq_true_eq] at h
  exact UInt8.lt_of_le_of_lt h.2 (by decide)

theorem isBlankByte_of_isSolid {b : UInt8} (h : isSolid b = true) : isBlankByte b = false := by
  simp only [isSolid, Bool.and_eq_true, decide_eq_true_eq, UInt8.le_iff_toNat_le] at h
  simp only [isBlankByte, Bool.or_eq_false_iff, Bool.and_eq_false_iff, decide_eq_false_iff_not,
    UInt8.le_iff_toNat_le, ← UInt8.toNat_inj]
  have h₁ : (0x21 : UInt8).toNat = 33 := rfl
  have h₂ : (0x7E : UInt8).toNat = 126 := rfl
  have h₃ : (13 : UInt8).toNat = 13 := rfl
  have h₄ : (32 : UInt8).toNat = 32 := rfl
  have h₅ : (0x80 : UInt8).toNat = 128 := rfl
  omega

theorem blankRun_of_not_blank {b : UInt8} (h : isBlankByte b = false) (x : Text) :
    blankRun (b :: x) = 0 := by
  have hnot : (Rune.first b x).isBlank = false := by
    by_contra hblank
    rw [isBlankByte_of_isBlank (by simpa using hblank)] at h
    cases h
  simp [blankRun, blankAfter, hnot]

theorem blankRun_feed (x : Text) : blankRun (lineFeed :: x) = 0 := by
  simp [blankRun, blankAfter]

theorem blankRun_crlf (x : Text) : blankRun (carriageReturn :: lineFeed :: x) = 1 := by
  have hrune : Rune.first carriageReturn (lineFeed :: x) = .scalar 13 := rfl
  have hfeed : blankAfter 0 (lineFeed :: x) = 0 := blankRun_feed x
  have hblank : (Rune.scalar 13).isBlank = true := rfl
  have hwidth : (Rune.scalar 13).width - 1 = 0 := rfl
  have hne : carriageReturn ≠ lineFeed := by decide
  simp [blankRun, blankAfter, hrune, hblank, hwidth, hfeed, hne]

theorem Halts.noTail {v : Text} (h : Halts v) : NoTail v := by
  rintro b x rfl
  rcases h with (h | ⟨y, h⟩ | ⟨y, h⟩) | ⟨c, y, h, hc⟩
  · cases h
  · cases h
    decide
  · cases h
    decide
  · cases h
    exact isSolid_ascii hc

/-- Two texts that run out of blanks in the same way. -/
theorem Halts.blankRun_eq {v v' : Text} (h : Halts v) (hv : Continues v v') :
    Halts v' ∧ blankRun v' = blankRun v ∧
      ((∃ x, v' = lineFeed :: x) ↔ ∃ x, v = lineFeed :: x) ∧
      ([carriageReturn, lineFeed].isPrefixOf v' = [carriageReturn, lineFeed].isPrefixOf v) := by
  rcases h with (rfl | ⟨x, rfl⟩ | ⟨x, rfl⟩) | ⟨b, x, rfl, hb⟩
  · rw [hv.nil rfl]
    exact ⟨.inl (.inl rfl), rfl, Iff.rfl, rfl⟩
  · obtain ⟨x', rfl⟩ := hv.feed x rfl
    exact ⟨.inl (.inr (.inl ⟨x', rfl⟩)), by rw [blankRun_feed, blankRun_feed],
      ⟨fun _ => ⟨x, rfl⟩, fun _ => ⟨x', rfl⟩⟩, rfl⟩
  · obtain ⟨x', rfl⟩ := hv.crlf x rfl
    refine ⟨.inl (.inr (.inr ⟨x', rfl⟩)), by rw [blankRun_crlf, blankRun_crlf], ?_, by simp⟩
    simp
  · obtain ⟨b', x', rfl, hb'⟩ := hv.solid b x rfl hb
    have hsolid : ∀ c : UInt8, isSolid c = true → c ≠ lineFeed ∧ c ≠ carriageReturn := by
      intro c hc
      constructor
      · rintro rfl
        cases hc
      · rintro rfl
        cases hc
    refine ⟨.inr ⟨b', x', rfl, hb'⟩, ?_, ?_, ?_⟩
    · rw [blankRun_of_not_blank (isBlankByte_of_isSolid hb),
        blankRun_of_not_blank (isBlankByte_of_isSolid hb')]
    · simp [(hsolid b hb).1, (hsolid b' hb').1]
    · have hnot : ∀ c y, isSolid c = true →
          [carriageReturn, lineFeed].isPrefixOf (c :: y) = false := by
        intro c y hc
        rw [List.isPrefixOf_cons_cons, beq_false_of_ne (hsolid c hc).2.symm, Bool.false_and]
      rw [hnot b x hb, hnot b' x' hb']

/-- Of what ends blanks at most one byte is blank. -/
theorem Halts.blankRun_le_one {v : Text} (h : Halts v) : blankRun v ≤ 1 := by
  rcases h with (rfl | ⟨x, rfl⟩ | ⟨x, rfl⟩) | ⟨b, x, rfl, hb⟩
  · exact Nat.zero_le _
  · rw [blankRun_feed]
    exact Nat.zero_le _
  · rw [blankRun_crlf]
  · rw [blankRun_of_not_blank (isBlankByte_of_isSolid hb)]
    exact Nat.zero_le _

theorem Halts.blankRun_append_le {v : Text} (h : Halts v) (a : Text) :
    blankRun (a ++ v) ≤ a.length + 1 := by
  have hone := h.blankRun_le_one
  have hmax := blankAfter_le 0 a
  rw [blankRun, blankAfter_append h.noTail 0 a (Nat.zero_le _)]
  split <;> omega

/-- Up to the end of `a` two texts that go on in the same way have the same line breaks. -/
theorem isPrefixOf_drop_append (a : Text) {v v' : Text} {n : Nat} (hn : n ≤ a.length)
    (hfeed : (∃ x, v' = lineFeed :: x) ↔ ∃ x, v = lineFeed :: x)
    (hcrlf : [carriageReturn, lineFeed].isPrefixOf v' = [carriageReturn, lineFeed].isPrefixOf v) :
    [carriageReturn, lineFeed].isPrefixOf ((a ++ v').drop n) =
      [carriageReturn, lineFeed].isPrefixOf ((a ++ v).drop n) := by
  rw [List.drop_append_of_le_length hn, List.drop_append_of_le_length hn]
  match a.drop n with
  | [] => exact hcrlf
  | [c] =>
    -- The line break lies across the end of `a`.
    have hone : ∀ w : Text, [lineFeed] <+: w ↔ ∃ x, w = lineFeed :: x := by
      intro w
      constructor
      · rintro ⟨x, rfl⟩
        exact ⟨x, rfl⟩
      · rintro ⟨x, rfl⟩
        exact ⟨x, rfl⟩
    rw [Bool.eq_iff_iff, List.isPrefixOf_iff_prefix, List.isPrefixOf_iff_prefix]
    simp only [List.cons_append, List.nil_append, List.cons_prefix_cons, hone, hfeed]
  | c :: d :: x => rfl

/-- The reach of blanks does not change where what follows runs out of blanks in the same way. -/
theorem blanks_congr {a v v' : Text} (h : Halts v) (hv : Continues v v') :
    blanks (a ++ v') = blanks (a ++ v) := by
  obtain ⟨h', hrun, hfeed, hcrlf⟩ := h.blankRun_eq hv
  have happ : blankRun (a ++ v') = blankRun (a ++ v) := by
    rw [blankRun, blankRun, blankAfter_append h'.noTail 0 a (Nat.zero_le _),
      blankAfter_append h.noTail 0 a (Nat.zero_le _), hrun]
  have hle : blankRun (a ++ v) - 1 ≤ a.length := Nat.sub_le_iff_le_add.2 (h.blankRun_append_le a)
  simp only [blanks, happ]
  rw [isPrefixOf_drop_append a hle hfeed hcrlf]

theorem blanks_le_blankRun (s : Text) : blanks s ≤ blankRun s := by
  simp only [blanks]
  split <;> omega

theorem blanks_crlf (x : Text) : blanks (carriageReturn :: lineFeed :: x) = 0 := by
  simp [blanks, blankRun_crlf]

/-- Blanks are followed by something else. -/
theorem blanks_drop (s : Text) : blanks (s.drop (blanks s)) = 0 := by
  by_cases h : blankRun s > 0 && [carriageReturn, lineFeed].isPrefixOf (s.drop (blankRun s - 1))
  · have hblanks : blanks s = blankRun s - 1 := if_pos h
    rw [Bool.and_eq_true, List.isPrefixOf_iff_prefix] at h
    obtain ⟨x, hx⟩ := h.2
    rw [hblanks, ← hx]
    exact blanks_crlf x
  · have hblanks : blanks s = blankRun s := if_neg h
    have hdrop := blankRun_drop 0 s (Nat.zero_le _)
    have hle := blanks_le_blankRun (s.drop (blankRun s))
    rw [hblanks]
    exact Nat.le_zero.1 (Nat.le_trans hle (Nat.le_of_eq hdrop))

theorem blanks_bytes (s : Text) : ∀ c ∈ s.take (blanks s), isBlankByte c = true := by
  intro c hc
  refine blankAfter_bytes 0 s (by simp) c ?_
  exact List.take_subset_take_left s (blanks_le_blankRun s) hc

end Reach

/-! ## Lines -/

theorem Text.dropFinal_append (b : UInt8) (s : Text) : Text.dropFinal b (s ++ [b]) = s := by
  simp [Text.dropFinal]

theorem Text.chomp_cases (line : Text) :
    Text.chomp line = line ∨ line = Text.chomp line ++ [Text.carriageReturn] := by
  unfold Text.chomp Text.dropFinal
  split
  · next h =>
    right
    obtain ⟨s, rfl⟩ := List.getLast?_eq_some_iff.1 h
    rw [List.dropLast_concat]
  · exact .inl rfl

/-- Where the shown part of a line ends, the line break begins. -/
theorem Text.endsLine_of_chomp {a v line x : Text} (h : a ++ v = line ++ Text.lineFeed :: x)
    (hlen : (Text.chomp line).length = a.length) :
    (line = a ∧ v = Text.lineFeed :: x) ∨
      (line = a ++ [Text.carriageReturn] ∧ v = Text.carriageReturn :: Text.lineFeed :: x) := by
  rcases Text.chomp_cases line with hchomp | hchomp
  · rw [hchomp] at hlen
    obtain ⟨rfl, rfl⟩ := List.append_inj h hlen.symm
    exact .inl ⟨rfl, rfl⟩
  · generalize Text.chomp line = shown at hchomp hlen
    subst hchomp
    rw [List.append_assoc] at h
    obtain ⟨rfl, rfl⟩ := List.append_inj h hlen.symm
    exact .inr ⟨rfl, rfl⟩

/-- A text is one line, or it has a first one. -/
theorem Text.exists_line (s : Text) :
    Text.lineFeed ∉ s ∨ ∃ line x, s = line ++ Text.lineFeed :: x ∧ Text.lineFeed ∉ line := by
  by_cases h : Text.lineFeed ∈ s
  · obtain ⟨line, x, hs, hline⟩ := List.eq_append_cons_of_mem h
    exact .inr ⟨line, x, hs, hline⟩
  · exact .inl h

namespace Reach

open Text

/-! ## Comments -/

theorem lineComment_of_last {s : Text} (h : lineFeed ∉ s) : lineComment s = s.length := by
  have hall : s.takeWhile (· ≠ lineFeed) = s := by
    rw [List.takeWhile_eq_self_iff]
    intro b hb
    simp only [ne_eq, decide_not, Bool.not_eq_eq_eq_not, Bool.not_true, decide_eq_false_iff_not]
    rintro rfl
    exact h hb
  simp only [lineComment, hall, if_true]

theorem lineComment_of_line {line : Text} (x : Text) (h : lineFeed ∉ line) :
    lineComment (line ++ lineFeed :: x) = (chomp line).length := by
  have hfront : (line ++ lineFeed :: x).takeWhile (· ≠ lineFeed) = line := by
    rw [List.takeWhile_append_of_pos]
    · simp
    · intro b hb
      simp only [ne_eq, decide_not, Bool.not_eq_eq_eq_not, Bool.not_true, decide_eq_false_iff_not]
      rintro rfl
      exact h hb
  have hlen : line.length ≠ (line ++ lineFeed :: x).length := by
    simp only [List.length_append, List.length_cons]
    omega
  simp only [lineComment, hfront, if_neg hlen]

/-- A line comment is followed by a line break, and by the same one in a changed text. -/
theorem lineComment_congr {a v v' : Text} (h : lineComment (a ++ v) = a.length)
    (hv : Continues v v') : EndsLine v ∧ lineComment (a ++ v') = a.length := by
  rcases exists_line (a ++ v) with hs | ⟨line, x, hs, hline⟩
  · have hnil : v = [] := by
      rw [lineComment_of_last hs, List.length_append] at h
      exact List.length_eq_zero_iff.1 (by omega)
    refine ⟨.inl hnil, ?_⟩
    rw [hv.nil hnil, ← hnil]
    exact h
  · rw [hs, lineComment_of_line x hline] at h
    rcases endsLine_of_chomp hs h with ⟨rfl, rfl⟩ | ⟨rfl, rfl⟩
    · obtain ⟨x', rfl⟩ := hv.feed x rfl
      exact ⟨.inr (.inl ⟨x, rfl⟩), by rw [lineComment_of_line x' hline, h]⟩
    · obtain ⟨x', rfl⟩ := hv.crlf x rfl
      refine ⟨.inr (.inr ⟨x, rfl⟩), ?_⟩
      have happ : a ++ carriageReturn :: lineFeed :: x' =
          (a ++ [carriageReturn]) ++ lineFeed :: x' := by simp
      rw [happ, lineComment_of_line x' hline, h]

/-- Whether a text begins with a pattern is decided by as many bytes as the pattern has. -/
theorem isPrefixOf_append_congr {pattern a v v' : Text} (h : pattern.length ≤ a.length) :
    pattern.isPrefixOf (a ++ v') = pattern.isPrefixOf (a ++ v) := by
  have himp : ∀ {w w' : Text}, pattern <+: a ++ w → pattern <+: a ++ w' := by
    intro w w' hpre
    have ha := List.prefix_of_prefix_length_le hpre (List.prefix_append a w) h
    exact ha.trans (List.prefix_append a w')
  rw [Bool.eq_iff_iff, List.isPrefixOf_iff_prefix, List.isPrefixOf_iff_prefix]
  exact ⟨himp, himp⟩

/-- The first occurrence of a pattern does not depend on what follows it. -/
theorem find?_append {pattern x v : Text} (v' : Text) {n : Nat}
    (h : find? pattern (x ++ v) = some n) (hn : n + pattern.length ≤ x.length) :
    find? pattern (x ++ v') = some n := by
  induction x generalizing n with
  | nil =>
    have hnil : pattern = [] := List.length_eq_zero_iff.1 (Nat.le_zero.1 (by
      simp only [List.length_nil] at hn
      omega))
    subst hnil
    have hzero : ∀ w, find? [] w = some 0 := by
      intro w
      cases w <;> simp [find?]
    rw [hzero] at h ⊢
    exact h
  | cons b x ih =>
    simp only [List.length_cons] at hn
    have hsame : pattern.length ≤ (b :: x).length →
        pattern.isPrefixOf (b :: (x ++ v')) = pattern.isPrefixOf (b :: (x ++ v)) :=
      fun hlen => isPrefixOf_append_congr hlen
    rw [List.length_cons] at hsame
    rw [List.cons_append, find?] at h ⊢
    rw [hsame (by omega)]
    split at h
    · next hpre =>
      rw [if_pos hpre]
      exact h
    · next hpre =>
      obtain ⟨m, hm, rfl⟩ := Option.map_eq_some_iff.1 h
      rw [if_neg hpre, ih hm (by omega)]
      rfl

theorem prefix_of_find? {pattern s : Text} {n : Nat} (h : find? pattern s = some n) :
    pattern <+: s.drop n := by
  induction s generalizing n with
  | nil =>
    simp only [find?] at h
    split at h
    · next hempty =>
      rw [List.isEmpty_iff.1 hempty]
      exact List.nil_prefix
    · cases h
  | cons b s ih =>
    rw [find?] at h
    split at h
    · next hpre =>
      obtain rfl := Option.some.inj h
      exact List.isPrefixOf_iff_prefix.1 hpre
    · obtain ⟨m, hm, rfl⟩ := Option.map_eq_some_iff.1 h
      exact ih hm

/-- A block comment ends with its closing, if it has one, and the text may change behind it. -/
theorem blockComment_congr {a v v' : Text} (h : blockComment (a ++ v) = a.length)
    (hv : Continues v v') :
    (v = [] ∨ (4 ≤ a.length ∧ a.getLast? = some (Number.byte '/'))) ∧
      blockComment (a ++ v') = a.length := by
  cases hfind : find? (ascii "*/") ((a ++ v).drop 2) with
  | none =>
    -- Without a closing the comment takes all of the text.
    have hnil : v = [] := by
      simp only [blockComment, hfind, List.length_append] at h
      exact List.length_eq_zero_iff.1 (by omega)
    refine ⟨.inl hnil, ?_⟩
    rw [hv.nil hnil, ← hnil]
    exact h
  | some n =>
    -- The closing lies in the comment, so a search that starts behind the opening finds it again.
    have hlen : n + 4 = a.length := by
      simpa only [blockComment, hfind] using h
    have hdrop : ∀ w : Text, (a ++ w).drop 2 = a.drop 2 ++ w :=
      fun w => List.drop_append_of_le_length (by omega)
    have hfind' : find? (ascii "*/") (a.drop 2 ++ v') = some n := by
      rw [hdrop] at hfind
      refine find?_append v' hfind ?_
      rw [List.length_drop, show (ascii "*/").length = 2 from rfl]
      omega
    refine ⟨.inr ⟨by omega, ?_⟩, ?_⟩
    · have hpre := prefix_of_find? hfind'
      rw [← hdrop, List.drop_drop, List.drop_append_of_le_length (by omega)] at hpre
      have hfull : a.drop (2 + n) = ascii "*/" := by
        have hshort : a.drop (2 + n) <+: a.drop (2 + n) ++ v' := List.prefix_append _ _
        have heq := List.prefix_of_prefix_length_le hshort hpre (by
          rw [List.length_drop, show (ascii "*/").length = 2 from rfl]
          omega)
        refine heq.eq_of_length ?_
        rw [List.length_drop, show (ascii "*/").length = 2 from rfl]
        omega
      rw [← List.take_append_drop (2 + n) a, hfull]
      simp [ascii, Number.byte]
    · simp only [blockComment, hdrop, hfind']
      exact hlen

/-- What a comment ends with, and that it does not change. -/
theorem comment_congr {a v v' : Text} (ha : a ≠ []) (h : comment (a ++ v) = a.length)
    (hv : Continues v v') :
    (EndsLine v ∨ a.getLast? = some (Number.byte '/')) ∧ comment (a ++ v') = a.length := by
  by_cases hnil : v = []
  · refine ⟨.inl (.inl hnil), ?_⟩
    rw [hv.nil hnil, ← hnil]
    exact h
  -- Both bytes of the opening belong to the lexeme, so they are there in the changed text.
  have hopen : 2 ≤ a.length → (ascii "//").isPrefixOf (a ++ v') = (ascii "//").isPrefixOf (a ++ v) ∧
      (ascii "/*").isPrefixOf (a ++ v') = (ascii "/*").isPrefixOf (a ++ v) :=
    fun hlen => ⟨isPrefixOf_append_congr hlen, isPrefixOf_append_congr hlen⟩
  rw [comment] at h
  split at h
  · next hline =>
    obtain ⟨hends, hcongr⟩ := lineComment_congr h hv
    have hlen : 2 ≤ a.length := by
      by_contra hshort
      have hone : a.length = 1 := by
        have := List.length_pos_iff.2 ha
        omega
      obtain ⟨b, rfl⟩ := List.length_eq_one_iff.1 hone
      rcases hends with hends | ⟨x, rfl⟩ | ⟨x, rfl⟩
      · exact hnil hends
      · simp only [ascii, List.isPrefixOf_iff_prefix] at hline
        exact absurd (List.cons_prefix_cons.1 (List.cons_prefix_cons.1 hline).2).1 (by decide)
      · simp only [ascii, List.isPrefixOf_iff_prefix] at hline
        exact absurd (List.cons_prefix_cons.1 (List.cons_prefix_cons.1 hline).2).1 (by decide)
    refine ⟨.inl hends, ?_⟩
    rw [comment, (hopen hlen).1, if_pos hline, hcongr]
  · next hline =>
    split at h
    · next hblock =>
      obtain ⟨hends, hcongr⟩ := blockComment_congr h hv
      rcases hends with hends | ⟨hlen, hends⟩
      · exact absurd hends hnil
      · refine ⟨.inr hends, ?_⟩
        have hopen' := hopen (by omega)
        rw [comment, hopen'.1, if_neg hline, hopen'.2, if_pos hblock, hcongr]
    · exact absurd (List.length_eq_zero_iff.1 h.symm) ha

/-! ## Directives -/

theorem split_ne_nil (b : UInt8) (s : Text) : split b s ≠ [] := by
  induction s with
  | nil => simp [split]
  | cons c s ih =>
    rw [split]
    split
    · simp
    · split <;> simp

theorem split_of_notMem {b : UInt8} {s : Text} (h : b ∉ s) : split b s = [s] := by
  induction s with
  | nil => rfl
  | cons c s ih =>
    rw [List.mem_cons, not_or] at h
    rw [split, if_neg (Ne.symm h.1), ih h.2]

theorem split_append_cons {b : UInt8} {s : Text} (x : Text) (h : b ∉ s) :
    split b (s ++ b :: x) = s :: split b x := by
  induction s with
  | nil => simp [split]
  | cons c s ih =>
    rw [List.mem_cons, not_or] at h
    rw [List.cons_append, split, if_neg (Ne.symm h.1), ih h.2]

theorem directiveLines_of_last {s : Text} (h : lineFeed ∉ s) :
    directiveLines (lines s) = s.length := by
  rw [lines, split_of_notMem h]
  rfl

theorem directiveLines_of_line {line : Text} (x : Text) (h : lineFeed ∉ line) :
    directiveLines (lines (line ++ lineFeed :: x)) =
      if (chomp line).getLast? = some (Number.byte '\\') then
        line.length + 1 + directiveLines (lines x)
      else (chomp line).length := by
  obtain ⟨y, more, hy⟩ := List.exists_cons_of_ne_nil (split_ne_nil lineFeed x)
  rw [lines, split_append_cons x h, lines, hy]
  rfl

/-- A directive is followed by a line break, and by the same one in a changed text. -/
theorem directiveLines_congr {a v v' : Text} (hv : Continues v v')
    (h : directiveLines (lines (a ++ v)) = a.length) :
    EndsLine v ∧ directiveLines (lines (a ++ v')) = a.length := by
  -- By induction on the lines of the directive.
  induction hn : a.length using Nat.strongRecOn generalizing a with
  | ind n ih =>
    subst hn
    rcases exists_line (a ++ v) with hs | ⟨line, x, hs, hline⟩
    · have hnil : v = [] := by
        rw [directiveLines_of_last hs, List.length_append] at h
        exact List.length_eq_zero_iff.1 (by omega)
      refine ⟨.inl hnil, ?_⟩
      rw [hv.nil hnil, ← hnil]
      exact h
    · rw [hs, directiveLines_of_line x hline] at h
      split at h
      · -- The directive goes on, so the line break belongs to it.
        next hslash =>
        have hfront : line ++ [lineFeed] <+: a := by
          refine List.prefix_of_prefix_length_le ⟨x, ?_⟩ (List.prefix_append a v) ?_
          · rw [hs, List.append_assoc]
            rfl
          · rw [List.length_append, List.length_singleton]
            omega
        obtain ⟨b, rfl⟩ := hfront
        have happ : ∀ w, line ++ [lineFeed] ++ b ++ w = line ++ lineFeed :: (b ++ w) := by
          intro w
          simp
        rw [happ] at hs
        obtain rfl : b ++ v = x := by simpa using hs
        have hlen : (line ++ [lineFeed] ++ b).length = line.length + 1 + b.length := by
          simp only [List.length_append, List.length_singleton]
        rw [hlen] at h ih ⊢
        obtain ⟨hends, hcongr⟩ := ih b.length (by omega) (by omega) rfl
        refine ⟨hends, ?_⟩
        rw [happ, directiveLines_of_line _ hline, if_pos hslash, hcongr]
      · -- Its last line ends where `a` does.
        next hslash =>
        rcases endsLine_of_chomp hs h with ⟨rfl, rfl⟩ | ⟨rfl, rfl⟩
        · obtain ⟨x', rfl⟩ := hv.feed x rfl
          refine ⟨.inr (.inl ⟨x, rfl⟩), ?_⟩
          rw [directiveLines_of_line x' hline, if_neg hslash, h]
        · obtain ⟨x', rfl⟩ := hv.crlf x rfl
          refine ⟨.inr (.inr ⟨x, rfl⟩), ?_⟩
          have happ : a ++ carriageReturn :: lineFeed :: x' =
              (a ++ [carriageReturn]) ++ lineFeed :: x' := by simp
          rw [happ, directiveLines_of_line x' hline, if_neg hslash, h]

theorem directive_congr {a v v' : Text} (ha : a ≠ []) (h : directive (a ++ v) = a.length)
    (hv : Continues v v') : EndsLine v ∧ directive (a ++ v') = a.length := by
  have hlen : (ascii "#").length ≤ a.length := List.length_pos_iff.2 ha
  have hsame : (ascii "#").isPrefixOf (a ++ v') = (ascii "#").isPrefixOf (a ++ v) :=
    isPrefixOf_append_congr hlen
  rw [directive] at h
  split at h
  · next hopen =>
    obtain ⟨hends, hcongr⟩ := directiveLines_congr hv h
    refine ⟨hends, ?_⟩
    rw [directive, hsame, if_pos hopen, hcongr]
  · exact absurd (List.length_eq_zero_iff.1 h.symm) ha

end Reach

end ShaderRepair

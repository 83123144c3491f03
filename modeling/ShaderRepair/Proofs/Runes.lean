import ShaderRepair.Proofs.Crlf

/-!
# Where runes end

A text that is cut where a rune ends has the runes of its two parts, and this stays so when the
second part is cut short. This file contains:
- `Rune.first_cases`, what the rune at the front of a text can be, and `Rune.first_of_prefix`, which
  says that a rune needs no more than its bytes;
- `EndsRune`, a rune of the text ends at a given place, with the places where one does, and
  `EndsRune.runesAfter_append`.
-/

namespace ShaderRepair

/-! ## The first rune -/

namespace Rune

theorem width_eq_two {code : Nat} (h : 0x80 ≤ code) (h' : code < 0x800) :
    (scalar code).width = 2 := by
  rw [width, if_neg (Nat.not_lt.2 h), if_pos h']

theorem width_eq_three {code : Nat} (h : 0x800 ≤ code) (h' : code < 0x10000) :
    (scalar code).width = 3 := by
  rw [width, if_neg (by omega), if_neg (Nat.not_lt.2 h), if_pos h']

theorem width_eq_four {code : Nat} (h : 0x10000 ≤ code) : (scalar code).width = 4 := by
  rw [width, if_neg (by omega), if_neg (by omega), if_neg (Nat.not_lt.2 h)]

/-- Behind the byte `b` the bytes `w` complete the encoding of a scalar value, whatever follows. -/
structure Encodes (b : UInt8) (w : Text) (code : Nat) : Prop where
  le : 0x80 ≤ code
  width : (scalar code).width = w.length + 1
  first : ∀ y, first b (w ++ y) = .scalar code

section Lead

variable {b c d e : UInt8}

theorem encodes_two (hb : ¬b < 0xC2) (hb' : b < 0xE0) (hc : isTail c = true) :
    ∃ code, Encodes b [c] code := by
  have hlow : 0xC2 ≤ b.toNat := UInt8.le_iff_toNat_le.1 (UInt8.not_lt.1 hb)
  have hhigh : b.toNat < 0xE0 := UInt8.lt_iff_toNat_lt.1 hb'
  have hbits := tailBits_lt c
  have hascii : ¬b < 0x80 := fun h => hb (UInt8.lt_trans h (by decide))
  refine ⟨b.toNat % 32 * 64 + tailBits c, by omega, width_eq_two (by omega) (by omega), fun y => ?_⟩
  simp [Rune.first, hascii, hb, hb', hc]

/-- The least lead byte asks for bits in the second one, so that the value is not a short one. -/
theorem encodes_three (hb : ¬b < 0xE0) (hb' : b < 0xF0) (hc : isSecond b c = true)
    (hd : isTail d = true) : ∃ code, Encodes b [c, d] code := by
  have hlow : 0xE0 ≤ b.toNat := UInt8.le_iff_toNat_le.1 (UInt8.not_lt.1 hb)
  have hhigh : b.toNat < 0xF0 := UInt8.lt_iff_toNat_lt.1 hb'
  have hbits := tailBits_lt c
  have hbits' := tailBits_lt d
  have hlead : b.toNat = 0xE0 → 32 ≤ tailBits c := by
    intro h
    obtain rfl : b = 0xE0 := UInt8.toNat_inj.1 h
    simp only [isSecond, if_true, Bool.and_eq_true, decide_eq_true_eq,
      UInt8.le_iff_toNat_le] at hc
    have hle : 0xA0 ≤ c.toNat ∧ c.toNat ≤ 0xBF := hc
    rw [tailBits]
    omega
  have hcode : 0x800 ≤ (b.toNat % 16 * 64 + tailBits c) * 64 + tailBits d := by omega
  have hascii : ¬b < 0x80 := fun h => hb (UInt8.lt_trans h (by decide))
  have hstray : ¬b < 0xC2 := fun h => hb (UInt8.lt_trans h (by decide))
  refine ⟨_, Nat.le_trans (by decide) hcode, width_eq_three hcode (by omega), fun y => ?_⟩
  simp [Rune.first, hascii, hstray, hb, hb', hc, hd]

theorem encodes_four (hb : ¬b < 0xF0) (hb' : b < 0xF5) (hc : isSecond b c = true)
    (hd : isTail d = true) (he : isTail e = true) : ∃ code, Encodes b [c, d, e] code := by
  have hlow : 0xF0 ≤ b.toNat := UInt8.le_iff_toNat_le.1 (UInt8.not_lt.1 hb)
  have hhigh : b.toNat < 0xF5 := UInt8.lt_iff_toNat_lt.1 hb'
  have hlead : b.toNat = 0xF0 → 16 ≤ tailBits c := by
    intro h
    obtain rfl : b = 0xF0 := UInt8.toNat_inj.1 h
    have hle : 0x90 ≤ c.toNat ∧ c.toNat ≤ 0xBF := by
      simpa [isSecond, UInt8.le_iff_toNat_le] using hc
    rw [tailBits]
    omega
  have hcode : 0x10000 ≤
      ((b.toNat % 8 * 64 + tailBits c) * 64 + tailBits d) * 64 + tailBits e := by
    omega
  have hascii : ¬b < 0x80 := fun h => hb (UInt8.lt_trans h (by decide))
  have hstray : ¬b < 0xC2 := fun h => hb (UInt8.lt_trans h (by decide))
  have htwo : ¬b < 0xE0 := fun h => hb (UInt8.lt_trans h (by decide))
  refine ⟨_, Nat.le_trans (by decide) hcode, width_eq_four hcode, fun y => ?_⟩
  simp [Rune.first, hascii, hstray, htwo, hb, hb', hc, hd, he]

end Lead

/-- The rune at the front of a text is an invalid byte, an ASCII character, or encoded in more than
one byte. -/
theorem first_cases (b : UInt8) (s : Text) :
    first b s = .invalid b ∨ (b < 0x80 ∧ first b s = .scalar b.toNat) ∨
      ∃ w y code, s = w ++ y ∧ Encodes b w code := by
  by_cases h₁ : b < 0x80
  · exact .inr (.inl ⟨h₁, first_of_ascii h₁ s⟩)
  by_cases h₂ : b < 0xC2
  · exact .inl (by simp [first, h₁, h₂])
  by_cases h₃ : b < 0xE0
  · rcases s with _ | ⟨c, y⟩
    · exact .inl (by simp [first, h₁, h₂, h₃])
    · by_cases hc : isTail c
      · obtain ⟨code, h⟩ := encodes_two h₂ h₃ hc
        exact .inr (.inr ⟨[c], y, code, rfl, h⟩)
      · exact .inl (by simp [first, h₁, h₂, h₃, hc])
  by_cases h₄ : b < 0xF0
  · rcases s with _ | ⟨c, _ | ⟨d, y⟩⟩
    · exact .inl (by simp [first, h₁, h₂, h₃, h₄])
    · exact .inl (by simp [first, h₁, h₂, h₃, h₄])
    · by_cases hcd : isSecond b c = true ∧ isTail d = true
      · obtain ⟨code, h⟩ := encodes_three h₃ h₄ hcd.1 hcd.2
        exact .inr (.inr ⟨[c, d], y, code, rfl, h⟩)
      · exact .inl (by simp [first, h₁, h₂, h₃, h₄, hcd])
  by_cases h₅ : b < 0xF5
  · rcases s with _ | ⟨c, _ | ⟨d, _ | ⟨e, y⟩⟩⟩
    · exact .inl (by simp [first, h₁, h₂, h₃, h₄, h₅])
    · exact .inl (by simp [first, h₁, h₂, h₃, h₄, h₅])
    · exact .inl (by simp [first, h₁, h₂, h₃, h₄, h₅])
    · by_cases hcde : (isSecond b c = true ∧ isTail d = true) ∧ isTail e = true
      · obtain ⟨code, h⟩ := encodes_four h₄ h₅ hcde.1.1 hcde.1.2 hcde.2
        exact .inr (.inr ⟨[c, d, e], y, code, rfl, h⟩)
      · exact .inl (by simp [first, h₁, h₂, h₃, h₄, h₅, hcde])
  · exact .inl (by simp [first, h₁, h₂, h₃, h₄, h₅])

/-- A text that is cut short begins with the same rune, if the bytes of that rune are left. -/
theorem first_of_prefix {b : UInt8} {u s : Text} (hu : u <+: s)
    (hwidth : (first b s).width - 1 ≤ u.length) : first b u = first b s := by
  rcases first_cases b s with hs | ⟨hb, hs⟩ | ⟨w, y, code, rfl, hs⟩
  · -- What is invalid does not become valid when bytes are taken away.
    rcases first_cases b u with hu' | ⟨hb, -⟩ | ⟨w, y, code, rfl, hu'⟩
    · rw [hs, hu']
    · rw [first_of_ascii hb] at hs
      cases hs
    · obtain ⟨z, rfl⟩ := hu
      rw [List.append_assoc, hu'.first] at hs
      cases hs
  · rw [hs, first_of_ascii hb]
  · rw [hs.first, hs.width] at hwidth
    have hw : w <+: u :=
      List.prefix_of_prefix_length_le (List.prefix_append w y) hu (by omega)
    obtain ⟨z, rfl⟩ := hw
    rw [hs.first, hs.first]

/-- No rune but the line feed itself stands for a line feed. -/
theorem first_ne_lineFeed {b : UInt8} (hb : b ≠ Text.lineFeed) (s : Text) :
    first b s ≠ .scalar 10 := by
  intro h
  rcases first_cases b s with hs | ⟨-, hs⟩ | ⟨w, y, code, rfl, hs⟩
  · rw [hs] at h
    cases h
  · rw [hs] at h
    exact hb (UInt8.toNat_inj.1 (Rune.scalar.inj h))
  · rw [hs.first] at h
    have hcode := hs.le
    rw [Rune.scalar.inj h] at hcode
    omega

end Rune

/-! ## Places where a rune ends -/

/-- In the text `a ++ v`, of which the first `k` bytes belong to a rune already read, a rune ends
behind `a`. -/
def EndsRune : Nat → Text → Text → Prop
  | k, [], _ => k = 0
  | k + 1, _ :: a, v => EndsRune k a v
  | 0, b :: a, v => EndsRune ((Rune.first b (a ++ v)).width - 1) a v

/-- A run of blanks goes on behind the bytes that are known to be blank. -/
theorem Text.le_blankAfter {k : Nat} {s : Text} (hk : k ≤ s.length) : k ≤ blankAfter k s := by
  induction s generalizing k with
  | nil => exact hk
  | cons b s ih =>
    cases k with
    | zero => exact Nat.zero_le _
    | succ k => exact Nat.succ_le_succ (ih (Nat.le_of_succ_le_succ hk))

namespace EndsRune

variable {k : Nat} {a u v : Text}

theorem le (h : EndsRune k a v) : k ≤ a.length := by
  induction a generalizing k with
  | nil => exact Nat.le_of_eq h
  | cons b a ih =>
    cases k with
    | zero => exact Nat.zero_le _
    | succ k => exact Nat.succ_le_succ (ih h)

/-- The runes up to that place are the same when the text behind it is cut short. -/
theorem runesAfter_append (h : EndsRune k a v) (hu : u <+: v) :
    Text.runesAfter k (a ++ u) = Text.runesAfter k a ++ Text.runes u := by
  induction a generalizing k with
  | nil =>
    obtain rfl : k = 0 := h
    rfl
  | cons b a ih =>
    cases k with
    | succ k => exact ih h
    | zero =>
      have hmore : EndsRune ((Rune.first b (a ++ v)).width - 1) a v := h
      have hle := hmore.le
      have hshort : Rune.first b (a ++ u) = Rune.first b (a ++ v) :=
        Rune.first_of_prefix ((List.prefix_append_right_inj a).2 hu) (by
          rw [List.length_append]
          omega)
      have halone : Rune.first b a = Rune.first b (a ++ v) :=
        Rune.first_of_prefix (List.prefix_append a v) hle
      rw [List.cons_append, Text.runesAfter, Text.runesAfter, hshort, halone, ih hmore]
      rfl

theorem append {c : Text} (h : EndsRune k a (c ++ v)) (h' : EndsRune 0 c v) :
    EndsRune k (a ++ c) v := by
  induction a generalizing k with
  | nil =>
    obtain rfl : k = 0 := h
    exact h'
  | cons b a ih =>
    cases k with
    | succ k => exact ih h
    | zero =>
      rw [List.cons_append, EndsRune, List.append_assoc]
      exact ih h

/-- A rune ends where what follows is no tail. -/
theorem of_noTail (hv : NoTail v) (hk : k ≤ a.length) : EndsRune k a v := by
  induction a generalizing k with
  | nil => exact Nat.le_zero.1 hk
  | cons b a ih =>
    cases k with
    | succ k => exact ih (Nat.le_of_succ_le_succ hk)
    | zero =>
      rw [EndsRune, Rune.first_append hv]
      exact ih (Text.first_width_le b a)

theorem of_ascii {b : UInt8} (hb : b < 0x80) (v : Text) : EndsRune 0 [b] v := by
  have hlt : b.toNat < 0x80 := UInt8.lt_iff_toNat_lt.1 hb
  rw [EndsRune, Rune.first_of_ascii hb, Rune.width, if_pos hlt]
  rfl

/-- A rune ends behind a text that ends with an ASCII character. -/
theorem of_getLast? {z : UInt8} (ha : a.getLast? = some z) (hz : z < 0x80) : EndsRune 0 a v := by
  obtain ⟨w, rfl⟩ := List.getLast?_eq_some_iff.1 ha
  have htail : NoTail ([z] ++ v) := by
    rintro b x hb
    obtain ⟨rfl, -⟩ := List.cons.inj hb
    exact hz
  exact (of_noTail htail (Nat.zero_le _)).append (of_ascii hz v)

theorem of_length (a v : Text) : EndsRune a.length a v := by
  induction a with
  | nil => rfl
  | cons b a ih => exact ih

/-- The first rune ends behind its bytes. -/
theorem of_first (b : UInt8) (s : Text) :
    EndsRune 0 (b :: s.take ((Rune.first b s).width - 1))
      (s.drop ((Rune.first b s).width - 1)) := by
  have htake := of_length (s.take ((Rune.first b s).width - 1))
    (s.drop ((Rune.first b s).width - 1))
  rw [List.length_take, Nat.min_eq_left (Text.first_width_le b s)] at htake
  rw [EndsRune, List.take_append_drop]
  exact htake

/-- So does the last rune of a run of blanks. -/
theorem of_blankAfter (h : Text.blankAfter k (a ++ v) = a.length) (hk : k ≤ a.length) :
    EndsRune k a v := by
  induction a generalizing k with
  | nil => exact Nat.le_zero.1 hk
  | cons b a ih =>
    cases k with
    | succ k => exact ih (Nat.succ.inj h) (Nat.le_of_succ_le_succ hk)
    | zero =>
      rw [List.cons_append, Text.blankAfter] at h
      split at h
      · have hrun := Nat.succ.inj h
        have hle := Text.le_blankAfter (Text.first_width_le b (a ++ v))
        exact ih hrun (hrun ▸ hle)
      · cases h

end EndsRune

end ShaderRepair

import Mathlib.Computability.Language
import ShaderRepair.Proofs.Words

/-!
# The grammar of number literals

The number literals as regular languages. The reach of each form is the length of the longest prefix
in its language, and a number in a source is the longest prefix in any of them at its place. This
file contains:
- the languages `Numeral.integer`, `unsigned`, `float` and `double`;
- `Numeral.Longest`, the length of the longest prefix in a language;
- `Numeral.kindOf_of_mem`, no text is in two of the languages;
- `Lexer.lex_numeral`, about the reach of each form and about the tokens of a source.
-/

namespace ShaderRepair

namespace Numeral

open Number (byte isDigit isHexDigit IsRun IsSign IsInteger IsUnsigned IsExponent IsBody IsFloat
  IsDouble Matches)
open scoped Computability

/-! ## Languages -/

/-- One character. -/
def char (c : Char) : Language UInt8 :=
  {[byte c]}

/-- One of two characters. -/
def either (c d : Char) : Language UInt8 :=
  char c + char d

/-- One byte of a class. -/
def oneOf (member : UInt8 → Bool) : Language UInt8 :=
  {u | ∃ b, u = [b] ∧ member b = true}

def zeroOrMore (member : UInt8 → Bool) : Language UInt8 :=
  (oneOf member)∗

def oneOrMore (member : UInt8 → Bool) : Language UInt8 :=
  oneOf member * (oneOf member)∗

def integer : Language UInt8 :=
  char '0' * either 'x' 'X' * oneOrMore isHexDigit + oneOrMore isDigit

def unsigned : Language UInt8 :=
  integer * either 'u' 'U'

def exponent : Language UInt8 :=
  either 'e' 'E' * (1 + either '+' '-') * oneOrMore isDigit

def body : Language UInt8 :=
  (oneOrMore isDigit * char '.' * zeroOrMore isDigit + char '.' * oneOrMore isDigit) *
    (1 + exponent) + oneOrMore isDigit * exponent

def float : Language UInt8 :=
  body * (1 + either 'f' 'F')

def double : Language UInt8 :=
  body * ({Text.ascii "lf"} + {Text.ascii "LF"})

/-! ## The texts of the languages -/

section Mem

variable {u : Text}

theorem mem_char {c : Char} : u ∈ char c ↔ u = [byte c] := Iff.rfl

theorem mem_either {c d : Char} : u ∈ either c d ↔ ∃ b, u = [b] ∧ (b = byte c ∨ b = byte d) := by
  rw [either, Language.mem_add, mem_char, mem_char]
  constructor
  · rintro (rfl | rfl)
    · exact ⟨_, rfl, .inl rfl⟩
    · exact ⟨_, rfl, .inr rfl⟩
  · rintro ⟨b, rfl, rfl | rfl⟩
    · exact .inl rfl
    · exact .inr rfl

theorem mem_zeroOrMore {member : UInt8 → Bool} :
    u ∈ zeroOrMore member ↔ ∀ b ∈ u, member b = true := by
  rw [zeroOrMore, Language.mem_kstar]
  constructor
  · rintro ⟨parts, rfl, hparts⟩ b hb
    obtain ⟨part, hpart, hb⟩ := List.mem_flatten.1 hb
    obtain ⟨c, rfl, hc⟩ := hparts part hpart
    rwa [List.mem_singleton.1 hb]
  · intro h
    refine ⟨u.map fun b => [b], by rw [← List.flatMap_def, List.flatMap_singleton'], ?_⟩
    intro part hpart
    obtain ⟨b, hb, rfl⟩ := List.mem_map.1 hpart
    exact ⟨b, rfl, h b hb⟩

theorem mem_oneOrMore {member : UInt8 → Bool} : u ∈ oneOrMore member ↔ IsRun member u := by
  rw [oneOrMore, Language.mem_mul]
  constructor
  · rintro ⟨_, ⟨b, rfl, hb⟩, w, hw, rfl⟩
    refine ⟨List.cons_ne_nil _ _, ?_⟩
    simpa using ⟨hb, mem_zeroOrMore.1 hw⟩
  · rintro ⟨hne, h⟩
    obtain ⟨b, w, rfl⟩ := List.exists_cons_of_ne_nil hne
    obtain ⟨hb, hw⟩ := List.forall_mem_cons.1 h
    exact ⟨[b], ⟨b, rfl, hb⟩, w, mem_zeroOrMore.2 hw, rfl⟩

theorem mem_integer : u ∈ integer ↔ IsInteger u := by
  simp only [integer, Language.mem_add, Language.mem_mul, mem_char, mem_either, mem_oneOrMore]
  constructor
  · rintro (⟨_, ⟨_, rfl, _, ⟨c, rfl, hc⟩, rfl⟩, w, hw, rfl⟩ | hu)
    · exact .hex hc hw
    · exact .digits hu
  · intro h
    cases h with
    | @hex c w hc hw => exact .inl ⟨_, ⟨_, rfl, _, ⟨c, rfl, hc⟩, rfl⟩, w, hw, rfl⟩
    | digits hu => exact .inr hu

theorem mem_unsigned : u ∈ unsigned ↔ IsUnsigned u := by
  simp only [unsigned, Language.mem_mul, mem_either, mem_integer]
  constructor
  · rintro ⟨w, hw, _, ⟨c, rfl, hc⟩, rfl⟩
    exact .mk hw hc
  · rintro ⟨hw, hc⟩
    exact ⟨_, hw, _, ⟨_, rfl, hc⟩, rfl⟩

theorem mem_sign : u ∈ 1 + either '+' '-' ↔ IsSign u := by
  rw [Language.mem_add, Language.mem_one, mem_either]
  constructor
  · rintro (rfl | ⟨b, rfl, rfl | rfl⟩)
    · exact .inl rfl
    · exact .inr (.inl rfl)
    · exact .inr (.inr rfl)
  · rintro (rfl | rfl | rfl)
    · exact .inl rfl
    · exact .inr ⟨_, rfl, .inl rfl⟩
    · exact .inr ⟨_, rfl, .inr rfl⟩

theorem mem_exponent : u ∈ exponent ↔ IsExponent u := by
  simp only [exponent, Language.mem_mul, mem_sign, mem_either, mem_oneOrMore]
  constructor
  · rintro ⟨_, ⟨_, ⟨c, rfl, hc⟩, sign, hsign, rfl⟩, w, hw, rfl⟩
    exact .mk hc hsign hw
  · rintro ⟨hc, hsign, hw⟩
    exact ⟨_, ⟨_, ⟨_, rfl, hc⟩, _, hsign, rfl⟩, _, hw, rfl⟩

theorem mem_body : u ∈ body ↔ IsBody u := by
  simp only [body, Language.mem_add, Language.mem_mul, Language.mem_one, mem_char, mem_zeroOrMore,
    mem_oneOrMore, mem_exponent]
  constructor
  · rintro (⟨_, ⟨_, ⟨w, hw, _, rfl, rfl⟩, f, hf, rfl⟩ | ⟨_, rfl, f, hf, rfl⟩, e, he, rfl⟩ |
      ⟨w, hw, e, he, rfl⟩)
    · have hbody := IsBody.fraction hw.2 hf (.inl hw.1) he
      simpa using hbody
    · have hbody := IsBody.fraction (w := []) (by simp) hf.2 (.inr hf.1) he
      simpa using hbody
    · exact .whole hw he
  · intro h
    cases h with
    | @fraction w f e hw hf hne he =>
      refine .inl ⟨w ++ byte '.' :: f, ?_, e, he, by simp⟩
      by_cases hnil : w = []
      · subst hnil
        exact .inr ⟨_, rfl, f, ⟨hne.resolve_left fun h => h rfl, hf⟩, rfl⟩
      · exact .inl ⟨_, ⟨w, ⟨hnil, hw⟩, _, rfl, rfl⟩, f, hf, by simp⟩
    | whole hw he => exact .inr ⟨_, hw, _, he, rfl⟩

theorem mem_float : u ∈ float ↔ IsFloat u := by
  simp only [float, Language.mem_add, Language.mem_mul, Language.mem_one, mem_either, mem_body]
  constructor
  · rintro ⟨w, hw, _, rfl | ⟨c, rfl, hc⟩, rfl⟩
    · rw [List.append_nil]
      exact .plain hw
    · exact .ending hw hc
  · intro h
    cases h with
    | plain hw => exact ⟨u, hw, [], .inl rfl, List.append_nil u⟩
    | ending hw hc => exact ⟨_, hw, _, .inr ⟨_, rfl, hc⟩, rfl⟩

theorem mem_double : u ∈ double ↔ IsDouble u := by
  simp only [double, Language.mem_add, Language.mem_mul, mem_body]
  constructor
  · rintro ⟨w, hw, _, rfl | rfl, rfl⟩
    · exact .mk hw (.inl ⟨rfl, rfl⟩)
    · exact .mk hw (.inr ⟨rfl, rfl⟩)
  · rintro ⟨hw, ⟨rfl, rfl⟩ | ⟨rfl, rfl⟩⟩
    · exact ⟨_, hw, _, .inl rfl, rfl⟩
    · exact ⟨_, hw, _, .inr rfl, rfl⟩

end Mem

/-- The language of the literals of a kind. -/
def ofKind : LiteralKind → Language UInt8
  | .int => integer
  | .uint => unsigned
  | .float => float
  | .double => double
  | .none | .bool | .unknown _ => 0

/-- How far the literals of a kind reach. -/
def reachOf : LiteralKind → Text → Nat
  | .int => Number.integer
  | .uint => Number.unsigned
  | .float => Number.float
  | .double => Number.double
  | .none | .bool | .unknown _ => fun _ => 0

theorem matches_ofKind (k : LiteralKind) : Matches (reachOf k) fun u => u ∈ ofKind k := by
  cases k with
  | int => simpa only [ofKind, reachOf, mem_integer] using Number.integer_matches
  | uint => simpa only [ofKind, reachOf, mem_unsigned] using Number.unsigned_matches
  | float => simpa only [ofKind, reachOf, mem_float] using Number.float_matches
  | double => simpa only [ofKind, reachOf, mem_double] using Number.double_matches
  | none => exact ⟨fun s h => absurd rfl h, fun u h => absurd h (Language.notMem_zero u)⟩
  | bool => exact ⟨fun s h => absurd rfl h, fun u h => absurd h (Language.notMem_zero u)⟩
  | unknown => exact ⟨fun s h => absurd rfl h, fun u h => absurd h (Language.notMem_zero u)⟩

/-! ## Longest prefixes -/

/-- The length of the longest prefix of `s` in the language is `n`; it is 0 if there is none. -/
def Longest (L : Language UInt8) (s : Text) (n : Nat) : Prop :=
  (∀ u ∈ L, u <+: s → u.length ≤ n) ∧
    ((∃ u ∈ L, u <+: s ∧ u.length = n) ∨ (n = 0 ∧ ∀ u ∈ L, ¬u <+: s))

section Kinds

variable {k k' : LiteralKind} {u s : Text}

theorem ne_nil_of_mem (hu : u ∈ ofKind k) : u ≠ [] := by
  cases k with
  | int => exact Number.integer_ne_nil (mem_integer.1 hu)
  | uint =>
    obtain ⟨-, -⟩ := mem_unsigned.1 hu
    simp
  | float =>
    cases mem_float.1 hu with
    | plain hw => exact Number.body_ne_nil hw
    | ending => simp
  | double =>
    obtain ⟨-, -⟩ := mem_double.1 hu
    simp
  | none => exact absurd hu (Language.notMem_zero u)
  | bool => exact absurd hu (Language.notMem_zero u)
  | unknown => exact absurd hu (Language.notMem_zero u)

theorem length_le_reachOf (hu : u ∈ ofKind k) (hs : u <+: s) : u.length ≤ reachOf k s := by
  obtain ⟨y, rfl⟩ := hs
  exact (matches_ofKind k).complete u hu y

theorem longest_ofKind (k : LiteralKind) (s : Text) : Longest (ofKind k) s (reachOf k s) := by
  refine ⟨fun u hu hs => length_le_reachOf hu hs, ?_⟩
  by_cases hzero : reachOf k s = 0
  · refine .inr ⟨hzero, fun u hu hs => ?_⟩
    have hle := length_le_reachOf hu hs
    exact ne_nil_of_mem hu (List.length_eq_zero_iff.1 (by omega))
  · obtain ⟨u, x, rfl, hlen, hu⟩ := (matches_ofKind k).sound s hzero
    exact .inl ⟨u, hu, List.prefix_append u x, hlen.symm⟩

/-! ## No two languages share a text -/

/-- Whether one of two characters occurs. -/
def has (c d : Char) (u : Text) : Bool :=
  u.any fun b => b = byte c || b = byte d

theorem has_of_mem {c d : Char} {b : UInt8} (hb : b ∈ u) (h : b = byte c ∨ b = byte d) :
    has c d u = true :=
  List.any_eq_true.2 ⟨b, hb, by simpa using h⟩

theorem has_eq_false {c d : Char} {member : UInt8 → Bool} (hu : ∀ b ∈ u, member b = true)
    (hc : member (byte c) = false) (hd : member (byte d) = false) : has c d u = false := by
  refine List.any_eq_false.2 fun b hb h => ?_
  have hmember := hu b hb
  rw [Bool.or_eq_true, decide_eq_true_eq, decide_eq_true_eq] at h
  rcases h with rfl | rfl
  · rw [hc] at hmember
    cases hmember
  · rw [hd] at hmember
    cases hmember

/-- The kind of a number literal, by the letters in it. -/
def kindOf (u : Text) : LiteralKind :=
  if has 'l' 'L' u then .double
  else if has 'u' 'U' u then .uint
  else if has 'x' 'X' u || u.all isDigit then .int
  else .float

/-- The point or the exponent is no digit. -/
theorem all_isDigit_of_body {w : Text} (h : IsBody w) : w.all isDigit = false := by
  rw [List.all_eq_false]
  cases h with
  | fraction => exact ⟨byte '.', by simp, by decide⟩
  | whole hw he =>
    obtain ⟨hc, -, -⟩ := he
    refine ⟨_, List.mem_append_right _ List.mem_cons_self, ?_⟩
    rcases hc with rfl | rfl <;> decide

theorem kindOf_of_body {w x : Text} (h : IsBody w) (hx : ∀ b ∈ x, b = byte 'f' ∨ b = byte 'F') :
    kindOf (w ++ x) = .float := by
  have hbytes : ∀ b ∈ w ++ x, (Number.isBodyByte b || b = byte 'f' || b = byte 'F') = true := by
    intro b hb
    rcases List.mem_append.1 hb with hb | hb
    · simp [Number.body_bytes w h b hb]
    · rcases hx b hb with rfl | rfl <;> rfl
  have hl : has 'l' 'L' (w ++ x) = false := has_eq_false hbytes rfl rfl
  have hu : has 'u' 'U' (w ++ x) = false := has_eq_false hbytes rfl rfl
  have hx : has 'x' 'X' (w ++ x) = false := has_eq_false hbytes rfl rfl
  simp [kindOf, hl, hu, hx, all_isDigit_of_body h, -List.all_eq_true]

/-- No text is a literal of two kinds. -/
theorem kindOf_of_mem (hu : u ∈ ofKind k) : kindOf u = k := by
  cases k with
  | int =>
    have hbytes := Number.integer_bytes u (mem_integer.1 hu)
    have hl : has 'l' 'L' u = false := has_eq_false hbytes rfl rfl
    have hnot : has 'u' 'U' u = false := has_eq_false hbytes rfl rfl
    have hint : (has 'x' 'X' u || u.all isDigit) = true := by
      cases mem_integer.1 hu with
      | hex hc => rw [has_of_mem (List.mem_cons_of_mem _ List.mem_cons_self) hc, Bool.true_or]
      | digits hw => rw [List.all_eq_true.2 hw.2, Bool.or_true]
    simp [kindOf, hl, hnot, hint]
  | uint =>
    have hl : has 'l' 'L' u = false :=
      has_eq_false (Number.unsigned_bytes u (mem_unsigned.1 hu)) rfl rfl
    cases mem_unsigned.1 hu with
    | @mk w c hw hc =>
      have hyes : has 'u' 'U' (w ++ [c]) = true := has_of_mem (by simp) hc
      simp [kindOf, hl, hyes]
  | float =>
    cases mem_float.1 hu with
    | plain hw => simpa using kindOf_of_body hw (x := []) (by simp)
    | ending hw hc => exact kindOf_of_body hw (by simpa using hc)
  | double =>
    cases mem_double.1 hu with
    | @mk w c d hw hcd =>
      have hl : has 'l' 'L' (w ++ [c, d]) = true :=
        has_of_mem (by simp) (hcd.imp And.left And.left)
      simp [kindOf, hl]
  | none => exact absurd hu (Language.notMem_zero u)
  | bool => exact absurd hu (Language.notMem_zero u)
  | unknown => exact absurd hu (Language.notMem_zero u)

theorem mem_ofKind_iff (hu : u ∈ ofKind k) : u ∈ ofKind k' ↔ k' = k := by
  constructor
  · intro hu'
    rw [← kindOf_of_mem hu, kindOf_of_mem hu']
  · rintro rfl
    exact hu

/-! ## What the languages begin with -/

theorem isNumberStart_of_mem {b : UInt8} {x : Text} (hu : b :: x ∈ ofKind k) :
    Number.isNumberStart b = true := by
  by_contra hb
  obtain ⟨hint, huint, hfloat, hdouble⟩ :=
    Number.eq_zero_of_not_start (by simpa using hb) x
  have hle := length_le_reachOf hu (List.prefix_refl _)
  rw [List.length_cons] at hle
  cases k <;> simp only [reachOf] at hle <;> omega

/-- A point alone is no number. -/
theorem point_notMem (k : LiteralKind) : [byte '.'] ∉ ofKind k := by
  intro hu
  have hzero : reachOf k [byte '.'] = 0 := by
    cases k with
    | unknown => rfl
    | _ => decide
  have hle := length_le_reachOf hu (List.prefix_refl _)
  rw [hzero] at hle
  cases hle

end Kinds

/-- The number literals of all kinds. -/
def all : Language UInt8 :=
  integer + unsigned + float + double

theorem mem_all {u : Text} : u ∈ all ↔ ∃ k, u ∈ ofKind k := by
  simp only [all, Language.mem_add]
  constructor
  · rintro (((h | h) | h) | h)
    · exact ⟨.int, h⟩
    · exact ⟨.uint, h⟩
    · exact ⟨.float, h⟩
    · exact ⟨.double, h⟩
  · rintro ⟨k, h⟩
    cases k with
    | int => exact .inl (.inl (.inl h))
    | uint => exact .inl (.inl (.inr h))
    | float => exact .inl (.inr h)
    | double => exact .inr h
    | none => exact absurd h (Language.notMem_zero u)
    | bool => exact absurd h (Language.notMem_zero u)
    | unknown => exact absurd h (Language.notMem_zero u)

end Numeral

/-! ## Patterns for numbers -/

namespace Pattern

open Reach
open Number (byte)

variable {p : Pattern} {w s : Text}

/-- Number literals but no others have a pattern that is known by the kind. -/
theorem eq_literal_of_mem (hp : p ∈ list) (hkind : p.kind = .literal)
    (hbool : (p.tags w).literal ≠ .bool) :
    p = literal (p.tags w).literal (Numeral.reachOf (p.tags w).literal) := by
  rw [list, listWith_eq] at hp
  simp only [List.mem_append, List.mem_cons] at hp
  rcases hp with (hp | hp) | rfl | hp
  · simp only [opening, List.mem_cons, List.not_mem_nil, or_false] at hp
    rcases hp with rfl | rfl | rfl | rfl | rfl | rfl | rfl | rfl
    all_goals first | rfl | cases hkind
  · rcases List.mem_append.1 hp with hp | hp
    · simp only [List.mem_cons, List.not_mem_nil, or_false] at hp
      rcases hp with rfl | rfl | rfl
      · exact absurd rfl hbool
      · exact absurd rfl hbool
      · cases hkind
    · obtain ⟨⟨w, k⟩, hmem, rfl⟩ := List.mem_map.1 hp
      have hkeyword : ∀ e ∈ Lexicon.keywords, e.2 ≠ .literal := by decide
      exact absurd hkind (hkeyword (w, k) hmem)
  · cases hkind
  · have hclosing : ∀ k ∈ closing.map Pattern.kind, k ≠ .literal := by decide
    exact absurd hkind (hclosing _ (List.mem_map_of_mem hp))

theorem literal_mem_list {k : LiteralKind} (h : Numeral.reachOf k s ≠ 0) :
    literal k (Numeral.reachOf k) ∈ list := by
  cases k with
  | none => exact absurd rfl h
  | bool => exact absurd rfl h
  | unknown => exact absurd rfl h
  | int => simp [list, listWith, Numeral.reachOf]
  | uint => simp [list, listWith, Numeral.reachOf]
  | float => simp [list, listWith, Numeral.reachOf]
  | double => simp [list, listWith, Numeral.reachOf]

/-- Where a number can begin, there is a number, or a point alone. -/
theorem eq_literal_of_start {b : UInt8} (hb : Number.isNumberStart b = true) (hp : p ∈ list)
    (hpos : 0 < p.reach (b :: s)) :
    (∃ k, p = literal k (Numeral.reachOf k)) ∨ (b = byte '.' ∧ p.reach (b :: s) = 1) := by
  have hnumber : isNumberByte b = true := by
    simp only [Number.isNumberStart, Bool.or_eq_true, decide_eq_true_eq] at hb
    rcases hb with hb | rfl
    · exact isNumberByte_of_isWordByte (by simp [isWordByte, hb])
    · rfl
  have hstart : isWordStart b = false := by
    by_contra hstart
    rw [isNumberStart_of_isWordStart (by simpa using hstart)] at hb
    cases hb
  -- Of the patterns that can begin with this byte, all but one are for numbers.
  obtain ⟨e, he, rfl⟩ := List.mem_map.1 (mem_candidates hp hstart hpos)
  obtain ⟨he, hopens⟩ := List.mem_filter.1 he
  simp only [openers, List.mem_append, List.mem_cons, List.mem_map, List.not_mem_nil,
    or_false] at he
  rcases he with ((rfl | rfl | rfl | rfl | rfl | rfl | rfl | rfl) | ⟨q, hq, rfl⟩) | rfl
  · rw [of_decide_eq_true hopens] at hb
    cases hb
  · rw [of_decide_eq_true hopens] at hb
    cases hb
  · simp only [isBreakByte, Bool.or_eq_true, decide_eq_true_eq] at hopens
    rcases hopens with rfl | rfl <;> cases hb
  · have hsolid := isBlankByte_of_isSolid (isSolid_of_isNumberByte hnumber)
    exact Bool.noConfusion (hsolid.symm.trans hopens)
  · exact .inl ⟨.double, rfl⟩
  · exact .inl ⟨.float, rfl⟩
  · exact .inl ⟨.uint, rfl⟩
  · exact .inl ⟨.int, rfl⟩
  · have hpoint : ∀ q ∈ punctuation, ∃ c ∈ q.kind.name, q.kind.name = [c] ∧
        (Number.isNumberStart c = true → c = byte '.') := by decide
    obtain ⟨c, -, hc, hpoint⟩ := hpoint q hq
    obtain rfl : c = b := by simpa [hc] using hopens
    refine .inr ⟨hpoint hb, ?_⟩
    change q.reach (c :: s) = 1
    simp [reach_of_mem_punctuation hq, exact, hc]
  · have hnot : (Text.ascii "~!*/%+-<>=&^|?").all (fun b => !Number.isNumberStart b) = true := by
      decide
    have := List.all_eq_true.1 hnot b (List.contains_iff_mem.1 hopens)
    simp [hb] at this

/-- Where a number literal stands, the pattern that is meant is one for numbers. -/
theorem longest_literal {u : Text} {k : LiteralKind} (hu : u ∈ Numeral.ofKind k) (hs : u <+: s) :
    ∃ k' n, longest s list = some (literal k' (Numeral.reachOf k'), n) ∧ k' ≠ .bool := by
  obtain ⟨b, x, rfl⟩ := List.exists_cons_of_ne_nil (Numeral.ne_nil_of_mem hu)
  obtain ⟨y, rfl⟩ := hs
  have hle := Numeral.length_le_reachOf hu (List.prefix_append _ y)
  rw [List.length_cons] at hle
  have hmem : literal k (Numeral.reachOf k) ∈ list :=
    literal_mem_list (s := b :: x ++ y) (by omega)
  cases hlong : longest (b :: x ++ y) list with
  | none =>
    have hzero : Numeral.reachOf k (b :: x ++ y) = 0 := longest_eq_none hlong _ hmem
    omega
  | some found =>
    obtain ⟨p, n⟩ := found
    obtain ⟨hp, hreach, hpos, hmax⟩ := longest_eq_some hlong
    have hfar : Numeral.reachOf k (b :: x ++ y) ≤ n := hmax _ hmem
    rcases eq_literal_of_start (Numeral.isNumberStart_of_mem hu) hp (hreach ▸ hpos) with
      ⟨k', rfl⟩ | ⟨rfl, hone⟩
    · refine ⟨k', n, rfl, ?_⟩
      rintro rfl
      have hzero : n = 0 := hreach.symm
      omega
    · have hn : n = 1 := hreach.symm.trans hone
      obtain rfl : x = [] := List.length_eq_zero_iff.1 (by omega)
      exact absurd hu (Numeral.point_notMem k)

end Pattern

/-! ## Tokens -/

namespace Lexer

variable {source : Text} {t : Token}

/-- A token of a number literal is the longest literal that stands there, and of no other kind. -/
theorem longest_of_mem (ht : t ∈ tokens source) (hkind : t.kind = .literal)
    (hbool : t.tags.literal ≠ .bool) :
    t.lexeme <+: source.drop t.start.offset.toNat ∧
      Numeral.Longest Numeral.all (source.drop t.start.offset.toNat) t.lexeme.length ∧
      ∀ k, t.lexeme ∈ Numeral.ofKind k ↔ k = t.tags.literal := by
  have hend : t.kind ≠ .endOfInput := by simp [hkind]
  obtain ⟨v, hdrop, hne, hfirst⟩ := exists_at ht hend
  obtain ⟨p, hp, -, hpkind, hptags, hreach, hmax⟩ := exists_pattern hne hfirst (by simp [hkind])
  have hlen := List.length_pos_iff.2 hne
  rw [← hptags] at hbool
  have heq := Pattern.eq_literal_of_mem hp (hpkind.trans hkind) hbool
  rw [hptags] at heq
  rw [heq] at hreach
  -- The pattern of the token reaches just as far as its lexeme, so that is one of its literals.
  have hmem : t.lexeme ∈ Numeral.ofKind t.tags.literal := by
    have hzero : Numeral.reachOf t.tags.literal (t.lexeme ++ v) ≠ 0 := by
      change Numeral.reachOf t.tags.literal (t.lexeme ++ v) = t.lexeme.length at hreach
      omega
    obtain ⟨u, x, hs, hu, hform⟩ := (Numeral.matches_ofKind _).sound _ hzero
    have hlength : t.lexeme.length = u.length := hreach.symm.trans hu
    rwa [(List.append_inj hs hlength).1]
  have hfront : t.lexeme <+: source.drop t.start.offset.toNat := ⟨v, hdrop.symm⟩
  refine ⟨hfront, ⟨fun u hu hs => ?_, ?_⟩, fun k => Numeral.mem_ofKind_iff hmem⟩
  · -- The pattern of another literal there reaches no further than the one that was chosen.
    obtain ⟨k, hu⟩ := Numeral.mem_all.1 hu
    rw [hdrop] at hs
    have hle := Numeral.length_le_reachOf hu hs
    have hpos := List.length_pos_iff.2 (Numeral.ne_nil_of_mem hu)
    exact hle.trans (hmax _ (Pattern.literal_mem_list (s := t.lexeme ++ v) (by omega)))
  · exact .inl ⟨t.lexeme, Numeral.mem_all.2 ⟨_, hmem⟩, hfront, rfl⟩

/-- Where a number literal stands at the start of a token, the token is a number. -/
theorem literal_of_mem (ht : t ∈ tokens source) (hend : t.kind ≠ .endOfInput) {u : Text}
    (hu : u ∈ Numeral.all) (hs : u <+: source.drop t.start.offset.toNat) :
    t.kind = .literal ∧ t.tags.literal ≠ .bool := by
  obtain ⟨v, hdrop, hne, hfirst⟩ := exists_at ht hend
  obtain ⟨k, hu⟩ := Numeral.mem_all.1 hu
  rw [hdrop] at hs
  obtain ⟨k', n, hlong, hk'⟩ := Pattern.longest_literal hu hs
  rw [first_of_longest (List.append_ne_nil_of_left_ne_nil hne v) hlong] at hfirst
  have hkind : Kind.literal = t.kind := congrArg Prod.fst hfirst
  have htags : Tags.mk Roles.none k' .none = t.tags :=
    congrArg (fun content => content.2.2) hfirst
  exact ⟨hkind.symm, by rwa [← htags]⟩

/-- Each form of number literal reaches over the longest prefix in its language, and nothing if it
has none. The numbers among the tokens of a source are those at whose start a number literal stands;
such a token is the longest literal there, and it carries the one kind whose language it is in. -/
theorem lex_numeral :
    (∀ s, Numeral.Longest Numeral.integer s (Number.integer s) ∧
      Numeral.Longest Numeral.unsigned s (Number.unsigned s) ∧
      Numeral.Longest Numeral.float s (Number.float s) ∧
      Numeral.Longest Numeral.double s (Number.double s)) ∧
    ∀ source keepIgnored, ∀ t ∈ lex source keepIgnored, t.kind ≠ .endOfInput →
      ((t.kind = .literal ∧ t.tags.literal ≠ .bool) ↔
        ∃ u ∈ Numeral.all, u <+: source.drop t.start.offset.toNat) ∧
      (t.kind = .literal ∧ t.tags.literal ≠ .bool →
        t.lexeme <+: source.drop t.start.offset.toNat ∧
          Numeral.Longest Numeral.all (source.drop t.start.offset.toNat) t.lexeme.length ∧
          ∀ k, t.lexeme ∈ Numeral.ofKind k ↔ k = t.tags.literal) := by
  refine ⟨fun s => ⟨Numeral.longest_ofKind .int s, Numeral.longest_ofKind .uint s,
    Numeral.longest_ofKind .float s, Numeral.longest_ofKind .double s⟩, ?_⟩
  intro source keepIgnored t ht hend
  have hmem := mem_tokens_of_mem_lex ht
  refine ⟨⟨fun h => ?_, fun ⟨u, hu, hs⟩ => literal_of_mem hmem hend hu hs⟩,
    fun h => longest_of_mem hmem h.1 h.2⟩
  obtain ⟨hfront, -, hkinds⟩ := longest_of_mem hmem h.1 h.2
  exact ⟨t.lexeme, Numeral.mem_all.2 ⟨_, (hkinds _).2 rfl⟩, hfront⟩

/-- Without digits there is no hexadecimal number and no exponent. -/
example :
    (lex (Text.ascii "0x 1.e+ .5LF 08U 7.f") false).map (fun t => (t.lexeme, t.tags.literal)) =
    [(Text.ascii "0", .int), (Text.ascii "x", .none), (Text.ascii "1.", .float),
      (Text.ascii "e", .none), (Text.ascii "+", .none), (Text.ascii ".5LF", .double),
      (Text.ascii "08U", .uint), (Text.ascii "7.f", .float), ([], .none)] := by
  rw [lex_eq_scan]
  decide +kernel

end Lexer

end ShaderRepair

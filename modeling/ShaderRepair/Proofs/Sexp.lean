import ShaderRepair.Token.Number

/-!
# Symbolic expressions

Words, and lists of words and lists in brackets, with a space between neighbours. Where no word has
a space or a bracket in it, the text can be read in one way only. This file contains:
- `Sexp`, and `Sexp.write`, which puts a symbolic expression in front of a text;
- `Sexp.IsTidy`, which asks for words without spaces and brackets;
- `Sexp.write_injective`, where what follows begins with a space or a bracket, and
  `Sexp.write_nil_injective`, where nothing follows.
-/

namespace ShaderRepair

/-- The brackets around a list. -/
inductive Bracket where
  | paren
  | brace
  deriving DecidableEq, Repr

namespace Bracket

def opening : Bracket → UInt8
  | .paren => Number.byte '('
  | .brace => Number.byte '\x7b'

def closing : Bracket → UInt8
  | .paren => Number.byte ')'
  | .brace => Number.byte '\x7d'

theorem opening_injective {b c : Bracket} (h : b.opening = c.opening) : b = c := by
  revert h
  cases b <;> cases c <;> decide

theorem closing_injective {b c : Bracket} (h : b.closing = c.closing) : b = c := by
  revert h
  cases b <;> cases c <;> decide

end Bracket

/-- A word or a list. -/
inductive Sexp where
  | word (w : Text)
  | list (bracket : Bracket) (items : List Sexp)

namespace Sexp

mutual

/-- Puts a symbolic expression in front of a text. -/
def write : Sexp → Text → Text
  | .word w, tail => w ++ tail
  | .list b items, tail => b.opening :: writeWords items (b.closing :: tail)

/-- Puts symbolic expressions in front of a text, with a space before each. -/
def writeAll : List Sexp → Text → Text
  | [], tail => tail
  | x :: more, tail => Number.byte ' ' :: write x (writeAll more tail)

/-- Puts symbolic expressions in front of a text, with a space between neighbours. -/
def writeWords : List Sexp → Text → Text
  | [], tail => tail
  | x :: more, tail => write x (writeAll more tail)

end

/-! ## Words and what follows them -/

/-- Spaces and brackets. -/
def isMark (b : UInt8) : Bool :=
  (Text.ascii " ()\x7b\x7d").contains b

theorem isMark_opening (b : Bracket) : isMark b.opening = true := by
  cases b <;> decide

theorem isMark_closing (b : Bracket) : isMark b.closing = true := by
  cases b <;> decide

/-- A word that can be told from what surrounds it. -/
structure IsWord (w : Text) : Prop where
  nonempty : w ≠ []
  bytes : ∀ b ∈ w, isMark b = false

mutual

/-- All words can be told from what surrounds them. -/
def IsTidy : Sexp → Prop
  | .word w => IsWord w
  | .list _ items => AreTidy items

def AreTidy : List Sexp → Prop
  | [] => True
  | x :: more => IsTidy x ∧ AreTidy more

end

/-- A text that goes on no word. -/
def Halts (tail : Text) : Prop :=
  ∀ b ∈ tail.head?, isMark b = true

theorem halts_nil : Halts [] := by
  intro b hb
  cases hb

theorem halts_closing (b : Bracket) (tail : Text) : Halts (b.closing :: tail) := by
  intro c hc
  cases hc
  exact isMark_closing b

theorem halts_writeAll {tail : Text} (xs : List Sexp) (h : Halts tail) :
    Halts (writeAll xs tail) := by
  cases xs with
  | nil => exact h
  | cons x more =>
    intro b hb
    cases hb
    decide

/-- A word is what comes before the first mark. -/
theorem takeWhile_append {w tail : Text} (hw : IsWord w) (ht : Halts tail) :
    (w ++ tail).takeWhile (fun b => !isMark b) = w := by
  have htail : tail.takeWhile (fun b => !isMark b) = [] := by
    cases tail with
    | nil => rfl
    | cons b tail => simp [ht b rfl]
  rw [List.takeWhile_append_of_pos (by simpa using hw.bytes), htail, List.append_nil]

theorem append_injective {w v t u : Text} (hw : IsWord w) (hv : IsWord v) (ht : Halts t)
    (hu : Halts u) (h : w ++ t = v ++ u) : w = v ∧ t = u := by
  have hwords : w = v := by
    rw [← takeWhile_append hw ht, h, takeWhile_append hv hu]
  subst hwords
  exact ⟨rfl, List.append_cancel_left h⟩

/-- A word does not begin like a list. -/
theorem append_ne_opening {w t u : Text} {b : Bracket} (hw : IsWord w) :
    w ++ t ≠ b.opening :: u := by
  obtain ⟨c, w, rfl⟩ := List.exists_cons_of_ne_nil hw.nonempty
  intro h
  have hbyte : c = b.opening := (List.cons.inj h).1
  have hc := hw.bytes c List.mem_cons_self
  rw [hbyte, isMark_opening] at hc
  cases hc

/-- Nothing but the end of a list begins with its closing bracket. -/
theorem write_ne_closing {x : Sexp} {t u : Text} {b : Bracket} (hx : x.IsTidy) :
    x.write t ≠ b.closing :: u := by
  cases x with
  | word w =>
    obtain ⟨c, w, rfl⟩ := List.exists_cons_of_ne_nil hx.nonempty
    intro h
    have hbyte : c = b.closing := (List.cons.inj h).1
    have hc := hx.bytes c List.mem_cons_self
    rw [hbyte, isMark_closing] at hc
    cases hc
  | list c items =>
    intro h
    have hbytes : ∀ c b : Bracket, c.opening ≠ b.closing := by
      intro c b
      cases c <;> cases b <;> decide
    exact hbytes c b (List.cons.inj h).1

theorem space_ne_closing (b : Bracket) : Number.byte ' ' ≠ b.closing := by
  cases b <;> decide

/-! ## Reading in one way only -/

mutual

theorem write_injective (x y : Sexp) {t u : Text} (hx : x.IsTidy) (hy : y.IsTidy) (ht : Halts t)
    (hu : Halts u) (h : x.write t = y.write u) : x = y ∧ t = u := by
  match x, y with
  | .word w, .word v =>
    obtain ⟨rfl, rfl⟩ := append_injective hx hy ht hu h
    exact ⟨rfl, rfl⟩
  | .word w, .list b items => exact absurd h (append_ne_opening hx)
  | .list b items, .word v => exact absurd h.symm (append_ne_opening hy)
  | .list b xs, .list c ys =>
    obtain ⟨hopening, hitems⟩ := List.cons.inj h
    obtain rfl := Bracket.opening_injective hopening
    obtain ⟨rfl, -, rfl⟩ := writeWords_injective xs ys hx hy hitems
    exact ⟨rfl, rfl⟩

theorem writeAll_injective (xs ys : List Sexp) {t u : Text} {b c : Bracket} (hxs : AreTidy xs)
    (hys : AreTidy ys) (h : writeAll xs (b.closing :: t) = writeAll ys (c.closing :: u)) :
    xs = ys ∧ b = c ∧ t = u := by
  match xs, ys with
  | [], [] =>
    obtain ⟨hclosing, rfl⟩ := List.cons.inj h
    exact ⟨rfl, Bracket.closing_injective hclosing, rfl⟩
  | [], y :: more => exact absurd (List.cons.inj h).1.symm (space_ne_closing b)
  | x :: more, [] => exact absurd (List.cons.inj h).1 (space_ne_closing c)
  | x :: xs, y :: ys =>
    obtain ⟨rfl, hmore⟩ := write_injective x y hxs.1 hys.1 (halts_writeAll xs (halts_closing b t))
      (halts_writeAll ys (halts_closing c u)) (List.cons.inj h).2
    obtain ⟨rfl, hbracket, rfl⟩ := writeAll_injective xs ys hxs.2 hys.2 hmore
    exact ⟨rfl, hbracket, rfl⟩

theorem writeWords_injective (xs ys : List Sexp) {t u : Text} {b c : Bracket} (hxs : AreTidy xs)
    (hys : AreTidy ys) (h : writeWords xs (b.closing :: t) = writeWords ys (c.closing :: u)) :
    xs = ys ∧ b = c ∧ t = u := by
  match xs, ys with
  | [], [] =>
    obtain ⟨hclosing, rfl⟩ := List.cons.inj h
    exact ⟨rfl, Bracket.closing_injective hclosing, rfl⟩
  | [], y :: more => exact absurd h.symm (write_ne_closing hys.1)
  | x :: more, [] => exact absurd h (write_ne_closing hxs.1)
  | x :: xs, y :: ys =>
    obtain ⟨rfl, hmore⟩ := write_injective x y hxs.1 hys.1 (halts_writeAll xs (halts_closing b t))
      (halts_writeAll ys (halts_closing c u)) h
    obtain ⟨rfl, hbracket, rfl⟩ := writeAll_injective xs ys hxs.2 hys.2 hmore
    exact ⟨rfl, hbracket, rfl⟩

end

theorem write_nil_injective {x y : Sexp} (hx : x.IsTidy) (hy : y.IsTidy)
    (h : x.write [] = y.write []) : x = y :=
  (write_injective x y hx hy halts_nil halts_nil h).1

end Sexp

end ShaderRepair

import ShaderRepair.Proofs.Procedure

/-!
# Pieces of a repaired source

An accepted run passes symbols and notes repairs. Put in order, the two make a list of pieces: what
was there, and what the repairs put between. This file contains:
- `Piece`, with the symbols before (`Piece.old`) and after (`Piece.new`) the repair;
- `Noted n P R`, which says that `R` are the repairs that turn the old symbols of `P` into the new
  ones, `n` symbols having been passed before;
- `weave`, which finds the pieces from the symbols and the repairs, so that there is one way only;
- `Woven`, what is left when only the kinds of symbols count, and what it means for the lookahead
  for declarations;
- `Passes`, the effect of an accepted run on the state.
-/

namespace ShaderRepair

/-- The symbol of a punctuation mark that is put in. -/
def Symbol.mark (k : Kind) : Symbol :=
  ⟨k, k.name, Tags.none, false⟩

/-- The symbol without the line break before it. -/
def Symbol.joined (s : Symbol) : Symbol :=
  { s with broken := false }

@[simp] theorem Symbol.mark_kind (k : Kind) : (Symbol.mark k).kind = k := rfl
@[simp] theorem Symbol.mark_broken (k : Kind) : (Symbol.mark k).broken = false := rfl
@[simp] theorem Symbol.mark_tags (k : Kind) : (Symbol.mark k).tags = Tags.none := rfl
@[simp] theorem Symbol.joined_kind (s : Symbol) : s.joined.kind = s.kind := rfl
@[simp] theorem Symbol.joined_lexeme (s : Symbol) : s.joined.lexeme = s.lexeme := rfl
@[simp] theorem Symbol.joined_tags (s : Symbol) : s.joined.tags = s.tags := rfl

namespace Grammar

/-- The mark that a repair puts behind the symbol passed last. -/
def Missing.kind? : Missing → Option Kind
  | .semicolon => some .semicolon
  | .colon => some .colon
  | .comma => some .comma
  | .rightParen => some .rightParen
  | .leftParen => none
  | .conversion _ _ => none

/-! ## Pieces -/

/-- A symbol that is there, a mark put behind the symbol before, or a symbol with a parenthesis put
before it, perhaps the one of a call. -/
inductive Piece where
  | kept (s : Symbol)
  | behind (k : Kind)
  | opened (type : Option Text) (s : Symbol)
  deriving DecidableEq, Repr

namespace Piece

/-- What opens before a symbol; a line break before the symbol stands before the opening then. -/
def opening (type : Option Text) (broken : Bool) : List Symbol :=
  match type with
  | none => [{ Symbol.mark .leftParen with broken := broken }]
  | some T => [⟨.identifier, T, Tags.none, broken⟩, Symbol.mark .leftParen]

def oldOf : Piece → List Symbol
  | .kept s => [s]
  | .behind _ => []
  | .opened _ s => [s]

def newOf : Piece → List Symbol
  | .kept s => [s]
  | .behind k => [Symbol.mark k]
  | .opened type s => opening type s.broken ++ [s.joined]

/-- The symbols before the repair. -/
def old (P : List Piece) : List Symbol :=
  P.flatMap oldOf

/-- The symbols after the repair. -/
def new (P : List Piece) : List Symbol :=
  P.flatMap newOf

/-- How many symbols the repair adds. -/
def extra (P : List Piece) : Nat :=
  (new P).length - (old P).length

section Lists

variable (s : Symbol) (k : Kind) (type : Option Text) (P P' : List Piece)

@[simp] theorem old_nil : old [] = [] := rfl
@[simp] theorem old_kept : old (.kept s :: P) = s :: old P := rfl
@[simp] theorem old_behind : old (.behind k :: P) = old P := rfl
@[simp] theorem old_opened : old (.opened type s :: P) = s :: old P := rfl
@[simp] theorem old_append : old (P ++ P') = old P ++ old P' := List.flatMap_append
@[simp] theorem new_nil : new [] = [] := rfl
@[simp] theorem new_kept : new (.kept s :: P) = s :: new P := rfl
@[simp] theorem new_behind : new (.behind k :: P) = Symbol.mark k :: new P := rfl
@[simp] theorem new_append : new (P ++ P') = new P ++ new P' := List.flatMap_append

@[simp] theorem new_opened :
    new (.opened type s :: P) = opening type s.broken ++ s.joined :: new P := by
  change (opening type s.broken ++ [s.joined]) ++ new P = _
  rw [List.append_assoc]
  rfl

theorem length_old_le_new : (old P).length ≤ (new P).length := by
  induction P with
  | nil => exact Nat.le_refl _
  | cons p P ih =>
    cases p with
    | kept s => simpa using ih
    | behind k => exact Nat.le_succ_of_le ih
    | opened type s =>
      simp only [old_opened, new_opened, List.length_append, List.length_cons]
      omega

theorem length_new : (new P).length = (old P).length + extra P := by
  have h := length_old_le_new P
  unfold extra
  omega

@[simp] theorem extra_append : extra (P ++ P') = extra P + extra P' := by
  have h := length_old_le_new P
  have h' := length_old_le_new P'
  unfold extra
  simp only [old_append, new_append, List.length_append]
  omega

@[simp] theorem extra_nil : extra [] = 0 := rfl
@[simp] theorem extra_kept : extra (.kept s :: P) = extra P := by
  simp [extra]

@[simp] theorem extra_behind : extra (.behind k :: P) = extra P + 1 := by
  have h := length_old_le_new P
  simp only [extra, new_behind, old_behind, List.length_cons]
  omega

@[simp] theorem extra_opened :
    extra (.opened type s :: P) = extra P + (opening type s.broken).length := by
  have h := length_old_le_new P
  simp only [extra, new_opened, old_opened, List.length_cons, List.length_append]
  omega

end Lists

end Piece

open Piece

/-! ## Repairs noted along pieces -/

/-- `R` are the repairs noted while the pieces `P` were read, from symbol `n` on. A conversion is
noted when its initializer has been read, after the repairs inside. -/
inductive Noted : Nat → List Piece → List Repair → Prop where
  | nil (n : Nat) : Noted n [] []
  | kept (n : Nat) {s : Symbol} (h : s.kind ≠ .error) : Noted n [.kept s] []
  | behind (n : Nat) {m : Missing} {k : Kind} (h : m.kind? = some k) :
      Noted n [.behind k] [⟨n, m⟩]
  | append {n : Nat} {P P' : List Piece} {R R' : List Repair} :
      Noted n P R → Noted (n + (old P).length) P' R' → Noted n (P ++ P') (R ++ R')
  | paren {n : Nat} {s : Symbol} {P : List Piece} {R : List Repair} :
      Noted n (.kept s :: P) R → Noted n (.opened none s :: P) (⟨n, .leftParen⟩ :: R)
  | conversion {n : Nat} {sign s : Symbol} {T : Text} {P : List Piece} {R : List Repair} :
      equals.accepts sign = true → (ValueType.lookup T).isSome = true →
      Noted (n + 1) (.kept s :: P) R →
      Noted n (.kept sign :: .opened (some T) s :: (P ++ [.behind .rightParen]))
        (R ++ [⟨n + 1 + (old (.kept s :: P)).length, .conversion T (n + 1)⟩])

namespace Noted

variable {n : Nat} {P : List Piece} {R : List Repair}

/-- Error symbols are never passed. -/
theorem kind_ne_error (h : Noted n P R) : ∀ s ∈ old P, s.kind ≠ .error := by
  induction h with
  | nil n => simp
  | kept n hs =>
    intro s hs'
    rw [List.mem_singleton.1 hs']
    exact hs
  | behind n hm => simp
  | append h₁ h₂ ih₁ ih₂ =>
    intro s hs
    rw [old_append, List.mem_append] at hs
    exact hs.elim (ih₁ s) (ih₂ s)
  | paren h ih => exact ih
  | conversion hs hT h ih =>
    rename_i n sign s T P R
    intro x hx
    simp only [old_kept, old_opened, old_append, old_behind, old_nil, List.append_nil] at hx ih
    rcases List.mem_cons.1 hx with rfl | hx
    · simp only [equals, Expectation.accepts, Bool.and_eq_true, decide_eq_true_eq] at hs
      rw [hs.1]
      decide
    · exact ih x hx

end Noted

/-- A repair that is noted while the symbols from `start` up to `stop` are read stands at one of
them or right behind them. A parenthesis is put in before one of them, and a conversion begins at
one of them, but the sign comes before. -/
structure Repair.Stands (start stop : Nat) (r : Repair) : Prop where
  le_index : start ≤ r.index
  index_le : r.index ≤ stop
  paren : r.missing = .leftParen → r.index < stop
  conversion : ∀ {T : Text} {i : Nat}, r.missing = .conversion T i → start < i ∧ i < stop

theorem Repair.Stands.mono {start stop start' stop' : Nat} {r : Repair}
    (h : r.Stands start stop) (hstart : start' ≤ start) (hstop : stop ≤ stop') :
    r.Stands start' stop' where
  le_index := Nat.le_trans hstart h.le_index
  index_le := Nat.le_trans h.index_le hstop
  paren hr := Nat.lt_of_lt_of_le (h.paren hr) hstop
  conversion hr := by
    obtain ⟨hlow, hhigh⟩ := h.conversion hr
    exact ⟨Nat.lt_of_le_of_lt hstart hlow, Nat.lt_of_lt_of_le hhigh hstop⟩

namespace Noted

variable {n : Nat} {P : List Piece} {R : List Repair}

/-- Repairs stand at the symbols read or right behind them. -/
theorem stands (h : Noted n P R) : ∀ r ∈ R, r.Stands n (n + (old P).length) := by
  induction h with
  | nil n => exact fun r hr => absurd hr List.not_mem_nil
  | kept n hs => exact fun r hr => absurd hr List.not_mem_nil
  | behind n hm =>
    intro r hr
    rw [List.mem_singleton.1 hr]
    refine ⟨Nat.le_refl _, Nat.le_refl _, ?_, ?_⟩
    · rintro rfl
      cases hm
    · rintro T i rfl
      cases hm
  | append h₁ h₂ ih₁ ih₂ =>
    intro r hr
    rw [old_append, List.length_append, ← Nat.add_assoc]
    rcases List.mem_append.1 hr with hr | hr
    · exact (ih₁ r hr).mono (Nat.le_refl _) (Nat.le_add_right _ _)
    · exact (ih₂ r hr).mono (Nat.le_add_right _ _) (Nat.le_refl _)
  | @paren n s P R h ih =>
    intro r hr
    rcases List.mem_cons.1 hr with rfl | hr
    · have hlt : n < n + (old (.opened none s :: P)).length := Nat.lt_add_of_pos_right (by simp)
      exact ⟨Nat.le_refl _, Nat.le_of_lt hlt, fun _ => hlt, nofun⟩
    · exact ih r hr
  | @conversion n sign s T P R hs hT h ih =>
    intro r hr
    have hlen :
        n + (old (.kept sign :: .opened (some T) s :: (P ++ [.behind .rightParen]))).length =
          n + 1 + (old (.kept s :: P)).length := by
      simp
      omega
    have hlt : n + 1 < n + 1 + (old (.kept s :: P)).length := Nat.lt_add_of_pos_right (by simp)
    rw [hlen]
    rcases List.mem_append.1 hr with hr | hr
    · exact (ih r hr).mono (Nat.le_succ n) (Nat.le_refl _)
    · rw [List.mem_singleton.1 hr]
      refine ⟨?_, Nat.le_refl _, nofun, ?_⟩
      · exact Nat.le_trans (Nat.le_succ n) (Nat.le_of_lt hlt)
      · rintro U i hr
        cases hr
        exact ⟨Nat.lt_succ_self n, hlt⟩

end Noted

/-! ## The pieces that given repairs make -/

/-- What a repair puts behind the symbol before it; a conversion closes its parenthesis there. -/
def Missing.closing? : Missing → Option Kind
  | .conversion _ _ => some .rightParen
  | m => m.kind?

/-- The marks that repairs put behind the symbol before symbol `n`. -/
def marksAt (R : List Repair) (n : Nat) : List Piece :=
  R.filterMap fun r => if r.index = n then r.missing.closing?.map .behind else none

/-- The type of the conversion that starts at symbol `n`, if a repair is one. -/
def conversionAt (R : List Repair) (n : Nat) : Option Text :=
  R.findSome? fun r =>
    match r.missing with
    | .conversion T first => if first = n then some T else none
    | _ => none

/-- The symbol `s`, which has index `n`, with what opens before it. -/
def pieceAt (R : List Repair) (n : Nat) (s : Symbol) : Piece :=
  if R.any fun r => r.index = n && r.missing = .leftParen then .opened none s
  else
    match conversionAt R n with
    | some T => .opened (some T) s
    | none => .kept s

/-- The symbols from index `n` on, with the repairs among them. -/
def weave (R : List Repair) : Nat → List Symbol → List Piece
  | n, [] => marksAt R n
  | n, s :: more => marksAt R n ++ pieceAt R n s :: weave R (n + 1) more

section Weave

variable {R R' : List Repair} {n : Nat} {s : Symbol}

theorem marksAt_append : marksAt (R ++ R') n = marksAt R n ++ marksAt R' n :=
  List.filterMap_append

theorem marksAt_eq_nil (h : ∀ r ∈ R, r.index ≠ n) : marksAt R n = [] := by
  refine List.filterMap_eq_nil_iff.2 ?_
  intro r hr
  simp [h r hr]

theorem conversionAt_append :
    conversionAt (R ++ R') n = (conversionAt R n).or (conversionAt R' n) :=
  List.findSome?_append

theorem conversionAt_eq_none (h : ∀ index T, ⟨index, .conversion T n⟩ ∉ R) :
    conversionAt R n = none := by
  refine List.findSome?_eq_none_iff.2 ?_
  intro r hr
  rcases r with ⟨index, m⟩
  cases m with
  | conversion T first =>
    by_cases hf : first = n
    · subst hf
      exact absurd hr (h index T)
    · simp [hf]
  | _ => rfl

/-- A parenthesis opens before symbol `n` if a repair says so. -/
theorem parenAt_iff :
    (R.any fun r => r.index = n && r.missing = .leftParen) = true ↔ ⟨n, .leftParen⟩ ∈ R := by
  simp only [List.any_eq_true, Bool.and_eq_true, decide_eq_true_eq]
  constructor
  · rintro ⟨⟨index, m⟩, hr, rfl, rfl⟩
    exact hr
  · exact fun h => ⟨_, h, rfl, rfl⟩

theorem pieceAt_eq_kept_iff :
    pieceAt R n s = .kept s ↔ ⟨n, .leftParen⟩ ∉ R ∧ conversionAt R n = none := by
  unfold pieceAt
  by_cases hp : ⟨n, .leftParen⟩ ∈ R
  · simp [parenAt_iff.2 hp, hp]
  · rw [if_neg (mt parenAt_iff.1 hp)]
    cases conversionAt R n <;> simp [hp]

/-- Repairs that open nothing at symbol `n` do not matter there. -/
theorem pieceAt_append_left (hp : ⟨n, .leftParen⟩ ∉ R')
    (hc : ∀ index T, ⟨index, .conversion T n⟩ ∉ R') :
    pieceAt (R ++ R') n s = pieceAt R n s := by
  simp [pieceAt, List.any_append, Bool.eq_false_iff.2 (mt parenAt_iff.1 hp), conversionAt_append,
    conversionAt_eq_none hc]

theorem pieceAt_append_right (hp : ⟨n, .leftParen⟩ ∉ R)
    (hc : ∀ index T, ⟨index, .conversion T n⟩ ∉ R) :
    pieceAt (R ++ R') n s = pieceAt R' n s := by
  simp [pieceAt, List.any_append, Bool.eq_false_iff.2 (mt parenAt_iff.1 hp), conversionAt_append,
    conversionAt_eq_none hc]

/-- Repairs before a place do not matter from there on. -/
theorem weave_append_right {w : List Symbol} (h : ∀ r ∈ R, r.index < n)
    (hc : ∀ index T i, ⟨index, .conversion T i⟩ ∈ R → i < n) :
    weave (R ++ R') n w = weave R' n w := by
  have hmarks : marksAt (R ++ R') n = marksAt R' n := by
    rw [marksAt_append, marksAt_eq_nil fun r hr => Nat.ne_of_lt (h r hr), List.nil_append]
  induction w generalizing n with
  | nil => exact hmarks
  | cons s w ih =>
    have hpiece : pieceAt (R ++ R') n s = pieceAt R' n s := by
      refine pieceAt_append_right ?_ ?_
      · intro hr
        exact absurd (h _ hr) (Nat.lt_irrefl n)
      · intro index T hr
        exact absurd (hc _ _ _ hr) (Nat.lt_irrefl n)
    have hmarks' : marksAt (R ++ R') (n + 1) = marksAt R' (n + 1) := by
      rw [marksAt_append, marksAt_eq_nil fun r hr => by have := h r hr; omega, List.nil_append]
    have htail := ih (fun r hr => Nat.lt_succ_of_lt (h r hr))
      (fun index T i hr => Nat.lt_succ_of_lt (hc index T i hr)) hmarks'
    simp [weave, hmarks, hpiece, htail]

/-- Repairs before and behind a place can be woven in separately. -/
theorem weave_append {w w' : List Symbol}
    (h : ∀ r ∈ R, r.index ≤ n + w.length)
    (hp : ∀ index, ⟨index, .leftParen⟩ ∈ R → index < n + w.length)
    (hc : ∀ index T i, ⟨index, .conversion T i⟩ ∈ R → i < n + w.length)
    (h' : ∀ r ∈ R', n + w.length ≤ r.index)
    (hc' : ∀ index T i, ⟨index, .conversion T i⟩ ∈ R' → i < n ∨ n + w.length ≤ i) :
    weave (R ++ R') n (w ++ w') = weave R n w ++ weave R' (n + w.length) w' := by
  induction w generalizing n with
  | nil =>
    simp only [List.length_nil, Nat.add_zero] at h hp hc h' hc'
    cases w' with
    | nil => simp [weave, marksAt_append]
    | cons s more =>
      -- Both may put marks in here, but only the later repairs concern the symbol behind them.
      have hpiece : pieceAt (R ++ R') n s = pieceAt R' n s := by
        refine pieceAt_append_right ?_ ?_
        · intro hr
          exact absurd (hp _ hr) (Nat.lt_irrefl n)
        · intro index T hr
          exact absurd (hc _ _ _ hr) (Nat.lt_irrefl n)
      have htail : weave (R ++ R') (n + 1) more = weave R' (n + 1) more :=
        weave_append_right (fun r hr => Nat.lt_succ_of_le (h r hr))
          (fun index T i hr => Nat.lt_succ_of_lt (hc index T i hr))
      simp [weave, marksAt_append, hpiece, htail]
  | cons s w ih =>
    have hlen : n + (s :: w).length = n + 1 + w.length := by
      simp only [List.length_cons]
      omega
    rw [hlen] at h hp hc h' hc' ⊢
    -- The later repairs leave this symbol alone.
    have hmarks : marksAt (R ++ R') n = marksAt R n := by
      have hnil : marksAt R' n = [] := marksAt_eq_nil fun r hr => by
        have := h' r hr
        omega
      rw [marksAt_append, hnil, List.append_nil]
    have hpiece : pieceAt (R ++ R') n s = pieceAt R n s := by
      refine pieceAt_append_left ?_ ?_
      · intro hr
        have := h' _ hr
        simp only at this
        omega
      · intro index T hr
        have := hc' _ _ _ hr
        omega
    have htail := ih h hp hc h' fun index T i hr => by
      have := hc' index T i hr
      omega
    simp [weave, hmarks, hpiece, htail]

/-- Marks are no symbols of the source. -/
theorem kept_notMem_marksAt : .kept s ∉ marksAt R n := by
  simp only [marksAt, List.mem_filterMap, not_exists, not_and]
  intro r hr
  split
  · cases r.missing.closing? <;> simp
  · simp

/-- What follows from pieces that begin with a symbol left as it is. -/
theorem weave_cons_inv {w : List Symbol} {P : List Piece}
    (h : .kept s :: P = weave R n (s :: w)) :
    marksAt R n = [] ∧ pieceAt R n s = .kept s ∧ P = weave R (n + 1) w := by
  rw [weave] at h
  cases hm : marksAt R n with
  | nil =>
    rw [hm] at h
    simp only [List.nil_append, List.cons.injEq] at h
    exact ⟨rfl, h.1.symm, h.2⟩
  | cons p more =>
    rw [hm] at h
    simp only [List.cons_append, List.cons.injEq] at h
    refine absurd ?_ (kept_notMem_marksAt (R := R) (n := n) (s := s))
    rw [hm, h.1]
    exact List.mem_cons_self

/-- Repairs that all stand behind a symbol leave it as it is. -/
theorem weave_cons_of_later {w : List Symbol} (h : ∀ r ∈ R, n < r.index)
    (hc : ∀ index T i, ⟨index, .conversion T i⟩ ∈ R → n < i) :
    weave R n (s :: w) = .kept s :: weave R (n + 1) w := by
  have hmarks : marksAt R n = [] := marksAt_eq_nil fun r hr => Nat.ne_of_gt (h r hr)
  have hpiece : pieceAt R n s = .kept s := by
    refine pieceAt_eq_kept_iff.2 ⟨?_, conversionAt_eq_none ?_⟩
    · intro hr
      exact Nat.lt_irrefl n (h _ hr)
    · intro index T hr
      exact Nat.lt_irrefl n (hc _ _ _ hr)
  rw [weave, hmarks, hpiece, List.nil_append]

/-- A parenthesis before the first symbol opens there, and all else stays. -/
theorem weave_paren {w : List Symbol} {P : List Piece} (h : .kept s :: P = weave R n (s :: w)) :
    weave (⟨n, .leftParen⟩ :: R) n (s :: w) = .opened none s :: P := by
  -- Nothing stands before the first symbol, since it begins the pieces.
  obtain ⟨hmarks, -, htail⟩ := weave_cons_inv h
  have hmarks' : marksAt ([⟨n, .leftParen⟩] ++ R) n = [] := by
    rw [marksAt_append, hmarks]
    simp [marksAt, Missing.closing?, Missing.kind?]
  have htail' : weave ([⟨n, .leftParen⟩] ++ R) (n + 1) w = weave R (n + 1) w :=
    weave_append_right (by simp) (by simp)
  have hpiece : pieceAt ([⟨n, .leftParen⟩] ++ R) n s = .opened none s := by
    simp [pieceAt]
  change weave ([⟨n, .leftParen⟩] ++ R) n (s :: w) = _
  rw [weave, hmarks', hpiece, htail', ← htail]
  rfl

/-- A conversion of all the symbols opens a call before the first of them and closes it behind the
last, and all else stays. -/
theorem weave_conversion {w : List Symbol} {P : List Piece} (T : Text)
    (h : .kept s :: P = weave R n (s :: w))
    (hindex : ∀ r ∈ R, r.index ≤ n + (w.length + 1))
    (hparen : ∀ index, ⟨index, .leftParen⟩ ∈ R → index < n + (w.length + 1))
    (hconv : ∀ index U i, ⟨index, .conversion U i⟩ ∈ R → i < n + (w.length + 1)) :
    weave (R ++ [⟨n + (w.length + 1), .conversion T n⟩]) n (s :: w) =
      .opened (some T) s :: (P ++ [.behind .rightParen]) := by
  obtain ⟨hmarks, hpiece, htail⟩ := weave_cons_inv h
  obtain ⟨hnot, hnone⟩ := pieceAt_eq_kept_iff.1 hpiece
  have hlen : n + (w.length + 1) = n + 1 + w.length := by omega
  rw [hlen] at hindex hparen hconv ⊢
  -- The call opens before the first symbol.
  have hmarks' : marksAt (R ++ [⟨n + 1 + w.length, .conversion T n⟩]) n = [] := by
    rw [marksAt_append, hmarks, List.nil_append]
    exact marksAt_eq_nil (by simp; omega)
  have hpiece' : pieceAt (R ++ [⟨n + 1 + w.length, .conversion T n⟩]) n s =
      .opened (some T) s := by
    have hT : conversionAt (R ++ [⟨n + 1 + w.length, .conversion T n⟩]) n = some T := by
      rw [conversionAt_append, hnone]
      simp [conversionAt]
    simp [pieceAt, List.any_append, Bool.eq_false_iff.2 (mt parenAt_iff.1 hnot), hT]
  -- The closing parenthesis comes behind the last one.
  have hclosing : weave (R ++ [⟨n + 1 + w.length, .conversion T n⟩]) (n + 1) (w ++ []) =
      P ++ [.behind .rightParen] := by
    rw [weave_append hindex hparen hconv, ← htail]
    · simp [weave, marksAt, Missing.closing?]
    · simp
    · intro index U i hr
      simp only [List.mem_singleton, Repair.mk.injEq, Missing.conversion.injEq] at hr
      omega
  rw [List.append_nil] at hclosing
  rw [weave, hmarks', hpiece', hclosing, List.nil_append]

end Weave

/-- The pieces of a run are those that its repairs make of its symbols. -/
theorem Noted.eq_weave {n : Nat} {P : List Piece} {R : List Repair} (h : Noted n P R) :
    P = weave R n (old P) := by
  induction h with
  | nil n => rfl
  | kept n hs => rfl
  | behind n hm =>
    rename_i m k
    cases m <;> simp_all [weave, marksAt, Missing.closing?, Missing.kind?]
  | append h₁ h₂ ih₁ ih₂ =>
    rename_i n P P' R R'
    rw [old_append, weave_append]
    · rw [← ih₁, ← ih₂]
    · exact fun r hr => (h₁.stands r hr).index_le
    · exact fun index hr => (h₁.stands _ hr).paren rfl
    · exact fun index T i hr => ((h₁.stands _ hr).conversion rfl).2
    · exact fun r hr => (h₂.stands r hr).le_index
    · exact fun index T i hr => .inr (Nat.le_of_lt ((h₂.stands _ hr).conversion rfl).1)
  | paren h ih => exact (weave_paren ih).symm
  | conversion hs hT h ih =>
    rename_i n sign s T P R
    have hcall : weave (R ++ [⟨n + 1 + ((old P).length + 1), .conversion T (n + 1)⟩]) (n + 1)
        (s :: old P) = .opened (some T) s :: (P ++ [.behind .rightParen]) :=
      weave_conversion T ih (fun r hr => (h.stands r hr).index_le)
        (fun index hr => (h.stands _ hr).paren rfl)
        fun index U i hr => ((h.stands _ hr).conversion rfl).2
    simp only [old_kept, old_opened, old_append, old_behind, old_nil, List.append_nil,
      List.length_cons]
    -- The sign comes before all repairs.
    rw [weave_cons_of_later, hcall]
    · intro r hr
      rcases List.mem_append.1 hr with hr | hr
      · exact (h.stands r hr).le_index
      · rw [List.mem_singleton.1 hr]
        simp only
        omega
    · intro index U i hr
      rcases List.mem_append.1 hr with hr | hr
      · have := ((h.stands _ hr).conversion rfl).1
        omega
      · simp only [List.mem_singleton, Repair.mk.injEq, Missing.conversion.injEq] at hr
        omega

/-- There is one way only to read given repairs into given symbols. -/
theorem Noted.unique {n : Nat} {P P' : List Piece} {R : List Repair} (h : Noted n P R)
    (h' : Noted n P' R) (hold : old P = old P') : P = P' := by
  rw [h.eq_weave, h'.eq_weave, hold]

/-! ## Kinds alone -/

/-- The kinds of marks that repairs put in. -/
def isMark : Kind → Bool
  | .semicolon | .colon | .comma | .leftParen | .rightParen => true
  | _ => false

/-- The second list has the kinds of the first, with marks between them and openings of calls
behind operators. -/
inductive Woven : List Symbol → List Symbol → Prop where
  | nil : Woven [] []
  | keep {s s' : Symbol} {r r' : List Symbol} (h : s'.kind = s.kind) :
      Woven r r' → Woven (s :: r) (s' :: r')
  | mark {s : Symbol} {r r' : List Symbol} (h : isMark s.kind = true) :
      Woven r r' → Woven r (s :: r')
  | call {sign sign' name paren : Symbol} {r r' : List Symbol} (h : sign.kind = .operator)
      (h' : sign'.kind = .operator) (hn : name.kind = .identifier) (hp : paren.kind = .leftParen) :
      Woven r r' → Woven (sign :: r) (sign' :: name :: paren :: r')

namespace Woven

variable {r r' : List Symbol}

/-- Only the kind of the first symbol counts. -/
theorem head_congr {s s' : Symbol} (hs : s'.kind = s.kind) (h : Woven r (s :: r')) :
    Woven r (s' :: r') := by
  cases h with
  | keep h h' => exact .keep (hs.trans h) h'
  | mark h h' => exact .mark (by rw [hs]; exact h) h'
  | call h h' hn hp hr => exact .call h (hs.trans h') hn hp hr

/-- Putting marks and openings of calls in does not make a name follow array dimensions: at depth
zero a mark stops the lookahead, and inside brackets it is passed or stops the lookahead too. -/
theorem nameAfterDims_eq_false (h : Woven r r') :
    ∀ depth, Symbol.nameAfterDims depth r = false → Symbol.nameAfterDims depth r' = false := by
  induction h with
  | nil => exact fun _ h => h
  | keep hs h ih =>
    intro depth hd
    cases depth with
    | zero =>
      simp only [Symbol.nameAfterDims, hs] at hd ⊢
      split at hd
      · next hb => simpa [hb] using ih 1 hd
      · next hb => simpa [hb] using hd
    | succ depth =>
      simp only [Symbol.nameAfterDims, hs] at hd ⊢
      split at hd
      · exact ih _ hd
      · exact ih _ hd
      · rfl
      · rfl
      · rfl
      · exact ih _ hd
  | mark hs h ih =>
    rename_i s r r'
    intro depth hd
    cases depth with
    | zero =>
      cases hk : s.kind <;> simp_all [isMark, Symbol.nameAfterDims]
    | succ depth =>
      have := ih _ hd
      cases hk : s.kind <;> simp_all [isMark, Symbol.nameAfterDims]
  | call h h' hn hp hr ih =>
    intro depth hd
    cases depth with
    | zero => simp [Symbol.nameAfterDims, h']
    | succ depth =>
      simp only [Symbol.nameAfterDims, h] at hd
      simpa [Symbol.nameAfterDims, h', hn, hp] using ih _ hd

/-- Nor does it make a declaration start. -/
theorem startsDeclaration_eq_false (h : Woven r r')
    (hd : Symbol.startsDeclaration r = false) : Symbol.startsDeclaration r' = false := by
  cases h with
  | nil => rfl
  | keep hs h =>
    simp only [Symbol.startsDeclaration, hs, Bool.and_eq_false_iff, decide_eq_false_iff_not]
      at hd ⊢
    exact hd.imp id fun hd => h.nameAfterDims_eq_false 0 hd
  | mark hs h =>
    rename_i s r'
    cases hk : s.kind <;> simp_all [isMark, Symbol.startsDeclaration]
  | call h h' hn hp hr => simp [Symbol.startsDeclaration, h']

end Woven

/-- The mark of a repair is one of the marks. -/
theorem Missing.isMark_of_kind? {m : Missing} {k : Kind} (h : m.kind? = some k) :
    isMark k = true := by
  cases m <;> simp_all [Missing.kind?] <;> subst h <;> rfl

theorem Noted.woven {n : Nat} {P : List Piece} {R : List Repair} (h : Noted n P R) :
    ∀ {r r' : List Symbol}, Woven r r' → Woven (old P ++ r) (new P ++ r') := by
  induction h with
  | nil n => exact id
  | kept n hs => exact fun hr => .keep rfl hr
  | behind n hm => exact fun hr => .mark (Missing.isMark_of_kind? hm) hr
  | append h₁ h₂ ih₁ ih₂ =>
    intro r r' hr
    simpa using ih₁ (ih₂ hr)
  | paren h ih =>
    intro r r' hr
    rename_i n s P R
    have hjoined : Woven (s :: (old P ++ r)) (s.joined :: (new P ++ r')) :=
      (ih hr).head_congr (Symbol.joined_kind s)
    exact .mark rfl hjoined
  | conversion hs hT h ih =>
    rename_i n sign s T P R
    intro r r' hr
    have hsign : sign.kind = .operator := by
      simp only [equals, Expectation.accepts, Bool.and_eq_true, decide_eq_true_eq] at hs
      exact hs.1
    have hmark : Woven r (Symbol.mark .rightParen :: r') := .mark rfl hr
    have hjoined : Woven (s :: (old P ++ r))
        (s.joined :: (new P ++ Symbol.mark .rightParen :: r')) :=
      (ih hmark).head_congr (Symbol.joined_kind s)
    have hcall : Woven (sign :: s :: (old P ++ r))
        (sign :: ⟨.identifier, T, Tags.none, s.broken⟩ :: Symbol.mark .leftParen :: s.joined ::
          (new P ++ Symbol.mark .rightParen :: r')) :=
      .call hsign hsign rfl rfl hjoined
    simpa [opening] using hcall

/-! ## What a run does to the state -/

/-- From `s` to `t` the old symbols of `P` were passed and the repairs `R` noted. -/
structure Passes (s t : State) (P : List Piece) (R : List Repair) : Prop where
  rest : s.rest = old P ++ t.rest
  passed : t.passed = s.passed + (old P).length
  repairs : t.repairs = R.reverse ++ s.repairs
  noted : Noted s.passed P R

namespace Passes

variable {s m t : State} {P P' : List Piece} {R R' : List Repair}

theorem refl (s : State) : Passes s s [] [] :=
  ⟨rfl, rfl, rfl, .nil _⟩

theorem trans (h : Passes s m P R) (h' : Passes m t P' R') :
    Passes s t (P ++ P') (R ++ R') := by
  refine ⟨?_, ?_, ?_, ?_⟩
  · rw [h.rest, h'.rest, old_append, List.append_assoc]
  · rw [h'.passed, h.passed, old_append, List.length_append]
    omega
  · rw [h'.repairs, h.repairs, List.reverse_append, List.append_assoc]
  · have hn := h'.noted
    rw [h.passed] at hn
    exact h.noted.append hn

/-- The states before and after tell the pieces and the repairs. -/
theorem unique (h : Passes s t P R) (h' : Passes s t P' R') : P = P' ∧ R = R' := by
  have hR : R = R' :=
    List.reverse_injective (List.append_cancel_right (h.repairs.symm.trans h'.repairs))
  subst hR
  exact ⟨h.noted.unique h'.noted (List.append_cancel_right (h.rest.symm.trans h'.rest)), rfl⟩

/-- The first symbol of what is read is the next symbol. -/
theorem next_eq {p : Piece} {x : Symbol} {xs : List Symbol} (h : Passes s t (p :: P) R)
    (hp : p.oldOf = x :: xs) : s.next = x := by
  have hr := h.rest
  change s.rest = (p.oldOf ++ old P) ++ t.rest at hr
  rw [hp] at hr
  simp [State.next, hr]

end Passes

/-! ## Passing symbols -/

/-- A symbol ahead that can be passed is the first of those left. -/
theorem State.rest_of_next {s : State} {x : Symbol} (hx : s.next = x)
    (hk : x.kind ≠ .endOfInput) : ∃ more, s.rest = x :: more := by
  unfold State.next at hx
  cases hr : s.rest with
  | nil =>
    rw [hr] at hx
    subst hx
    exact absurd rfl hk
  | cons y more =>
    rw [hr] at hx
    exact ⟨more, by rw [← hx]; rfl⟩

theorem State.shift_of_rest {s : State} {x : Symbol} {more : List Symbol}
    (hr : s.rest = x :: more) : s.shift = { s with rest := more, passed := s.passed + 1 } := by
  simp [State.shift, hr]

theorem Passes.shift {s : State} {x : Symbol} {more : List Symbol}
    (hr : s.rest = x :: more) (hk : x.kind ≠ .error) : Passes s s.shift [.kept x] [] := by
  rw [State.shift_of_rest hr]
  exact ⟨hr, rfl, rfl, .kept _ hk⟩

/-- Symbols that are all kept. -/
theorem Noted.keptAll (n : Nat) {w : List Symbol} (h : ∀ s ∈ w, s.kind ≠ .error) :
    Noted n (w.map .kept) [] := by
  induction w generalizing n with
  | nil => exact .nil n
  | cons s w ih =>
    have hs : Noted n [.kept s] [] := .kept n (h s List.mem_cons_self)
    exact hs.append (ih (n + 1) fun y hy => h y (List.mem_cons_of_mem s hy))

@[simp] theorem Piece.old_map_kept (w : List Symbol) : old (w.map .kept) = w := by
  induction w with
  | nil => rfl
  | cons s w ih => simp [ih]

@[simp] theorem Piece.new_map_kept (w : List Symbol) : new (w.map .kept) = w := by
  induction w with
  | nil => rfl
  | cons s w ih => simp [ih]

theorem Passes.repair (s : State) {m : Missing} {k : Kind} (h : m.kind? = some k) :
    Passes s (s.repair m) [.behind k] [⟨s.passed, m⟩] :=
  ⟨rfl, rfl, rfl, .behind _ h⟩

end Grammar

end ShaderRepair

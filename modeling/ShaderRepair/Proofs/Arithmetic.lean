import Mathlib.Data.Multiset.MapFold
import ShaderRepair.Proofs.Resolution

/-!
# The type of an arithmetic expression

Arithmetic converts both operands to the type that is higher on the ladder of scalars, so the type
of an expression with several operators is found out from its operands alone: it matters neither how
they are grouped nor in which order they stand. This file contains:
- `ValueType.joint`, the type that several types have together;
- `Typing.binary_arithmetic` and its companion, the type of one operation;
- `Grouping`, expressions with arithmetic operators between them, and `Grouping.resolveTypes_joint`,
  which says that such an expression has the joint type of its operands.
-/

namespace ShaderRepair

/-! ## Conversions of numeric types -/

namespace Scalar

/-- A scalar turns into itself, and one that is no `bool` into those of a higher rank. -/
theorem mem_ladder {s s' : Scalar} :
    s' ∈ s.ladder ↔ s' = s ∨ (s ≠ .bool ∧ s.rank ≤ s'.rank) := by
  cases s <;> cases s' <;> decide

theorem rank_injective {s s' : Scalar} (h : s.rank = s'.rank) : s = s' := by
  cases s <;> cases s' <;> first | rfl | cases h

theorem floating?_scalar (f : Floating) : f.scalar.floating? = some f := by
  cases f <;> rfl

theorem scalar_of_floating? {s : Scalar} {f : Floating} (h : s.floating? = some f) :
    f.scalar = s := by
  cases s <;> cases h <;> rfl

end Scalar

namespace Dim

theorem toNat_injective {n m : Dim} (h : n.toNat = m.toNat) : n = m := by
  cases n <;> cases m <;> first | rfl | cases h

theorem toNat_ne_one (n : Dim) : n.toNat ≠ 1 := by
  cases n <;> decide

end Dim

namespace ValueType

variable {a b t u : ValueType}

/-- The scalars of numeric types are all but `bool`. -/
theorem isNumeric_iff : t.isNumeric = true ↔ ∃ s : Scalar, t.base = .scalar s ∧ s ≠ .bool := by
  unfold isNumeric isInteger isFloating
  cases t.base with
  | error => simp
  | void => simp
  | scalar s => cases s <;> simp

theorem isError_of_isNumeric (h : t.isNumeric = true) : t.isError = false := by
  cases t <;> first | rfl | cases h

/-- Changing the base keeps the shape. -/
theorem withBase_spec {c : Base} (h : t.withBase c ≠ .error) :
    (t.withBase c).base = c ∧ (t.withBase c).shape = t.shape := by
  cases t with
  | error => cases c <;> exact absurd rfl h
  | void => cases c <;> first | exact ⟨rfl, rfl⟩ | exact absurd rfl h
  | scalar s => cases c <;> first | exact ⟨rfl, rfl⟩ | exact absurd rfl h
  | vector s n => cases c <;> first | exact ⟨rfl, rfl⟩ | exact absurd rfl h
  | matrix f n m =>
    cases c with
    | error => exact absurd rfl h
    | void => exact absurd rfl h
    | scalar s =>
      cases hf : s.floating? with
      | none => simp [withBase, hf] at h
      | some g =>
        simp only [withBase, hf]
        exact ⟨congrArg Base.scalar (Scalar.scalar_of_floating? hf), rfl⟩

/-- A numeric type is its shape over its base. -/
theorem withBase_base (ha : a.isNumeric = true) (hb : b.isNumeric = true)
    (h : a.shape = b.shape) : a.withBase b.base = b := by
  -- Scalars, vectors and matrices have shapes of different lengths, so both types are of one sort.
  cases a with
  | error => cases ha
  | void => cases ha
  | scalar s =>
    cases b with
    | error => cases hb
    | void => cases hb
    | scalar s' => rfl
    | vector s' m => exact absurd (List.cons.inj h).1.symm m.toNat_ne_one
    | matrix g m m' => simp [shape] at h
  | vector s n =>
    cases b with
    | error => cases hb
    | void => cases hb
    | scalar s' => exact absurd (List.cons.inj h).1 n.toNat_ne_one
    | vector s' m =>
      obtain rfl : n = m := Dim.toNat_injective (List.cons.inj h).1
      rfl
    | matrix g m m' => simp [shape] at h
  | matrix f n n' =>
    cases b with
    | error => cases hb
    | void => cases hb
    | scalar s' => simp [shape] at h
    | vector s' m => simp [shape] at h
    | matrix g m m' =>
      obtain ⟨hn, hmore⟩ := List.cons.inj h
      obtain rfl : n = m := Dim.toNat_injective hn
      obtain rfl : n' = m' := Dim.toNat_injective (List.cons.inj hmore).1
      simp [withBase, base, Scalar.floating?_scalar]

/-- Numeric types of one shape are told apart by their ranks. -/
theorem eq_of_rank (ht : t.isNumeric = true) (hu : u.isNumeric = true) (h : t.shape = u.shape)
    (hrank : t.rank = u.rank) : t = u := by
  obtain ⟨s, hs, -⟩ := isNumeric_iff.1 ht
  obtain ⟨s', hs', -⟩ := isNumeric_iff.1 hu
  rw [rank, rank, hs, hs'] at hrank
  have hbase : t.base = u.base := by
    rw [hs, hs', Scalar.rank_injective (Int.ofNat_inj.1 hrank)]
  rw [← withBase_base ht hu h, ← hbase, withBase_base ht ht rfl]

/-- What a type turns into by itself has its shape, and is numeric if the type is. -/
theorem spec_of_implicitlyConvertible (h : a.implicitlyConvertible b = true) :
    a.isNumeric = b.isNumeric ∧ a.shape = b.shape := by
  rw [implicitlyConvertible, Bool.and_eq_true, List.contains_iff_mem, implicitConversions,
    List.mem_filter, List.mem_map] at h
  obtain ⟨-, ⟨c, hc, rfl⟩, hvalid⟩ := h
  have hne : a.withBase c ≠ .error := by simpa [isError] using hvalid
  obtain ⟨hbase, hshape⟩ := withBase_spec hne
  refine ⟨?_, hshape.symm⟩
  rw [Bool.eq_iff_iff, isNumeric_iff, isNumeric_iff, hbase]
  cases ha : a.base with
  | error =>
    rw [ha] at hc
    cases hc
  | void =>
    rw [ha] at hc
    simp [Base.ladder] at hc
    simp [hc]
  | scalar s =>
    rw [ha] at hc
    obtain ⟨s', hs', rfl⟩ := List.mem_map.1 hc
    rcases Scalar.mem_ladder.1 hs' with rfl | ⟨hs, hle⟩
    · rfl
    · have hs' : s' ≠ .bool := by
        rintro rfl
        cases s <;> first | exact hs rfl | simp [Scalar.rank] at hle
      simp [hs, hs']

/-- A numeric type turns into those of its shape that have no lower rank. -/
theorem implicitlyConvertible_of_rank (ha : a.isNumeric = true) (hb : b.isNumeric = true)
    (h : a.shape = b.shape) (hrank : a.rank ≤ b.rank) : a.implicitlyConvertible b = true := by
  obtain ⟨s, hs, hne⟩ := isNumeric_iff.1 ha
  obtain ⟨s', hs', -⟩ := isNumeric_iff.1 hb
  rw [rank, rank, hs, hs'] at hrank
  have hladder : b.base ∈ a.base.ladder := by
    rw [hs, hs']
    exact List.mem_map_of_mem (Scalar.mem_ladder.2 (.inr ⟨hne, Int.ofNat_le.1 hrank⟩))
  have hmem : b ∈ a.implicitConversions := by
    rw [implicitConversions, List.mem_filter, List.mem_map]
    exact ⟨⟨b.base, hladder, withBase_base ha hb h⟩, by simp [isError_of_isNumeric hb]⟩
  simp [implicitlyConvertible, isError_of_isNumeric ha, isError_of_isNumeric hb, hmem]

end ValueType

/-! ## One operation -/

namespace Typing

open ValueType

variable {a b : ValueType}

/-- What two types have in common is one of them, if there is anything. -/
theorem common_cases (a b : ValueType) :
    a.common b = .error ∨
      (a.common b = a ∧ b.implicitlyConvertible a = true) ∨
        (a.common b = b ∧ a.implicitlyConvertible b = true) := by
  unfold common
  split
  · exact .inl rfl
  by_cases hrank : a.rank > b.rank
  · simp only [if_pos hrank]
    split
    · next h => exact .inr (.inl ⟨rfl, h⟩)
    · exact .inl rfl
  · simp only [if_neg hrank]
    split
    · next h => exact .inr (.inr ⟨rfl, h⟩)
    · exact .inl rfl

/-- Numeric operands of one shape have the type of the higher rank. -/
theorem binary_arithmetic (ha : a.isNumeric = true) (hb : b.isNumeric = true)
    (h : a.shape = b.shape) :
    binary .arithmetic a b = if a.rank > b.rank then a else b := by
  have hcommon : a.common b = if a.rank > b.rank then a else b := by
    have herror : ¬(a.isError || b.isError) = true := by
      simp [isError_of_isNumeric ha, isError_of_isNumeric hb]
    rw [common, if_neg herror]
    by_cases hrank : a.rank > b.rank
    · have hconv := implicitlyConvertible_of_rank hb ha h.symm (Int.le_of_lt hrank)
      simp only [if_pos hrank, if_pos hconv]
    · have hconv := implicitlyConvertible_of_rank ha hb h (Int.not_lt.1 hrank)
      simp only [if_neg hrank, if_pos hconv]
  rw [binary, provided, hcommon]
  by_cases hrank : a.rank > b.rank
  · rw [if_pos hrank, if_pos ha]
  · rw [if_neg hrank, if_pos hb]

/-- All other operands have no type together. -/
theorem binary_arithmetic_eq_error
    (h : ¬(a.isNumeric = true ∧ b.isNumeric = true ∧ a.shape = b.shape)) :
    binary .arithmetic a b = .error := by
  rw [binary, provided]
  split
  swap
  · rfl
  next hnumeric =>
  refine absurd ?_ h
  rcases common_cases a b with hnone | ⟨heq, hconv⟩ | ⟨heq, hconv⟩
  · rw [hnone] at hnumeric
    cases hnumeric
  · rw [heq] at hnumeric
    obtain ⟨hsame, hshape⟩ := spec_of_implicitlyConvertible hconv
    exact ⟨hnumeric, hsame.trans hnumeric, hshape.symm⟩
  · rw [heq] at hnumeric
    obtain ⟨hsame, hshape⟩ := spec_of_implicitlyConvertible hconv
    exact ⟨hsame.trans hnumeric, hnumeric, hshape⟩

/-- An operation with no numeric type has none. -/
theorem binary_eq_error (h : (binary .arithmetic a b).isNumeric = false) :
    binary .arithmetic a b = .error := by
  rw [binary, provided] at h ⊢
  split at h
  · next hnumeric =>
    rw [hnumeric] at h
    cases h
  · next hnumeric => exact if_neg hnumeric

end Typing

/-! ## Several types -/

namespace ValueType

variable {ts us : Multiset ValueType} {a b t : ValueType}

/-- The types are numeric and of one shape. -/
def Uniform (ts : Multiset ValueType) : Prop :=
  (∀ t ∈ ts, t.isNumeric = true) ∧ ∀ t ∈ ts, ∀ u ∈ ts, t.shape = u.shape

/-- None of the types has a higher rank than this one of them. -/
def Highest (ts : Multiset ValueType) (t : ValueType) : Prop :=
  t ∈ ts ∧ ∀ u ∈ ts, u.rank ≤ t.rank

instance : DecidablePred Uniform :=
  fun ts => inferInstanceAs (Decidable ((∀ t ∈ ts, _) ∧ ∀ t ∈ ts, ∀ u ∈ ts, _))

instance (ts : Multiset ValueType) : DecidablePred (Highest ts) :=
  fun t => inferInstanceAs (Decidable (t ∈ ts ∧ ∀ u ∈ ts, _))

/-- The type that numbers of these types have together: the shape of all over the highest-ranked
scalar among them. If they are not numeric, or of different shapes, there is none. -/
def joint (ts : Multiset ValueType) : ValueType :=
  if Uniform ts then (values.find? fun t => Highest ts t).getD .error else .error

theorem mem_values (h : t.isNumeric = true) : t ∈ values := by
  cases t with
  | error => cases h
  | void => cases h
  | scalar s => cases s <;> decide
  | vector s n => cases s <;> cases n <;> decide
  | matrix f n m => cases f <;> cases n <;> cases m <;> decide

theorem Highest.unique (ht : Highest ts t) (ha : Highest ts a) (hts : Uniform ts) : t = a :=
  eq_of_rank (hts.1 t ht.1) (hts.1 a ha.1) (hts.2 t ht.1 a ha.1)
    (Int.le_antisymm (ha.2 t ht.1) (ht.2 a ha.1))

theorem joint_eq_of_highest (hts : Uniform ts) (ht : Highest ts t) : joint ts = t := by
  rw [joint, if_pos hts]
  cases hfind : values.find? fun t => Highest ts t with
  | none =>
    have hnone := List.find?_eq_none.1 hfind t (mem_values (hts.1 t ht.1))
    exact absurd (decide_eq_true ht) hnone
  | some a =>
    have ha : Highest ts a := by simpa using List.find?_some hfind
    exact ha.unique ht hts

theorem uniform_add : Uniform (ts + us) ↔
    Uniform ts ∧ Uniform us ∧ ∀ t ∈ ts, ∀ u ∈ us, t.shape = u.shape := by
  simp only [Uniform, Multiset.mem_add]
  constructor
  · rintro ⟨hnumeric, hshape⟩
    exact ⟨⟨fun t ht => hnumeric t (.inl ht), fun t ht u hu => hshape t (.inl ht) u (.inl hu)⟩,
      ⟨fun t ht => hnumeric t (.inr ht), fun t ht u hu => hshape t (.inr ht) u (.inr hu)⟩,
      fun t ht u hu => hshape t (.inl ht) u (.inr hu)⟩
  · rintro ⟨⟨hnumeric, hshape⟩, ⟨hnumeric', hshape'⟩, hboth⟩
    refine ⟨fun t ht => ht.elim (hnumeric t) (hnumeric' t), ?_⟩
    rintro t (ht | ht) u (hu | hu)
    · exact hshape t ht u hu
    · exact hboth t ht u hu
    · exact (hboth u hu t ht).symm
    · exact hshape' t ht u hu

/-- The type `t` of an expression settles what its operands of the types `ts` are together. -/
def Settles (ts : Multiset ValueType) (t : ValueType) : Prop :=
  Uniform ts ∧ Highest ts t ∨ ¬Uniform ts ∧ t.isNumeric = false

theorem settles_singleton (t : ValueType) : Settles {t} t := by
  by_cases h : t.isNumeric = true
  · refine .inl ⟨⟨?_, ?_⟩, Multiset.mem_singleton_self t, ?_⟩
    · simpa using h
    · simp
    · simp
  · exact .inr ⟨fun hall => h (hall.1 t (Multiset.mem_singleton_self t)), Bool.eq_false_iff.2 h⟩

/-- One operation more. -/
theorem Settles.operation (h : Settles ts a) (h' : Settles us b) :
    Settles (ts + us) (Typing.binary .arithmetic a b) := by
  -- One of the operands has no type, or their shapes differ, or the higher rank decides.
  rcases h with ⟨hts, ha⟩ | ⟨hts, ha⟩
  swap
  · refine .inr ⟨fun hall => hts (uniform_add.1 hall).1, ?_⟩
    rw [Typing.binary_arithmetic_eq_error fun hall => by simp [ha] at hall]
    rfl
  rcases h' with ⟨hus, hb⟩ | ⟨hus, hb⟩
  swap
  · refine .inr ⟨fun hall => hus (uniform_add.1 hall).2.1, ?_⟩
    rw [Typing.binary_arithmetic_eq_error fun hall => by simp [hb] at hall]
    rfl
  by_cases hshape : a.shape = b.shape
  swap
  · refine .inr ⟨fun hall => hshape ((uniform_add.1 hall).2.2 a ha.1 b hb.1), ?_⟩
    rw [Typing.binary_arithmetic_eq_error fun hall => hshape hall.2.2]
    rfl
  have hboth : ∀ t ∈ ts, ∀ u ∈ us, t.shape = u.shape := fun t ht u hu =>
    (hts.2 t ht a ha.1).trans (hshape.trans (hus.2 b hb.1 u hu))
  refine .inl ⟨uniform_add.2 ⟨hts, hus, hboth⟩, ?_⟩
  rw [Typing.binary_arithmetic (hts.1 a ha.1) (hus.1 b hb.1) hshape]
  split
  · next hrank =>
    refine ⟨Multiset.mem_add.2 (.inl ha.1), fun u hu => ?_⟩
    rcases Multiset.mem_add.1 hu with hu | hu
    · exact ha.2 u hu
    · exact Int.le_trans (hb.2 u hu) (Int.le_of_lt hrank)
  · next hrank =>
    refine ⟨Multiset.mem_add.2 (.inr hb.1), fun u hu => ?_⟩
    rcases Multiset.mem_add.1 hu with hu | hu
    · exact Int.le_trans (ha.2 u hu) (Int.not_lt.1 hrank)
    · exact hb.2 u hu

end ValueType

/-! ## Groupings -/

/-- Expressions of any form with arithmetic operators between them. -/
inductive Grouping (α : Type) where
  | operand (e : Expr α)
  | operation (note : α) (op : Text) (left right : Grouping α)

namespace Grouping

open ValueType

variable {α : Type}

/-- The expression as a whole. -/
def expr : Grouping α → Expr α
  | operand e => e
  | operation a op l r => .binary a .arithmetic op l.expr r.expr

/-- The operands from left to right. -/
def operands : Grouping α → List (Expr α)
  | operand e => [e]
  | operation _ _ l r => l.operands ++ r.operands

/-- The type of a grouping settles what its operands are together, by induction on the operators. -/
theorem settles (g : Grouping α) :
    Settles (g.operands.map Expr.type : List ValueType) g.expr.type := by
  induction g with
  | operand e => exact settles_singleton e.type
  | operation a op l r ihl ihr =>
    have h := ihl.operation ihr
    rwa [Multiset.coe_add, ← List.map_append] at h

/-- With an operator in it a grouping has the joint type of its operands. -/
theorem type_eq_joint {g : Grouping α} (hg : ∀ e, g ≠ operand e) :
    g.expr.type = joint (g.operands.map Expr.type : List ValueType) := by
  rcases g.settles with ⟨hts, ht⟩ | ⟨hts, ht⟩
  · exact (joint_eq_of_highest hts ht).symm
  · rw [joint, if_neg hts]
    cases g with
    | operand e => exact absurd rfl (hg e)
    | operation a op l r => exact Typing.binary_eq_error ht

theorem mem_postorder_of_mem_operands {g : Grouping α} {e : Expr α} (h : e ∈ g.operands) :
    e ∈ g.expr.postorder := by
  induction g with
  | operand e' =>
    rw [List.mem_singleton.1 h]
    exact e'.mem_postorder_self
  | operation a op l r ihl ihr =>
    rw [expr, Expr.postorder, List.mem_append, List.mem_append]
    exact .inl ((List.mem_append.1 h).imp ihl ihr)

/-- In the table of an expression with arithmetic operators the entry of the whole depends on the
entries of the operands alone, and not on how these are grouped or ordered. Where they are numeric
and of one shape it has that shape, over the highest-ranked scalar among them; in all other cases it
is `error`. -/
theorem resolveTypes_joint {g : Grouping (Nat × α)} (hg : ∀ e, g ≠ operand e)
    (hnumbers : (g.expr.postorder.map Expr.handle).Nodup) :
    ∃ ts : List ValueType,
      (g.operands.map fun e => g.expr.resolveTypes.lookup e.handle) = ts.map some ∧
      g.expr.resolveTypes.lookup g.expr.handle = some (joint ts) ∧
      (∀ shape, (∀ t ∈ ts, t.isNumeric = true ∧ t.shape = shape) →
        (joint ts).shape = shape ∧
          ∃ top ∈ ts, (joint ts).base = top.base ∧ ∀ t ∈ ts, t.rank ≤ top.rank) ∧
      ((¬∃ shape, ∀ t ∈ ts, t.isNumeric = true ∧ t.shape = shape) → joint ts = .error) := by
  have hfresh : TypeTable.Fresh [] g.expr.postorder := .nil hnumbers
  refine ⟨g.operands.map Expr.type, ?_, ?_, ?_, ?_⟩
  · rw [Expr.resolveTypes_eq hnumbers, List.map_map]
    exact List.map_congr_left fun e he => hfresh.lookup_note (mem_postorder_of_mem_operands he)
  · rw [Expr.resolveTypes_eq hnumbers, hfresh.lookup_note g.expr.mem_postorder_self,
      type_eq_joint hg]
  · intro shape hall
    have huniform : Uniform (g.operands.map Expr.type : List ValueType) :=
      ⟨fun t ht => (hall t ht).1, fun t ht u hu => (hall t ht).2.trans (hall u hu).2.symm⟩
    obtain ⟨-, htop⟩ | ⟨hno, -⟩ := g.settles
    · rw [joint_eq_of_highest huniform htop]
      exact ⟨(hall _ htop.1).2, _, htop.1, rfl, htop.2⟩
    · exact absurd huniform hno
  · intro hno
    refine if_neg fun huniform => hno ⟨g.expr.type.shape, fun t ht => ?_⟩
    obtain ⟨-, htop⟩ | ⟨hnot, -⟩ := g.settles
    · exact ⟨huniform.1 t ht, huniform.2 t ht _ htop.1⟩
    · exact absurd huniform hnot

/-- The vectors of `(ivec2() + uvec2()) * dvec2()`. -/
theorem resolveTypes_joint_vectors :
    ∃ g : Grouping (Nat × Unit), (∀ e, g ≠ operand e) ∧
      (g.expr.postorder.map Expr.handle).Nodup ∧ ∃ ts,
      ts = [.vector .int .two, .vector .uint .two, .vector .double .two] ∧
      (g.operands.map fun e => g.expr.resolveTypes.lookup e.handle) = ts.map some ∧
      g.expr.resolveTypes.lookup g.expr.handle = some (.vector .double .two) := by
  let vector (n : Nat) (name : String) : Grouping (Nat × Unit) :=
    operand (.call (n + 1, ()) (.identifier (n, ()) (Text.ascii name)) [])
  let g : Grouping (Nat × Unit) := operation (7, ()) (Text.ascii "*")
    (operation (4, ()) (Text.ascii "+") (vector 0 "ivec2") (vector 2 "uvec2")) (vector 5 "dvec2")
  have hg : ∀ e, g ≠ operand e := nofun
  have hnumbers : (g.expr.postorder.map Expr.handle).Nodup := by decide
  have hentries : (g.operands.map fun e => g.expr.resolveTypes.lookup e.handle) =
      [ValueType.vector .int .two, .vector .uint .two, .vector .double .two].map some := by
    decide +kernel
  obtain ⟨ts, hts, hroot, -⟩ := resolveTypes_joint hg hnumbers
  obtain rfl := List.map_injective_iff.2 (Option.some_injective _) (hts.symm.trans hentries)
  have hjoint : joint ([.vector .int .two, .vector .uint .two, .vector .double .two] :
      List ValueType) = .vector .double .two := by
    decide +kernel
  exact ⟨g, hg, hnumbers, _, rfl, hentries, hjoint ▸ hroot⟩

end Grouping

end ShaderRepair

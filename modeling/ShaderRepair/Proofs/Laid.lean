import ShaderRepair.Grammar.Rule
import ShaderRepair.Proofs.Passage

/-!
# How passages are laid out

An extent goes from one symbol to another. Where passages are laid out between two symbols, their
extents follow each other, and inside each of them extents follow each other again. This file
contains:
- `Row`, extents that follow each other;
- `Laid`, passages with all extents in them;
- what laying out does to an expression or a span around passages.
-/

namespace ShaderRepair

/-! ## Rows of extents -/

/-- Extents that follow each other from the symbol `start` on, before the symbol `stop`. -/
def Row : Nat → List (Extent Nat) → Nat → Prop
  | start, [], stop => start ≤ stop
  | start, x :: more, stop => start ≤ x.first ∧ x.first ≤ x.last ∧ Row (x.last + 1) more stop

namespace Row

variable {start stop : Nat} {xs ys : List (Extent Nat)}

theorem le (h : Row start xs stop) : start ≤ stop := by
  induction xs generalizing start with
  | nil => exact h
  | cons x xs ih =>
    obtain ⟨hfirst, hlast, hmore⟩ := h
    have := ih hmore
    omega

theorem lt (h : Row start xs stop) (hxs : xs ≠ []) : start < stop := by
  cases xs with
  | nil => exact absurd rfl hxs
  | cons x xs =>
    obtain ⟨hfirst, hlast, hmore⟩ := h
    have := hmore.le
    omega

theorem mono {start' stop' : Nat} (h : Row start xs stop) (hstart : start' ≤ start)
    (hstop : stop ≤ stop') : Row start' xs stop' := by
  induction xs generalizing start start' with
  | nil => exact Nat.le_trans hstart (Nat.le_trans h hstop)
  | cons x xs ih => exact ⟨Nat.le_trans hstart h.1, h.2.1, ih h.2.2 (Nat.le_refl _)⟩

theorem append : Row start (xs ++ ys) stop ↔ ∃ mid, Row start xs mid ∧ Row mid ys stop := by
  induction xs generalizing start with
  | nil =>
    constructor
    · exact fun h => ⟨start, Nat.le_refl _, h⟩
    · exact fun ⟨mid, hle, h⟩ => h.mono hle (Nat.le_refl _)
  | cons x xs ih =>
    simp only [List.cons_append, Row, ih]
    constructor
    · exact fun ⟨hfirst, hlast, mid, hxs, hys⟩ => ⟨mid, ⟨hfirst, hlast, hxs⟩, hys⟩
    · exact fun ⟨mid, ⟨hfirst, hlast, hxs⟩, hys⟩ => ⟨hfirst, hlast, mid, hxs, hys⟩

/-- Every extent of a row is in its bounds. -/
theorem bounds (h : Row start xs stop) {x : Extent Nat} (hx : x ∈ xs) :
    start ≤ x.first ∧ x.first ≤ x.last ∧ x.last < stop := by
  induction xs generalizing start with
  | nil => cases hx
  | cons y ys ih =>
    obtain ⟨hfirst, hlast, hmore⟩ := h
    cases hx with
    | head => exact ⟨hfirst, hlast, hmore.le⟩
    | tail _ hx =>
      obtain ⟨hle, hrest⟩ := ih hmore hx
      exact ⟨by omega, hrest⟩

/-- Each extent of a row ends before the later ones. -/
theorem pairwise (h : Row start xs stop) : xs.Pairwise fun x y => x.last < y.first := by
  induction xs generalizing start with
  | nil => exact List.Pairwise.nil
  | cons x xs ih => exact List.pairwise_cons.2 ⟨fun y hy => (h.2.2.bounds hy).1, ih h.2.2⟩

end Row

/-! ## Passages in place -/

namespace Grammar

/-- What has been read of a tree whose parts are marked by index. -/
abbrev Content := List (Passage Nat Tree)

/-- The extents directly inside an extent are in it, one after the other. -/
def Nests (f : Extent Nat × List (Extent Nat)) : Prop :=
  Row f.1.first f.2 (f.1.last + 1)

open Passage

/-- Passages from the symbol `start` on, before the symbol `stop`. -/
structure Laid (start : Nat) (c : Content) (stop : Nat) : Prop where
  row : Row start (extents c) stop
  nested : ∀ f ∈ familiesAll c, Nests f

namespace Laid

variable {start stop : Nat} {c c' : Content} {e : Tree}

theorem nil (h : start ≤ stop) : Laid start [] stop :=
  ⟨h, fun _ hf => nomatch hf⟩

theorem le (h : Laid start c stop) : start ≤ stop :=
  h.row.le

theorem mono {start' stop' : Nat} (h : Laid start c stop) (hstart : start' ≤ start)
    (hstop : stop ≤ stop') : Laid start' c stop' :=
  ⟨h.row.mono hstart hstop, h.nested⟩

theorem append : Laid start (c ++ c') stop ↔ ∃ mid, Laid start c mid ∧ Laid mid c' stop := by
  constructor
  · rintro ⟨hrow, hnested⟩
    rw [extents_append] at hrow
    obtain ⟨mid, hc, hc'⟩ := Row.append.1 hrow
    rw [familiesAll_append] at hnested
    exact ⟨mid, ⟨hc, fun f hf => hnested f (List.mem_append_left _ hf)⟩,
      ⟨hc', fun f hf => hnested f (List.mem_append_right _ hf)⟩⟩
  · rintro ⟨mid, hc, hc'⟩
    refine ⟨?_, ?_⟩
    · rw [extents_append]
      exact Row.append.2 ⟨mid, hc.row, hc'.row⟩
    · intro f hf
      rw [familiesAll_append] at hf
      exact (List.mem_append.1 hf).elim (hc.nested f) (hc'.nested f)

/-- Atoms take no place. -/
theorem atoms (as : List Atom) (h : Laid start c stop) :
    Laid start (c ++ as.map .atom) stop := by
  refine append.2 ⟨stop, h, ?_⟩
  induction as with
  | nil => exact .nil (Nat.le_refl _)
  | cons a as ih => exact ⟨ih.row, ih.nested⟩

/-- A span around passages. -/
theorem span (h : Laid start c stop) (hlt : start < stop) :
    Laid start [.span ⟨start, stop - 1⟩ c] stop := by
  have hstop : stop - 1 + 1 = stop := by omega
  refine ⟨?_, ?_⟩
  · change start ≤ start ∧ start ≤ stop - 1 ∧ stop - 1 + 1 ≤ stop
    omega
  intro f hf
  simp only [familiesAll_cons, families_span, familiesAll_nil, List.append_nil,
    List.mem_cons] at hf
  obtain rfl | hf := hf
  · unfold Nests
    simp only [hstop]
    exact h.row
  · exact h.nested f hf

/-- An expression made of its parts. -/
theorem expr (h : Laid start e.parts stop) (hlt : start < stop)
    (hnote : e.note = ⟨start, stop - 1⟩) : Laid start [.expr e] stop := by
  have hstop : stop - 1 + 1 = stop := by omega
  refine ⟨?_, ?_⟩
  · simp only [extents_expr, extents_nil, hnote, Row]
    omega
  · intro f hf
    simp only [familiesAll_cons, families_expr, familiesAll_nil, List.append_nil,
      Expr.postorder_eq e, List.map_append, List.map_cons, List.map_nil, List.mem_append,
      List.mem_singleton] at hf
    obtain hf | rfl := hf
    · rw [← Expr.familiesAll_parts] at hf
      exact h.nested f hf
    · simp only [Nests, family, hnote, hstop, ← Expr.extents_parts]
      exact h.row

/-- Parentheses around an expression. -/
theorem setNote (h : Laid start [.expr e] stop) :
    Laid start [.expr (e.setNote ⟨start, stop - 1⟩)] stop := by
  obtain ⟨⟨hfirst, hlast, hstop⟩, hnested⟩ := h
  change e.note.last + 1 ≤ stop at hstop
  refine Laid.expr (e := e.setNote ⟨start, stop - 1⟩) ?_ (by omega) (by cases e <;> rfl)
  have hparts : (e.setNote ⟨start, stop - 1⟩).parts = (e.parts : Content) := by
    cases e with
    | unary a op side e => cases side <;> rfl
    | _ => rfl
  rw [hparts]
  refine ⟨?_, fun f hf => hnested f ?_⟩
  · have hself : Nests (family e) :=
      hnested _ (by simpa using ⟨e, Expr.mem_postorder_self e, rfl⟩)
    rw [Expr.extents_parts]
    exact hself.mono hfirst hstop
  · rw [Expr.familiesAll_parts] at hf
    simp only [familiesAll_cons, families_expr, familiesAll_nil, List.append_nil,
      Expr.postorder_eq e, List.map_append]
    exact List.mem_append_left _ hf

/-- What begins with an expression may as well begin there. -/
theorem tighten (h : Laid start (.expr e :: c) stop) :
    start ≤ e.note.first ∧ Laid e.note.first (.expr e :: c) stop :=
  ⟨h.row.1, ⟨⟨Nat.le_refl _, h.row.2⟩, h.nested⟩⟩

end Laid

end Grammar

end ShaderRepair

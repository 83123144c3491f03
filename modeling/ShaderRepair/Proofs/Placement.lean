import Mathlib.Data.List.Flatten
import ShaderRepair.Proofs.Dispatch
import ShaderRepair.Proofs.Insertions

/-!
# Where edits stand

An edit stands at an end of the token it is anchored to, and edits are found from left to right,
except that a conversion opens before the edits inside its initializer. This file contains:
- `Edit.opens` and `Edit.opensConversion`, told from the text of an edit;
- `Put.rank`, the order of the places at which things are put in, and `Noted.ranked`, which says
  that a run goes up in it;
- `Edit.Placed`, an edit at an end of a significant token, and `Document.edits_placed`.
-/

namespace ShaderRepair

open Lexer Grammar Grammar.Piece

/-! ## Edits that open something -/

namespace Edit

/-- Whether the text of an edit ends with an opening parenthesis. -/
def opens (e : Edit) : Bool :=
  e.text.getLast? = some (Number.byte '(')

/-- Whether an edit opens the call of a conversion: there is a name before the parenthesis. -/
def opensConversion (e : Edit) : Bool :=
  e.opens && e.text ≠ Text.ascii "("

end Edit

/-! ## The order of places -/

namespace Grammar

namespace Put

/-- Before which symbol something stands; an opening comes after the marks at its boundary. -/
def rank : Nat × Put → Nat
  | (m, .behind _) => 2 * m
  | (m, .before _) => 2 * m + 1

/-- Whether something stands before a symbol. -/
def isOpening : Put → Bool
  | .behind _ => false
  | .before _ => true

/-- Whether something is the opening of a call. -/
def isCall : Put → Bool
  | .before (some _) => true
  | _ => false

end Put

theorem Proper.rank_le {n : Nat} {w : List Symbol} {x : Nat × Put} (h : Proper n w x) :
    2 * n ≤ Put.rank x ∧ Put.rank x ≤ 2 * (n + w.length) := by
  match x, h with
  | (m, .behind k), ⟨hle, hge, _⟩ =>
    simp only [Put.rank]
    omega
  | (m, .before none), ⟨hle, hlt⟩ =>
    simp only [Put.rank]
    omega
  | (m, .before (some T)), ⟨_, i, sign, hm, hi, _⟩ =>
    simp only [Put.rank]
    omega

/-- What repairs put in, without the openings of calls. -/
def plainPuts (R : List Repair) : List (Nat × Put) :=
  (R.flatMap Repair.puts).filter fun x => !x.2.isCall

theorem plainPuts_append (R R' : List Repair) :
    plainPuts (R ++ R') = plainPuts R ++ plainPuts R' := by
  rw [plainPuts, List.flatMap_append, List.filter_append]
  rfl

theorem plainPuts_of_kind? {m : Missing} {k : Kind} (h : m.kind? = some k) (n : Nat) :
    plainPuts [⟨n, m⟩] = [(n, .behind k)] := by
  rw [plainPuts, List.flatMap_singleton, Repair.puts_of_kind? h]
  rfl

theorem plainPuts_subset {R : List Repair} : plainPuts R ⊆ R.flatMap Repair.puts :=
  List.filter_subset_self _

/-- A run puts things in from left to right, but for the openings of calls. -/
theorem Noted.ranked {n : Nat} {P : List Piece} {R : List Repair} (h : Noted n P R) :
    (plainPuts R).Pairwise fun x y => Put.rank x ≤ Put.rank y := by
  induction h with
  | nil n => exact List.Pairwise.nil
  | kept n hs => exact List.Pairwise.nil
  | behind n hm =>
    rw [plainPuts_of_kind? hm]
    exact List.pairwise_singleton _ _
  | append h₁ h₂ ih₁ ih₂ =>
    rw [plainPuts_append]
    refine List.pairwise_append.2 ⟨ih₁, ih₂, ?_⟩
    -- What the first run puts in stands at its last symbol or before, the rest there or behind.
    intro x hx y hy
    have hle := (h₁.proper x (plainPuts_subset hx)).rank_le.2
    have hge := (h₂.proper y (plainPuts_subset hy)).rank_le.1
    exact Nat.le_trans hle hge
  | paren h ih =>
    rename_i n s P R
    refine List.pairwise_cons.2 ⟨?_, ih⟩
    intro x hx
    -- The parenthesis was noted before its symbol was passed, so that no mark stands behind it.
    have hmem := plainPuts_subset hx
    have hle := (h.proper x hmem).le.1
    have hne : x.1 ≠ n := by
      intro heq
      have hputs : x.2 ∈ putsAt R (n + 0) := mem_putsAt.2 (heq ▸ hmem)
      rw [h.putsAt_eq 0] at hputs
      cases hputs
    obtain ⟨m, y⟩ := x
    cases y with
    | behind k =>
      simp only [Put.rank] at hle hne ⊢
      omega
    | before type =>
      simp only [Put.rank] at hle hne ⊢
      omega
  | conversion hs hT h ih =>
    rename_i n sign s T P R
    rw [plainPuts_append]
    refine List.pairwise_append.2 ⟨ih, List.pairwise_singleton _ _, ?_⟩
    intro x hx y hy
    rw [List.mem_singleton.1 hy]
    exact (h.proper x (plainPuts_subset hx)).rank_le.2

end Grammar

/-! ## Texts of edits -/

/-- The text of an edit tells what is put in. -/
theorem Grammar.opens_edit {r : Repair} {x : Nat × Put} (hx : x ∈ r.puts) (hvalid : x.2.Valid)
    (stream : Stream) :
    (Put.edit stream x).opens = x.2.isOpening ∧
      (Put.edit stream x).opensConversion = x.2.isCall := by
  obtain ⟨index, missing⟩ := r
  cases missing with
  | conversion T first =>
    rcases List.mem_cons.1 hx with rfl | hx
    · have hopens : (Put.edit stream (first, .before (some T))).opens = true :=
        decide_eq_true List.getLast?_concat
      have hne : T ++ Text.ascii "(" ≠ Text.ascii "(" := by
        intro heq
        exact (first_typeName T (ValueType.mem_names_of_lookup hvalid)).2.1
          (List.append_left_eq_self.1 heq)
      refine ⟨hopens, ?_⟩
      rw [Edit.opensConversion, hopens]
      exact decide_eq_true hne
    · cases List.mem_singleton.1 hx
      exact ⟨rfl, rfl⟩
  | _ =>
    cases List.mem_singleton.1 hx
    exact ⟨rfl, rfl⟩

/-! ## Edits between tokens -/

/-- An edit stands where its anchor ends, or starts if the edit opens something. The anchor is a
significant token, and no token of whatever kind has the edit inside. -/
structure Edit.Placed (source : Text) (e : Edit) : Prop where
  text : e.text ≠ []
  anchor : e.anchor ∈ lex source false
  significant : e.anchor.isSignificant = true
  kind : e.anchor.kind ≠ .endOfInput
  offset : e.offset = if e.opens then e.anchor.start.offset else e.anchor.stop.offset
  nonneg : 0 ≤ e.offset
  le : e.offset ≤ source.length
  outside : ∀ t ∈ lex source true, ¬(t.start.offset < e.offset ∧ e.offset < t.stop.offset)

/-- Edits that are placed point into the source. -/
theorem Edit.Placed.range {source : Text} {es : List Edit} (h : ∀ e ∈ es, e.Placed source) :
    ∀ e ∈ es.map Edit.toInsertion, 0 ≤ e.offset ∧ e.offset ≤ source.length :=
  List.forall_mem_map.2 fun e he => ⟨(h e he).nonneg, (h e he).le⟩

namespace Document

variable {source : Text} {P : List Piece} {R : List Repair}

/-- The token that something stands at. -/
theorem exists_anchor {x : Nat × Put} (hx : Proper 0 (Stream.ofSource source).symbols x)
    (hpos : 0 < x.1) :
    ∃ i, i < (Stream.ofSource source).symbols.length ∧
      (Put.edit (Stream.ofSource source) x).anchor = (Stream.ofSource source).token i ∧
      (Put.edit (Stream.ofSource source) x).offset =
        (if x.2.isOpening then ((Stream.ofSource source).token i).start.offset
          else ((Stream.ofSource source).token i).stop.offset) ∧
      Put.rank x = if x.2.isOpening then 2 * i + 1 else 2 * i + 2 := by
  match x, hx with
  | (m, .behind k), ⟨_, hle, _⟩ =>
    refine ⟨m - 1, ?_, rfl, rfl, ?_⟩
    · simp only at hpos
      omega
    · simp only [Put.rank, Put.isOpening] at hpos ⊢
      simp only [Bool.false_eq_true, if_false]
      omega
  | (m, .before none), ⟨_, hlt⟩ => exact ⟨m, by omega, rfl, rfl, rfl⟩
  | (m, .before (some T)), ⟨_, i, sign, hm, hi, _⟩ => exact ⟨m, by omega, rfl, rfl, rfl⟩

theorem Repairs.placed_edit (h : Repairs source P R) {r : Repair} (hr : r ∈ R) {x : Nat × Put}
    (hx : x ∈ r.puts) : (Put.edit (Stream.ofSource source) x).Placed source := by
  obtain ⟨hproper, hpos⟩ := h.proper (List.mem_flatMap.2 ⟨r, hr, hx⟩)
  have hvalid := Put.valid_of_proper hproper
  obtain ⟨i, hi, hanchor, hoffset, -⟩ := exists_anchor hproper hpos
  obtain ⟨hmem, hseen⟩ := List.mem_filter.1 (List.mem_of_getElem? (Stream.token_ofSource hi))
  obtain ⟨hsignificant, hkind⟩ := Token.isSeen_iff.1 hseen
  -- The edit also stands where some token `y` starts, which may be ignored or the end of input.
  obtain ⟨y, hy, hstart⟩ := exists_start_eq hproper hpos
  constructor
  case text =>
    obtain ⟨b, s, hs, -⟩ := Put.exists_head hvalid
    rw [Put.text_edit, hs]
    exact List.cons_ne_nil _ _
  case anchor =>
    rw [hanchor]
    refine List.mem_filter.2 ⟨hmem, ?_⟩
    rw [Token.isSignificant, Kind.isSignificant, Bool.and_eq_true] at hsignificant
    exact hsignificant.1
  case significant =>
    rw [hanchor]
    exact hsignificant
  case kind =>
    rw [hanchor]
    exact hkind
  case offset =>
    rw [(opens_edit hx hvalid _).1, hanchor]
    exact hoffset
  case nonneg =>
    have hge := (tokens_ordered Position.start source).1 y hy
    rw [hstart]
    exact hge
  case le =>
    have hle := start_le Position.start source y hy
    simp only [Position.start] at hle
    omega
  case outside =>
    intro t ht
    rw [hstart]
    exact not_inside ht hy

/-- The tokens that the grammar sees stand in order. -/
theorem token_ordered {i j : Nat} (hij : i < j)
    (hj : j < (Stream.ofSource source).symbols.length) :
    ((Stream.ofSource source).token i).start.offset <
        ((Stream.ofSource source).token i).stop.offset ∧
      ((Stream.ofSource source).token i).stop.offset ≤
        ((Stream.ofSource source).token j).start.offset := by
  have hpair : ((tokens source).filter Token.isSeen).Pairwise fun t t' =>
      t.start.offset < t.stop.offset ∧ t.stop.offset ≤ t'.start.offset :=
    (tokens_ordered Position.start source).2.filter _
  obtain ⟨hi', hti⟩ := List.getElem?_eq_some_iff.1 (Stream.token_ofSource (Nat.lt_trans hij hj))
  obtain ⟨hj', htj⟩ := List.getElem?_eq_some_iff.1 (Stream.token_ofSource hj)
  rw [← hti, ← htj]
  exact List.pairwise_iff_getElem.1 hpair i j hi' hj' hij

/-- Places of a higher rank have a higher offset. -/
theorem offset_le_of_rank {x y : Nat × Put}
    (hx : Proper 0 (Stream.ofSource source).symbols x) (hxpos : 0 < x.1)
    (hy : Proper 0 (Stream.ofSource source).symbols y) (hypos : 0 < y.1)
    (h : Put.rank x ≤ Put.rank y) :
    (Put.edit (Stream.ofSource source) x).offset ≤
      (Put.edit (Stream.ofSource source) y).offset := by
  obtain ⟨i, hi, -, hxoffset, hxrank⟩ := exists_anchor hx hxpos
  obtain ⟨j, hj, -, hyoffset, hyrank⟩ := exists_anchor hy hypos
  -- Tokens have bytes, so that two places at one token can be told apart by their offsets.
  have hne : ∀ {k}, k < (Stream.ofSource source).symbols.length →
      ((Stream.ofSource source).token k).start.offset <
        ((Stream.ofSource source).token k).stop.offset := by
    intro k hk
    obtain ⟨hmem, hseen⟩ := List.mem_filter.1 (List.mem_of_getElem? (Stream.token_ofSource hk))
    exact start_lt_stop hmem hseen
  have hi' := hne hi
  have hj' := hne hj
  rw [hxoffset, hyoffset]
  rw [hxrank, hyrank] at h
  rcases Nat.lt_trichotomy i j with hij | rfl | hij
  · have hle := token_ordered hij hj
    split <;> split <;> omega
  · -- At one token, an opening comes before a mark.
    cases hx' : x.2.isOpening <;> cases hy' : y.2.isOpening <;>
      simp only [hx', hy', Bool.false_eq_true, if_true, if_false] at h ⊢ <;> omega
  · split at h <;> split at h <;> omega

/-- The edits of a report stand at ends of significant tokens. Those that open no conversion are
found from left to right. -/
theorem edits_placed {o : Options} {report : Report} (h : parse source o = .ok report) :
    (∀ e ∈ report.edits, e.Placed source) ∧
      (report.edits.filter fun e => !e.opensConversion).Pairwise fun e e' =>
        e.offset ≤ e'.offset := by
  obtain ⟨ns, P, R, hreports, hrepairs, -⟩ := parse_retraced (fun _ _ => false) h
  rw [hreports.edits]
  have hchosen : (Repair.chosen (Stream.ofSource source) o R).Sublist R := List.filter_sublist
  have hputs : ∀ x ∈ (Repair.chosen (Stream.ofSource source) o R).flatMap Repair.puts,
      ∃ r ∈ R, x ∈ r.puts := by
    intro x hx
    obtain ⟨r, hr, hx⟩ := List.mem_flatMap.1 hx
    exact ⟨r, hchosen.subset hr, hx⟩
  refine ⟨?_, ?_⟩
  · intro e he
    obtain ⟨x, hx, rfl⟩ := List.mem_map.1 he
    obtain ⟨r, hr, hx⟩ := hputs x hx
    exact hrepairs.placed_edit hr hx
  · rw [List.filter_map, List.pairwise_map]
    have hplain : ((Repair.chosen (Stream.ofSource source) o R).flatMap Repair.puts).filter
        ((fun e => !e.opensConversion) ∘ Put.edit (Stream.ofSource source)) =
          plainPuts (Repair.chosen (Stream.ofSource source) o R) := by
      refine List.filter_congr ?_
      intro x hx
      obtain ⟨r, hr, hx⟩ := hputs x hx
      obtain ⟨hproper, -⟩ := hrepairs.proper (List.mem_flatMap.2 ⟨r, hr, hx⟩)
      rw [Function.comp_apply, (opens_edit hx (Put.valid_of_proper hproper) _).2]
    rw [hplain]
    -- The repairs that the options leave out do not change the order of the others.
    have hranked := hrepairs.noted.ranked.sublist ((hchosen.flatMap Repair.puts).filter _)
    refine hranked.imp_of_mem ?_
    intro x y hx hy hrank
    have hmem : ∀ {z}, z ∈ plainPuts (Repair.chosen (Stream.ofSource source) o R) →
        Proper 0 (Stream.ofSource source).symbols z ∧ 0 < z.1 := by
      intro z hz
      obtain ⟨r, hr, hz⟩ := hputs z (plainPuts_subset hz)
      exact hrepairs.proper (List.mem_flatMap.2 ⟨r, hr, hz⟩)
    exact offset_le_of_rank (hmem hx).1 (hmem hx).2 (hmem hy).1 (hmem hy).2 hrank

/-- The conversion is opened before the comma and found behind it. -/
theorem edits_placed_nested :
    ∃ report, parse (Text.ascii "if a b\nint y=1.0+float(1 2)") Options.all = .ok report ∧
      report.edits.map (fun e => e.offset) = [3, 4, 6, 24, 13, 27, 27] ∧
      (∀ e ∈ report.edits, e.Placed (Text.ascii "if a b\nint y=1.0+float(1 2)")) ∧
      (report.edits.filter fun e => !e.opensConversion).Pairwise fun e e' =>
        e.offset ≤ e'.offset := by
  have hedits : (parse (Text.ascii "if a b\nint y=1.0+float(1 2)") Options.all).toOption.map
      (fun report => report.edits.map fun e => e.offset) = some [3, 4, 6, 24, 13, 27, 27] := by
    rw [parse, Lexer.lex_eq_scan]
    decide +kernel
  obtain ⟨report, hreport, hlist⟩ := exists_ok_of_map hedits
  exact ⟨report, hreport, hlist, edits_placed hreport⟩

end Document

end ShaderRepair

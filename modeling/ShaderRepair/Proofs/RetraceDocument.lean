import ShaderRepair.Proofs.Boundary
import ShaderRepair.Proofs.RetraceSession

/-!
# Retracing a document

What a successful parse of a source leaves behind, in terms of the pieces that its session passed.
This file contains:
- `Repair.chosen`, the repairs that the options ask for, and the edits they become;
- `Document.Reports` and `Document.Repairs`, a report with its items, pieces and repairs;
- `Document.parse_retraced`, which finds these and retraces them on any source that has the new
  symbols.
-/

namespace ShaderRepair

open Grammar Grammar.Piece

/-! ## Edits of repairs -/

/-- The repairs that the options ask for. -/
def Grammar.Repair.chosen (stream : Stream) (o : Options) (R : List Repair) : List Repair :=
  R.filter fun r => o.enables (Correction.ofRepair stream r).category

theorem Grammar.Repair.chosen_all (stream : Stream) (R : List Repair) :
    Repair.chosen stream Options.all R = R := by
  refine List.filter_eq_self.2 ?_
  intro r _
  cases (Correction.ofRepair stream r).category <;> rfl

theorem Correction.enabled_map (stream : Stream) (o : Options) (R : List Repair) :
    enabled o (R.map (ofRepair stream)) = (Repair.chosen stream o R).map (ofRepair stream) := by
  rw [enabled, List.filter_map]
  rfl

theorem Correction.allEdits_map (stream : Stream) (R : List Repair) :
    allEdits (R.map (ofRepair stream)) = (R.flatMap Repair.puts).map (Put.edit stream) := by
  rw [allEdits, List.flatMap_map, List.map_flatMap]
  refine List.flatMap_congr ?_
  exact fun r _ => edits_ofRepair stream r

/-! ## Documents -/

namespace Document

/-- The session that parses a source. -/
def session (source : Text) (o : Options) : Session :=
  (Session.start (Lexer.lex source false) o).setSource source

theorem parse_eq_ok {source : Text} {o : Options} {report : Report} :
    parse source o = .ok report ↔
      ∃ t, (session source o).run = (t, none) ∧ report = t.report := by
  have hparse : parse source o = ((session source o).parse).1 := rfl
  rw [hparse, Session.parse]
  cases h : (session source o).run with
  | mk t why =>
    cases why with
    | none => simp [eq_comm]
    | some why => simp

/-- A report of the items `ns` and the repairs `R`. -/
structure Reports (source : Text) (o : Options) (report : Report) (ns : List Item)
    (R : List Repair) : Prop where
  module : report.module =
    Module.mapWith (Stream.ofSource source).token
      (Expr.map (Extent.map (Stream.ofSource source).token)) (ns.map .item)
  edits : report.edits =
    ((Repair.chosen (Stream.ofSource source) o R).flatMap Repair.puts).map
      (Put.edit (Stream.ofSource source))
  tally : report.tally =
    Correction.tally ((Repair.chosen (Stream.ofSource source) o R).map
      (Correction.ofRepair (Stream.ofSource source)))

/-- The report of a session that read items. -/
theorem reports_of_run {source : Text} {o : Options} {t : Session} {ns : List Item}
    {R : List Repair} (h : (session source o).run = (t, none))
    (hreads : (session source o).Reads t ns) (hrepairs : t.state.repairs = R.reverse) :
    Reports source o t.report ns R := by
  have hstream : t.stream = Stream.ofSource source := Session.stream_of_run h
  have hoptions : t.options = o := Session.options_of_run h
  have hpieces : t.pieces = (ns.map .item).reverse := hreads.pieces.trans (List.append_nil _)
  have hchosen : Correction.enabled t.options t.corrections =
      (Repair.chosen (Stream.ofSource source) o R).map
        (Correction.ofRepair (Stream.ofSource source)) := by
    rw [Session.corrections, hstream, hoptions, hrepairs, List.reverse_reverse,
      Correction.enabled_map]
  refine ⟨?_, ?_, ?_⟩
  · rw [Session.report, Session.module, hstream, hpieces, List.reverse_reverse]
  · rw [Session.report, hchosen, Correction.allEdits_map]
  · rw [Session.report, hchosen]

/-- `P` are the pieces of a source, and `R` the repairs noted along them. -/
structure Repairs (source : Text) (P : List Piece) (R : List Repair) : Prop where
  old : old P = (Stream.ofSource source).symbols
  noted : Noted 0 P R
  led : Led P

/-- A successful parse has items, pieces and repairs. Each source whose symbols are the new ones of
the pieces is parsed without any repair, to items that are alike up to conversions. -/
theorem parse_retraced (C : Nat → Text → Bool) {source : Text} {o : Options} {report : Report}
    (h : parse source o = .ok report) :
    ∃ ns P R, Reports source o report ns R ∧ Repairs source P R ∧
      (Agrees C 0 P R → ∀ source' o', (Stream.ofSource source').symbols = new P →
        ∃ report' ns', parse source' o' = .ok report' ∧ Reports source' o' report' ns' [] ∧
          AlikeNodes C ns ns') := by
  obtain ⟨t, ht, rfl⟩ := parse_eq_ok.1 h
  obtain ⟨ns, P, R, hreads, hpass, hled, hmore⟩ :=
    Session.advance_retraced C _ ht (Nat.lt_succ_self _)
  have hold : Piece.old P = (Stream.ofSource source).symbols := by
    have hrest := hpass.rest
    rw [hreads.rest, List.append_nil] at hrest
    exact hrest.symm
  have hrepairs : t.state.repairs = R.reverse := hpass.repairs.trans (List.append_nil _)
  refine ⟨ns, P, R, reports_of_run ht hreads hrepairs, ⟨hold, hpass.noted, hled⟩, ?_⟩
  intro hC source' o' hsymbols
  have hrest : (session source' o').state.rest = new P := hsymbols
  obtain ⟨ns', t', ht', hreads', hrepairs', halike⟩ :=
    hmore hC hrest (Nat.lt_succ_of_le (Nat.le_of_eq (congrArg List.length hrest).symm))
  exact ⟨t'.report, ns', parse_eq_ok.2 ⟨t', ht', rfl⟩, reports_of_run ht' hreads' hrepairs', halike⟩

end Document

end ShaderRepair

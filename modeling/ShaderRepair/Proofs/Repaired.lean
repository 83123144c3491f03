import ShaderRepair.Proofs.Dispatch
import ShaderRepair.Proofs.Interleaving

/-!
# Repaired texts

A text with all edits made needs no more of them, and it is the text of the same tree. This file
contains:
- `Report.converts`, the conversions that a report recorded, and that they are those of its repairs;
- `Document.repair_repaired`, which says that repairing is idempotent;
- `Document.parse_repaired`, which says what the tree of the repaired text is.
-/

namespace ShaderRepair

open Lexer Grammar Grammar.Piece

/-! ## Conversions that were recorded -/

/-- Whether a conversion to the type `T` was recorded for the initializer that starts with `t`. An
empty name would make any parenthesis a conversion. -/
def Report.converts (report : Report) (t : Token) (T : Text) : Bool :=
  T ≠ [] && report.edits.any fun e => e.anchor = t && e.text = T ++ Text.ascii "("

/-- Symbols with different numbers have different tokens. -/
theorem Stream.token_inj {source : Text} {i j : Nat}
    (hi : i < (ofSource source).symbols.length) (hj : j < (ofSource source).symbols.length)
    (h : (ofSource source).token i = (ofSource source).token j) : i = j := by
  have hpair := (tokens_ordered Position.start source).2.filter Token.isSeen
  have hnodup : ((Lexer.tokens source).filter Token.isSeen).Nodup := by
    refine List.Pairwise.imp ?_ hpair
    rintro t t' ht rfl
    omega
  refine (List.getElem?_inj (by rw [← length_symbols]; exact hi) hnodup).1 ?_
  rw [token_ofSource hi, token_ofSource hj, h]

namespace Document

variable {source : Text} {P : List Piece} {R : List Repair}

/-- Only a conversion puts in a text that is longer than a mark. -/
theorem eq_before_of_text {x : Put} (hx : x.Valid) {T : Text} (hT : T ≠ [])
    (h : x.text = T ++ Text.ascii "(") : x = .before (some T) := by
  have hlen : 1 < x.text.length := by
    have hpos := List.length_pos_iff.2 hT
    rw [h, List.length_append]
    exact Nat.lt_add_of_pos_left hpos
  match x, hx with
  | .behind k, hk =>
    obtain ⟨c, hname, -⟩ := first_name hk
    rw [Put.text, hname] at hlen
    exact absurd hlen (Nat.lt_irrefl 1)
  | .before none, _ => exact absurd hlen (Nat.lt_irrefl 1)
  | .before (some T'), _ => rw [List.append_cancel_right h]

theorem mem_puts_conversion {m : Nat} {T : Text} :
    (m, Put.before (some T)) ∈ R.flatMap Repair.puts ↔ ∃ index, ⟨index, .conversion T m⟩ ∈ R := by
  rw [List.mem_flatMap]
  constructor
  · rintro ⟨⟨index, missing⟩, hr, hx⟩
    cases missing with
    | conversion T' first =>
      simp only [Repair.puts, List.mem_cons, Prod.mk.injEq, Put.before.injEq, Option.some.injEq,
        reduceCtorEq, and_false, List.not_mem_nil, or_false] at hx
      obtain ⟨rfl, rfl⟩ := hx
      exact ⟨index, hr⟩
    | _ => simp [Repair.puts] at hx
  · rintro ⟨index, hr⟩
    exact ⟨_, hr, List.mem_cons_self⟩

/-- The conversions that a report recorded are those among the repairs. -/
theorem Repairs.agrees (h : Repairs source P R) {report : Report}
    (hedits : report.edits = allEdits source R) :
    Agrees (fun i => report.converts ((Stream.ofSource source).token i)) 0 P R := by
  intro i T hpos hlt
  rw [h.old, Nat.zero_add] at hlt
  rw [← mem_puts_conversion]
  simp only [Report.converts, hedits, allEdits, Bool.and_eq_true, decide_eq_true_eq,
    List.any_eq_true, List.mem_map]
  constructor
  · rintro ⟨hT, e, ⟨x, hx, rfl⟩, hanchor, htext⟩
    obtain ⟨hproper, -⟩ := h.proper hx
    rw [Put.text_edit] at htext
    obtain ⟨m, y⟩ := x
    have hy : y = .before (some T) := eq_before_of_text (Put.valid_of_proper hproper) hT htext
    subst hy
    obtain ⟨-, j, sign, hm, hj, -⟩ := hproper
    have hmi : m = i := Stream.token_inj (by omega) hlt hanchor
    rw [← hmi]
    exact hx
  · intro hx
    obtain ⟨hT, -⟩ := (h.proper hx).1
    obtain ⟨-, hne, -⟩ := first_typeName T (ValueType.mem_names_of_lookup hT)
    exact ⟨hne, _, ⟨_, hx, rfl⟩, rfl, rfl⟩

/-! ## Repairing again -/

theorem Reports.edits_all {report : Report} {ns : List Item}
    (h : Reports source Options.all report ns R) : report.edits = allEdits source R := by
  rw [h.edits, Repair.chosen_all]
  rfl

/-- The text with all edits made is parsed without repairs, to items that are alike up to the
conversions that were recorded. -/
theorem parse_apply {report : Report} (h : parse source Options.all = .ok report) (o : Options) :
    ∃ (R : List Repair) (ns ns' : List Item) (report' : Report),
      Reports source Options.all report ns R ∧
        parse (apply source report).text o = .ok report' ∧
        Reports (apply source report).text o report' ns' [] ∧
        AlikeNodes (fun i => report.converts ((Stream.ofSource source).token i)) ns ns' := by
  obtain ⟨ns, P, R, hreports, hrepairs, hretraced⟩ :=
    parse_retraced (fun i => report.converts ((Stream.ofSource source).token i)) h
  have hedits := hreports.edits_all
  have hsymbols : (Stream.ofSource (apply source report).text).symbols = new P := by
    rw [apply, hedits]
    exact hrepairs.symbols_splice
  obtain ⟨report', ns', hparse, hreports', halike⟩ :=
    hretraced (hrepairs.agrees hedits) (apply source report).text o hsymbols
  exact ⟨R, ns, ns', report', hreports, hparse, hreports', halike⟩

/-- Repairing is idempotent: a repaired text is repaired without edits, whatever the options. -/
theorem repair_repaired {r : Repaired} (h : repair source Options.all = .ok r) (o : Options) :
    repair r.text o = .ok ⟨r.text, [], Tally.ofList []⟩ := by
  cases hparse : parse source Options.all with
  | error e =>
    rw [repair, hparse] at h
    cases h
  | ok report =>
    have hr : r = apply source report := by
      rw [repair, hparse] at h
      exact (Except.ok.inj h).symm
    obtain ⟨R, ns, ns', report', -, hparse', hreports', -⟩ := parse_apply hparse o
    have hedits : report'.edits = [] := hreports'.edits
    have htally : report'.tally = Tally.ofList [] := hreports'.tally
    rw [hr, repair, hparse']
    change Except.ok (apply (apply source report).text report') = _
    rw [apply, hedits, htally]
    rfl

theorem repair_repaired_int :
    ∃ r, repair (Text.ascii "int x=1.0") Options.all = .ok r ∧
      r.text = Text.ascii "int x=int(1.0);" ∧
      repair r.text Options.all = .ok ⟨r.text, [], Tally.ofList []⟩ := by
  have htext : (repair (Text.ascii "int x=1.0") Options.all).toOption.map Repaired.text =
      some (Text.ascii "int x=int(1.0);") := by
    rw [repair, parse, Lexer.lex_eq_scan]
    decide +kernel
  obtain ⟨r, hr, hrtext⟩ := exists_ok_of_map htext
  exact ⟨r, hr, hrtext, repair_repaired hr Options.all⟩

/-- The tree of a repaired text is the tree of the source, with those initializers for which a
conversion was recorded turned into calls of the declared type. -/
theorem parse_repaired {report : Report} (h : parse source Options.all = .ok report)
    (o : Options) :
    ∃ report', parse (apply source report).text o = .ok report' ∧
      report'.module.bare = (report.module.convert report.converts).bare := by
  obtain ⟨R, ns, ns', report', hreports, hparse', hreports', halike⟩ := parse_apply h o
  refine ⟨report', hparse', ?_⟩
  rw [hreports'.module, hreports.module, Module.bare_map, Module.bare_convert_map]
  rw [AlikeNodes, Node.convertAll_eq_map, Node.bareAll_eq_map, Node.bareAll_eq_map,
    List.map_map] at halike
  have hitems := congrArg (List.map Fragment.item) halike
  rw [List.map_map, List.map_map] at hitems
  exact hitems.symm

theorem parse_repaired_int :
    ∃ report report', parse (Text.ascii "int x=1.0") Options.all = .ok report ∧
      report.edits.map (fun e => e.text) =
        [Text.ascii "int(", Text.ascii ")", Text.ascii ";"] ∧
      parse (apply (Text.ascii "int x=1.0") report).text Options.all = .ok report' ∧
      report'.module.bare = (report.module.convert report.converts).bare := by
  have htexts : (parse (Text.ascii "int x=1.0") Options.all).toOption.map
      (fun report => report.edits.map fun e => e.text) =
        some [Text.ascii "int(", Text.ascii ")", Text.ascii ";"] := by
    rw [parse, Lexer.lex_eq_scan]
    decide +kernel
  obtain ⟨report, hreport, hedits⟩ := exists_ok_of_map htexts
  obtain ⟨report', hparse, hbare⟩ := parse_repaired hreport Options.all
  exact ⟨report, report', hreport, hedits, hparse, hbare⟩

end Document

end ShaderRepair

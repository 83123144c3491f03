import ShaderRepair.Proofs.Confine
import ShaderRepair.Proofs.Dispatch
import ShaderRepair.Proofs.Evaluation
import ShaderRepair.Proofs.Lossless
import ShaderRepair.Proofs.NestingDocument

/-!
# Tallies of edits

The tally of a session counts its edits, however often it was asked to parse and whether it met an
error or not. This file contains:
- `Session.known_parseTimes`, an invariant of all states that a session comes to;
- `Tally.Counts`, what a tally says about edits, and `Session.report_counts`;
- `Text.length_splice`, how long a text is after edits;
- `Lexer.allowance_symbols`, no more parentheses may be missing than there are bytes;
- `Document.parse_tallied`, all of these for every parse.
-/

namespace ShaderRepair

open Grammar

/-! ## Noted repairs -/

namespace Grammar

/-- All repairs noted so far are known. -/
def State.Known (s : State) : Prop :=
  ∀ r ∈ s.repairs, r.missing.Known

/-- A procedure that notes known repairs only keeps them known, whether it accepts or rejects. -/
theorem Procedure.Confined.known {α : Type} {B : Tree → Prop} {C : Rule → Prop}
    {p : Procedure α} (h : p.Confined Missing.Known B C)
    {callee : (r : Rule) → State → Outcome r.Result}
    (hcallee : ∀ r s, s.Known → (callee r s).state.Known) {s : State} (hs : s.Known) :
    (p.exec callee s).state.Known := by
  induction p generalizing s with
  | done a => exact hs
  | look k ih => exact ih _ _ (h _ _) hs
  | ahead k ih => exact ih _ (h _) hs
  | here k ih => exact ih _ (h _) hs
  | shift k ih =>
    refine ih h ?_
    rcases s.shift_cases with hshift | ⟨hsame, -⟩
    · rwa [State.Known, hshift.repairs]
    · rwa [hsame]
  | skipSemicolons k ih => exact ih h hs
  | repair m k ih =>
    refine ih h.2 fun r hr => ?_
    rcases List.mem_cons.1 hr with rfl | hr
    · exact h.1
    · exact hs r hr
  | build e k ih => exact ih h.2 hs
  | widen e k ih => exact ih h hs
  | reject index expected => exact hs
  | call r k ih =>
    have hcall := hcallee r s hs
    rw [exec]
    cases hc : callee r s with
    | accepted a t =>
      rw [hc] at hcall
      exact ih a (h.2 a) hcall
    | rejected why t =>
      rw [hc] at hcall
      exact hcall

theorem Rule.run_known (d : Nat) (r : Rule) {s : State} (hs : s.Known) :
    (Rule.run d r s).state.Known := by
  induction d generalizing r s with
  | zero => exact hs
  | succ d ih => exact r.confined.known (fun r s => ih r) hs

end Grammar

namespace Session

/-- A session that was asked to parse a number of times, whatever it answered. -/
def parseTimes : Nat → Session → Session
  | 0, s => s
  | calls + 1, s => parseTimes calls s.parse.2

theorem known_advance (count : Nat) {s : Session} (hs : s.state.Known) :
    (s.advance count).1.state.Known := by
  induction count generalizing s with
  | zero => exact hs
  | succ count ih =>
    rw [advance]
    split
    · exact hs
    · have hitem : (item? s.state).state.Known := Rule.run_known _ .item hs
      split
      · next n t hn =>
        rw [hn] at hitem
        exact ih hitem
      · next why t hn =>
        rw [hn] at hitem
        exact hitem

theorem parse_snd (s : Session) : s.parse.2 = s.run.1 := by
  rw [parse]
  cases s.run with
  | mk t why => cases why <;> rfl

theorem known_parseTimes (calls : Nat) {s : Session} (hs : s.state.Known) :
    (s.parseTimes calls).state.Known := by
  induction calls generalizing s with
  | zero => exact hs
  | succ calls ih =>
    refine ih ?_
    rw [parse_snd]
    exact known_advance _ hs

end Session

/-! ## What a tally counts -/

/-- Whether the edit opens the constructor call of a registered type. -/
def Edit.callsRegistered (e : Edit) : Bool :=
  (ValueType.catalog.flatMap ValueType.names).any fun T => e.text = T ++ Text.ascii "("

/-- A tally of edits. A conversion counts once, although it has two edits, the second one of which
looks like a parenthesis. -/
structure Tally.Counts (t : Tally) (edits : List Edit) : Prop where
  positive : ∀ e ∈ t.entries, 0 < e.2
  semicolons : t .semicolon = edits.countP fun e => e.text = Text.ascii ";"
  colons : t .colon = edits.countP fun e => e.text = Text.ascii ":"
  commas : t .comma = edits.countP fun e => e.text = Text.ascii ","
  leftParens : t .leftParen = edits.countP fun e => e.text = Text.ascii "("
  conversions : t .conversion = edits.countP Edit.callsRegistered
  rightParens : t .rightParen + t .conversion = edits.countP fun e => e.text = Text.ascii ")"

/-- Only the name of a type makes a text that is longer than a mark. -/
theorem Edit.not_callsRegistered {e : Edit} (h : e.text.length ≤ 1) :
    e.callsRegistered = false := by
  rw [callsRegistered, List.any_eq_false]
  intro T hT htext
  obtain ⟨-, hne, -⟩ := Lexer.first_typeName T hT
  have hpos := List.length_pos_iff.2 hne
  have hlen : (Text.ascii "(").length = 1 := by decide
  rw [of_decide_eq_true htext, List.length_append] at h
  omega

namespace Tally.Counts

variable {t t' : Tally} {edits edits' : List Edit}

theorem append (h : t.Counts edits) (h' : t'.Counts edits')
    (hpos : ∀ e ∈ Tally.entries (fun m => t m + t' m), 0 < e.2) :
    Tally.Counts (fun m => t m + t' m) (edits ++ edits') := by
  refine ⟨hpos, ?_, ?_, ?_, ?_, ?_, ?_⟩
  · simp only [List.countP_append, h.semicolons, h'.semicolons, Int.natCast_add]
  · simp only [List.countP_append, h.colons, h'.colons, Int.natCast_add]
  · simp only [List.countP_append, h.commas, h'.commas, Int.natCast_add]
  · simp only [List.countP_append, h.leftParens, h'.leftParens, Int.natCast_add]
  · simp only [List.countP_append, h.conversions, h'.conversions, Int.natCast_add]
  · simp only [List.countP_append, Int.natCast_add, ← h.rightParens, ← h'.rightParens]
    omega

/-- A mark of its own. -/
theorem mark {m : Mark} {e : Edit} (hm : m ≠ .conversion) (htext : e.text = m.key) :
    (Tally.ofList [m]).Counts [e] := by
  have hnot : e.callsRegistered = false :=
    Edit.not_callsRegistered (by rw [htext]; cases m <;> first | decide | exact absurd rfl hm)
  cases m with
  | conversion => exact absurd rfl hm
  | _ => refine ⟨by decide, ?_, ?_, ?_, ?_, ?_, ?_⟩ <;>
    simp [List.countP_cons, htext, hnot] <;> decide

/-- A constructor call: one conversion, and two edits. -/
theorem conversion {T : Text} (hT : (ValueType.lookup T).isSome = true) {e e' : Edit}
    (htext : e.text = T ++ Text.ascii "(") (htext' : e'.text = Text.ascii ")") :
    (Tally.ofList [.conversion]).Counts [e, e'] := by
  have hmem := ValueType.mem_names_of_lookup hT
  have hopens : e.callsRegistered = true := List.any_eq_true.2 ⟨T, hmem, decide_eq_true htext⟩
  have hnot : e'.callsRegistered = false :=
    Edit.not_callsRegistered (by rw [htext']; decide)
  -- The first text is no mark, because the name is not empty.
  have hlong : ∀ c : UInt8, e.text ≠ [c] := by
    intro c hc
    obtain ⟨-, hne, -⟩ := Lexer.first_typeName T hmem
    have hpos := List.length_pos_iff.2 hne
    have hlen := congrArg List.length (htext.symm.trans hc)
    have hone : (Text.ascii "(").length = 1 := by decide
    rw [List.length_append, List.length_singleton] at hlen
    omega
  have hmarks : e.text ≠ Text.ascii ";" ∧ e.text ≠ Text.ascii ":" ∧ e.text ≠ Text.ascii "," ∧
      e.text ≠ Text.ascii "(" ∧ e.text ≠ Text.ascii ")" :=
    ⟨hlong 59, hlong 58, hlong 44, hlong 40, hlong 41⟩
  refine ⟨by decide, ?_, ?_, ?_, ?_, ?_, ?_⟩ <;>
    simp [List.countP_cons, hmarks, htext', hopens, hnot] <;> decide

theorem positive_ofList (marks : List Mark) : ∀ e ∈ (Tally.ofList marks).entries, 0 < e.2 := by
  intro e he
  obtain ⟨hmem, hne⟩ := List.mem_filter.1 he
  obtain ⟨m, -, rfl⟩ := List.mem_map.1 hmem
  have hnonneg : (0 : Int) ≤ Tally.ofList marks m := Int.natCast_nonneg _
  have hne' : Tally.ofList marks m ≠ 0 := of_decide_eq_true hne
  simp only
  omega

end Tally.Counts

namespace Correction

theorem text_ne_nil {stream : Stream} {r : Repair} {e : Edit}
    (he : e ∈ (ofRepair stream r).edits) : e.text ≠ [] := by
  obtain ⟨index, missing⟩ := r
  cases missing with
  | conversion T first =>
    rcases List.mem_cons.1 he with rfl | he
    · exact List.append_ne_nil_of_right_ne_nil T (by decide)
    · rw [List.mem_singleton.1 he]
      exact List.cons_ne_nil _ _
  | _ =>
    rw [List.mem_singleton.1 he]
    exact List.cons_ne_nil _ _

/-- A correction counts as what its edits are. -/
theorem counts_ofRepair (stream : Stream) {r : Repair} (hr : r.missing.Known) :
    (tally [ofRepair stream r]).Counts (ofRepair stream r).edits := by
  obtain ⟨index, missing⟩ := r
  cases missing with
  | conversion T first => exact .conversion hr rfl rfl
  | _ => exact .mark (fun h => nomatch h) rfl

theorem tally_cons (stream : Stream) (r : Repair) (R : List Repair) :
    tally ((r :: R).map (ofRepair stream)) = fun m =>
      tally [ofRepair stream r] m + tally (R.map (ofRepair stream)) m := by
  funext m
  simp only [tally, Tally.ofList, List.map_cons, List.map_nil, List.count_cons, List.count_nil]
  omega

/-- So do many of them, by induction. -/
theorem counts_allEdits (stream : Stream) {R : List Repair} (hR : ∀ r ∈ R, r.missing.Known) :
    (tally (R.map (ofRepair stream))).Counts (allEdits (R.map (ofRepair stream))) := by
  induction R with
  | nil => exact ⟨Tally.Counts.positive_ofList [], rfl, rfl, rfl, rfl, rfl, rfl⟩
  | cons r R ih =>
    have hmore := ih fun r' hr' => hR r' (List.mem_cons_of_mem _ hr')
    have hpos : ∀ e ∈ (tally ((r :: R).map (ofRepair stream))).entries, 0 < e.2 :=
      Tally.Counts.positive_ofList _
    rw [tally_cons] at hpos ⊢
    exact (counts_ofRepair stream (hR r List.mem_cons_self)).append hmore hpos

end Correction

/-- The report of a session counts its edits. -/
theorem Session.report_counts {s : Session} (hs : s.state.Known) :
    s.report.tally.Counts s.report.edits := by
  have hchosen : Correction.enabled s.options s.corrections =
      (Repair.chosen s.stream s.options s.state.repairs.reverse).map
        (Correction.ofRepair s.stream) := by
    rw [corrections, Correction.enabled_map]
  rw [report, hchosen]
  refine Correction.counts_allEdits s.stream fun r hr => hs r ?_
  exact List.mem_reverse.1 (List.mem_of_mem_filter hr)

/-! ## Nothing to add -/

namespace Text

/-- Splicing puts in all texts, wherever they are to stand. -/
theorem length_spliceSorted (start : Nat) (s : Text) (insertions : List Insertion) :
    (spliceSorted start s insertions).length =
      s.length + (insertions.map fun e => e.text.length).sum := by
  induction insertions generalizing start s with
  | nil => rfl
  | cons e more ih =>
    simp only [spliceSorted, List.length_append, ih, List.length_take, List.length_drop,
      List.map_cons, List.sum_cons]
    omega

theorem sum_insertSorted (e : Insertion) (more : List Insertion) :
    ((Insertion.insertSorted e more).map fun f => f.text.length).sum =
      e.text.length + (more.map fun f => f.text.length).sum := by
  induction more with
  | nil => rfl
  | cons f more ih =>
    rw [Insertion.insertSorted]
    split
    · rfl
    · simp only [List.map_cons, List.sum_cons, ih]
      omega

theorem length_splice (source : Text) (insertions : List Insertion) :
    (source.splice insertions).length =
      source.length + (insertions.map fun e => e.text.length).sum := by
  rw [splice, length_spliceSorted]
  congr 1
  induction insertions with
  | nil => rfl
  | cons e more ih => rw [Insertion.sort, sum_insertSorted, ih, List.map_cons, List.sum_cons]

end Text

/-! ## How many parentheses are missing -/

/-- A keyword that allows for two parentheses has at least two bytes, and no other kind of token
allows for more than one. -/
theorem Pattern.allowance_le {p : Pattern} (hp : p ∈ Pattern.list) {s : Text}
    (hs : 0 < p.reach s) : p.kind.allowance ≤ p.reach s := by
  have hkeywords : ∀ e ∈ Lexicon.keywords, e.2.allowance ≤ e.1.length := by decide
  have hothers : ∀ q ∈ Pattern.listWith [], q.kind.allowance ≤ 1 := by
    have hkinds : ∀ k ∈ (Pattern.listWith []).map Pattern.kind, k.allowance ≤ 1 := by decide
    exact fun q hq => hkinds _ (List.mem_map_of_mem hq)
  have hcases : (p ∈ Lexicon.keywords.map fun e => Pattern.plain e.2 (Reach.exactWord e.1)) ∨
      p ∈ Pattern.listWith [] := by
    simp only [Pattern.list, Pattern.listWith, List.mem_append] at hp ⊢
    rcases hp with (((hp | hp) | hp) | hp) | hp
    · exact .inr (.inl (.inl (.inl (.inl hp))))
    · exact .inl hp
    · exact .inr (.inl (.inl (.inr hp)))
    · exact .inr (.inl (.inr hp))
    · exact .inr (.inr hp)
  rcases hcases with hword | hother
  · obtain ⟨⟨w, k⟩, hmem, rfl⟩ := List.mem_map.1 hword
    have hreach : Reach.exactWord w s = w.length := by
      have hpos : 0 < Reach.exactWord w s := hs
      rw [Reach.exactWord] at hpos ⊢
      split at hpos
      · next h => rw [if_pos h]
      · exact absurd hpos (Nat.lt_irrefl 0)
    exact (hkeywords _ hmem).trans (Nat.le_of_eq hreach.symm)
  · exact (hothers p hother).trans hs

namespace Lexer

theorem allowance_le (p : Position) (s : Text) :
    ∀ t ∈ tokensAfter Pattern.list 0 p s, t.kind.allowance ≤ t.lexeme.length := by
  induction p, s using token_induction with
  | nil p =>
    intro t ht
    rw [List.mem_singleton.1 ht]
    exact Nat.le_refl _
  | token p k a tags v ha h ih =>
    intro t ht
    rw [tokensAfter_append ha h] at ht
    rcases List.mem_cons.1 ht with rfl | ht
    · by_cases hk : k = .error
      · rw [hk]
        exact Nat.zero_le _
      · obtain ⟨q, hq, -, rfl, -, hreach, -⟩ := exists_pattern ha h hk
        have hpos : 0 < q.reach (a ++ v) := by
          rw [hreach]
          exact List.length_pos_iff.2 ha
        exact hreach ▸ Pattern.allowance_le hq hpos
    · exact ih t ht

/-- A source has bytes for all that its symbols allow for. -/
theorem allowance_symbols (source : Text) :
    allowance (Stream.ofSource source).symbols ≤ source.length := by
  have hkinds : allowance (Stream.ofSource source).symbols =
      (((tokens source).filter Token.isSeen).map fun t => t.kind.allowance).sum := by
    have hsum : allowance (Stream.ofSource source).symbols =
        (((Stream.ofSource source).symbols.map Symbol.kind).map Kind.allowance).sum := by
      rw [allowance, List.map_map]
      rfl
    rw [hsum, Stream.kinds_ofSource, List.map_map]
    rfl
  have hbound : ∀ ts : List Token, (∀ t ∈ ts, t.kind.allowance ≤ t.lexeme.length) →
      ((ts.filter Token.isSeen).map fun t => t.kind.allowance).sum ≤
        (ts.flatMap Token.lexeme).length := by
    intro ts
    induction ts with
    | nil => exact fun _ => Nat.le_refl 0
    | cons t ts ih =>
      intro hts
      have ht := hts t List.mem_cons_self
      have hmore := ih fun t' ht' => hts t' (List.mem_cons_of_mem _ ht')
      rw [List.flatMap_cons, List.length_append, List.filter_cons]
      split
      · rw [List.map_cons, List.sum_cons]
        omega
      · omega
  have hall := hbound (tokens source) (allowance_le Position.start source)
  have hcovers : (tokens source).flatMap Token.lexeme = source :=
    (tokensAfter_covers Position.start source).flatMap_lexeme
  rwa [← hkinds, hcovers] at hall

end Lexer

/-- Parentheses are counted as what they are. -/
theorem Correction.tally_parens (stream : Stream) (R : List Repair) :
    tally (R.map (ofRepair stream)) .leftParen + tally (R.map (ofRepair stream)) .rightParen =
      parenCount R := by
  induction R with
  | nil => rfl
  | cons r R ih =>
    have hone : tally [ofRepair stream r] .leftParen + tally [ofRepair stream r] .rightParen =
        parenCount [r] := by
      obtain ⟨index, missing⟩ := r
      cases missing <;> rfl
    have hsum : parenCount (r :: R) = parenCount [r] + parenCount R := parenCount_append [r] R
    have hcount : ∀ m, tally ((r :: R).map (ofRepair stream)) m =
        tally [ofRepair stream r] m + tally (R.map (ofRepair stream)) m :=
      fun m => congrFun (tally_cons stream r R) m
    rw [hcount, hcount, hsum, Int.natCast_add]
    omega

namespace Tally

theorem phrase_eq_none {n : Int} {one many : String} : phrase n one many = none ↔ n ≤ 0 := by
  unfold phrase
  split
  · next h => simp [h]
  split
  · next h => exact ⟨fun hnone => (nomatch hnone), fun hle => absurd h (by omega)⟩
  · next h h' => exact ⟨fun _ => by omega, fun _ => rfl⟩

theorem wrap_of_lt {n : Int} (hpos : 0 ≤ n) (hlt : n < 2 ^ 63) : wrap n = n := by
  simp only [wrap, Int.bmod]
  omega

/-- A summary begins with another word where there is a phrase. -/
theorem summary_eq_nothing {t : Tally} :
    t.summary = Text.ascii "nothing to add" ↔ t.phrases = [] := by
  have hadded : ∀ s : Text, Text.ascii "added " ++ s ≠ Text.ascii "nothing to add" := by
    intro s h
    have hhead : (some 97 : Option UInt8) = some 110 := congrArg List.head? h
    exact absurd hhead (by decide)
  unfold summary
  cases hphrases : t.phrases.reverse with
  | nil => simp [List.reverse_eq_nil_iff.1 hphrases]
  | cons final others =>
    have hne : t.phrases ≠ [] := fun h => by simp [h] at hphrases
    cases others with
    | nil => simp [hne, hadded]
    | cons s more => simp [hne, hadded]

/-- Where no total wraps around, there is nothing to add only if nothing was counted. -/
theorem phrases_eq_nil {t : Tally} (hpos : ∀ m, 0 ≤ t m)
    (hlt : t .leftParen + t .rightParen < 2 ^ 63) : t.phrases = [] ↔ ∀ m, t m = 0 := by
  have hwrap := wrap_of_lt (Int.add_nonneg (hpos .leftParen) (hpos .rightParen)) hlt
  have hnone : t.phrases = [] ↔ t .semicolon ≤ 0 ∧ t .colon ≤ 0 ∧
      t .leftParen + t .rightParen ≤ 0 ∧ t .comma ≤ 0 ∧ t .conversion ≤ 0 := by
    rw [phrases, hwrap]
    simp [phrase_eq_none]
  have h₁ := hpos .leftParen
  have h₂ := hpos .rightParen
  rw [hnone]
  constructor
  · rintro ⟨hs, hc, hp, hm, ht⟩ m
    have := hpos m
    cases m <;> omega
  · intro h
    simp [h]

end Tally

/-! ## Every parse -/

namespace Document

variable {source : Text} {o : Options} {report : Report}

/-- The corrections of a report, of which there are no more parentheses than bytes. -/
theorem exists_corrections (h : parse source o = .ok report) :
    ∃ R : List Repair, report.edits =
        Correction.allEdits (R.map (Correction.ofRepair (Stream.ofSource source))) ∧
      report.tally = Correction.tally (R.map (Correction.ofRepair (Stream.ofSource source))) ∧
      parenCount R ≤ source.length := by
  obtain ⟨t, ht, rfl⟩ := parse_eq_ok.1 h
  obtain ⟨R, hR, -, hcount⟩ := Session.run_balances ht
  have hstream : t.stream = Stream.ofSource source := Session.stream_of_run ht
  have hrepairs : t.state.repairs = R := hR.trans (List.append_nil R)
  have hchosen : Correction.enabled t.options t.corrections =
      (Repair.chosen t.stream t.options R.reverse).map
        (Correction.ofRepair (Stream.ofSource source)) := by
    rw [Session.corrections, Correction.enabled_map, hrepairs, hstream]
  refine ⟨Repair.chosen t.stream t.options R.reverse, ?_, ?_, ?_⟩
  · rw [← hchosen]
    rfl
  · rw [← hchosen]
    rfl
  · calc parenCount (Repair.chosen t.stream t.options R.reverse)
        ≤ parenCount R.reverse := List.filter_sublist.countP_le
      _ = parenCount R := (List.reverse_perm R).countP_eq _
      _ ≤ source.length := hcount.trans (Lexer.allowance_symbols source)

/-- Edits are never empty. -/
theorem edits_of_text (h : parse source o = .ok report)
    (htext : (apply source report).text = source) : report.edits = [] := by
  obtain ⟨R, hedits, -, -⟩ := exists_corrections h
  have hlen := congrArg List.length htext
  rw [apply, Text.length_splice, List.map_map] at hlen
  have hsum : (report.edits.map fun e => e.text.length).sum = 0 := Nat.add_eq_left.1 hlen
  rw [List.eq_nil_iff_forall_not_mem]
  intro e he
  have hzero := List.sum_eq_zero_iff_forall_eq_nat.1 hsum _ (List.mem_map_of_mem he)
  rw [hedits] at he
  obtain ⟨c, hc, he⟩ := List.mem_flatMap.1 he
  obtain ⟨r, -, rfl⟩ := List.mem_map.1 hc
  exact Correction.text_ne_nil he (List.length_eq_zero_iff.1 hzero)

/-- Nothing was counted if and only if there are no edits. -/
theorem tally_eq_zero_iff {stream : Stream} {R : List Repair} :
    (∀ m, Correction.tally (R.map (Correction.ofRepair stream)) m = 0) ↔
      Correction.allEdits (R.map (Correction.ofRepair stream)) = [] := by
  cases R with
  | nil => simp [Correction.tally, Tally.ofList, Correction.allEdits]
  | cons r R =>
    refine ⟨fun h => ?_, fun h => ?_⟩
    · have hcount : (((r :: R).map (Correction.ofRepair stream)).map Correction.mark).count
          (Correction.ofRepair stream r).mark = 0 :=
        Int.ofNat.inj (h (Correction.ofRepair stream r).mark)
      exact absurd List.mem_cons_self (List.count_eq_zero.1 hcount)
    · have hnone := List.flatMap_eq_nil_iff.1 h _ (List.mem_map_of_mem List.mem_cons_self)
      exact absurd hnone (Correction.edits_ne_nil stream r)

/-- A tally counts the edits in every state that a session comes to, however often it is asked to
parse and whatever it answers. So the summary of a parse says that there is nothing to add if and
only if there are no edits, and only without edits the source stays as it is. A text in memory is
shorter than 2^63 bytes; the total of both parentheses is a word of 64 bits. -/
theorem parse_tallied :
    (∀ (tokens : List Token) (text : Text) (o : Options) (calls : Nat),
      let s := ((Session.start tokens o).setSource text).parseTimes calls
      s.report.tally.Counts s.report.edits) ∧
    ∀ (source : Text) (o : Options) (report : Report), source.length < 2 ^ 63 →
      parse source o = .ok report →
        (report.tally.summary = Text.ascii "nothing to add" ↔ report.edits = []) ∧
        (report.edits = [] ↔ (apply source report).text = source) := by
  refine ⟨fun tokens text o calls => ?_, fun source o report hlen h => ⟨?_, ?_⟩⟩
  · exact Session.report_counts (Session.known_parseTimes calls fun r hr => (nomatch hr))
  · obtain ⟨R, hedits, htally, hparens⟩ := exists_corrections h
    have htotal := Correction.tally_parens (Stream.ofSource source) R
    rw [Tally.summary_eq_nothing, hedits, ← tally_eq_zero_iff, htally]
    exact Tally.phrases_eq_nil (fun m => Int.natCast_nonneg _) (by omega)
  · refine ⟨fun hedits => ?_, edits_of_text h⟩
    rw [apply, hedits]
    rfl

/-- A parse with two conversions, and a session that met two errors. -/
theorem parse_tallied_int :
    (∃ report, parse (Text.ascii "int x=1.0, y=2.0") Options.all = .ok report ∧
      report.edits.length = 5 ∧
      (report.tally.summary = Text.ascii "nothing to add" ↔ report.edits = [])) ∧
    ∃ s, s = ((Session.start (Lexer.lex
        (Text.ascii "int x = 1.0 struct \x7b int y void f( = 1 return x") false)
        Options.all).setSource []).parseTimes 2 ∧
      s.report.edits.length = 5 ∧ s.report.tally.Counts s.report.edits := by
  have hedits : (parse (Text.ascii "int x=1.0, y=2.0") Options.all).toOption.map
      (fun report => report.edits.length) = some 5 := by
    rw [parse, Lexer.lex_eq_scan]
    decide +kernel
  obtain ⟨report, hreport, hlen⟩ := exists_ok_of_map hedits
  have hsource : (Text.ascii "int x=1.0, y=2.0").length < 2 ^ 63 := by decide
  refine ⟨⟨report, hreport, hlen, (parse_tallied.2 _ _ report hsource hreport).1⟩, _, rfl, ?_, ?_⟩
  · rw [Lexer.lex_eq_scan]
    decide +kernel
  · exact parse_tallied.1 _ [] Options.all 2

end Document

end ShaderRepair

import ShaderRepair.Proofs.Dispatch
import ShaderRepair.Proofs.Insignificant
import ShaderRepair.Proofs.Placement
import ShaderRepair.Proofs.Sequel

/-!
# A source below another one

If two sources can be parsed on their own, the first one ends with a semicolon, and the second one
does not begin with one, then both can be parsed together, and each needs the repairs that it needs
on its own. This file contains:
- `Stream.ofSource_sequel`, what the grammar sees of the two sources;
- `Grammar.Takes.sequel`, the items of both;
- `Text.splice_append_cons`, insertions into both;
- `Document.parse_sequel`.
-/

namespace ShaderRepair

open Grammar

/-! ## What the grammar sees -/

namespace Stream

section Last

variable {source : Text} {body : List Token} {q : Position}
  (h : Lexer.tokens source = body ++ [Token.endAt q])
include h

/-- A word at the end of the source shows the last symbol. -/
theorem kind_of_getLast? {t : Token} (ht : body.getLast? = some t) (hseen : t.isSeen = true)
    (hbody : ∀ t ∈ body, t.kind ≠ .endOfInput) {x : Symbol}
    (hx : (ofSource source).symbols.getLast? = some x) : x.kind = t.kind := by
  obtain ⟨l, rfl⟩ := List.getLast?_eq_some_iff.1 ht
  rw [symbols_ofSource h hbody, List.getLast?_map] at hx
  obtain ⟨y, hy, rfl⟩ := Option.map_eq_some_iff.1 hx
  have hwords := congrArg List.getLast? (map_fst_significant false (l ++ [t]))
  rw [List.getLast?_map, hy, List.filter_append,
    List.filter_cons_of_pos (Token.isSeen_iff.1 hseen).1, List.filter_nil,
    List.getLast?_concat] at hwords
  exact congrArg Token.kind (Option.some.inj hwords)

/-- It is the last token that is looked up, and the source stops behind it. -/
theorem token_of_getLast? {t : Token} (ht : body.getLast? = some t) (hseen : t.isSeen = true)
    {i : Nat} (hi : i + 1 = (ofSource source).symbols.length) :
    (ofSource source).token i = t ∧ t.stop = q := by
  obtain ⟨l, rfl⟩ := List.getLast?_eq_some_iff.1 ht
  constructor
  · have hfilter : (l ++ [t]).filter Token.isSeen = l.filter Token.isSeen ++ [t] := by
      rw [List.filter_append, List.filter_cons_of_pos hseen, List.filter_nil]
    rw [length_ofSource h, hfilter, List.length_append, List.length_singleton] at hi
    rw [token_eq, toList_ofSource h, hfilter, Nat.add_right_cancel hi,
      List.getElem?_concat_length, Option.getD_some]
  · have hadjacent : Lexer.tokensAfter Pattern.list 0 Position.start source =
        l ++ t :: Token.endAt q :: [] := by
      rw [show Lexer.tokensAfter Pattern.list 0 Position.start source = _ from h]
      simp
    exact (Lexer.tokens_adjacent Position.start source hadjacent).symm

end Last

/-- Behind a significant token no line break has been passed. -/
theorem significant_append {body : List Token} {t : Token} (ht : body.getLast? = some t)
    (hsig : t.isSignificant = true) (b : Bool) (more : List Token) :
    significant b (body ++ more) = significant b body ++ significant false more := by
  induction body generalizing b with
  | nil => cases ht
  | cons u body ih =>
    cases body with
    | nil =>
      obtain rfl : u = t := Option.some.inj ht
      have hignored : ¬u.isIgnored = true := by
        intro hignored
        have hkind : u.kind.isIgnored = true := hignored
        rw [Token.isSignificant, Kind.isSignificant, hkind] at hsig
        cases hsig
      have hbreak : u.kind ≠ .lineBreak := by
        intro hbreak
        rw [Token.isSignificant, hbreak] at hsig
        cases hsig
      rw [List.singleton_append, significant, significant, if_neg hignored, if_neg hbreak,
        if_neg hignored, if_neg hbreak]
      rfl
    | cons u' body =>
      -- The last token is behind this one, whatever that is.
      have hmore : ∀ b, significant b (u' :: body ++ more) =
          significant b (u' :: body) ++ significant false more := fun b => ih ht b
      generalize u' :: body = body at hmore
      rw [List.cons_append, significant, significant, hmore, hmore, hmore]
      split
      · rfl
      split
      · rfl
      · rfl

/-- Of line breaks in front of a list only this is known, that there were any. -/
theorem significant_lineBreaks {breaks : List Token} (h : ∀ t ∈ breaks, t.kind = .lineBreak)
    (b : Bool) (more : List Token) :
    ∃ b', significant b (breaks ++ more) = significant b' more := by
  induction breaks generalizing b with
  | nil => exact ⟨b, rfl⟩
  | cons t breaks ih =>
    have hk : t.kind = .lineBreak := h t List.mem_cons_self
    have hignored : ¬t.isIgnored = true := by simp [Token.isIgnored, Kind.isIgnored, hk]
    obtain ⟨b', hb'⟩ := ih (fun u hu => h u (List.mem_cons_of_mem t hu)) true
    exact ⟨b', by rw [List.cons_append, significant, if_neg hignored, if_pos hk, hb']⟩

/-- A line break that has been passed before is seen in front of the first word. -/
theorem relabels_significant (b b' : Bool) (tokens : List Token) :
    Relabels ((significant b tokens).map fun x => Symbol.ofToken x.2 x.1)
      ((significant b' tokens).map fun x => Symbol.ofToken x.2 x.1) := by
  induction tokens generalizing b b' with
  | nil => exact .nil
  | cons t tokens ih =>
    rw [significant, significant]
    split
    · exact ih b b'
    split
    · exact ih true true
    · exact .cons _ b' _

/-- What is seen of two sources with a line feed between them: the words of the first one, the last
of which is a semicolon, and those of the second one, on lines below. -/
structure Sequel (stream stream₁ stream₂ : Stream) (bytes lines : Int) : Prop where
  symbols : ∃ w, Relabels stream₂.symbols w ∧ stream.symbols = stream₁.symbols ++ w
  before : ∀ i < stream₁.symbols.length, stream.token i = stream₁.token i
  behind : ∀ i, stream.token (i + stream₁.symbols.length) = (stream₂.token i).shift bytes lines
  semicolon : ∀ x, stream₁.symbols.getLast? = some x → x.kind = .semicolon
  ended : (stream₁.token stream₁.symbols.length).kind = .endOfInput
  below : ∀ i, i + 1 = stream₁.symbols.length →
    (stream₁.token i).stop.line < (stream₂.token 0).start.line + lines

section Append

variable {stream stream₁ stream₂ : Stream}

theorem token_of_append {l : List Token}
    (h : stream.tokens.toList = stream₁.tokens.toList ++ l) {i : Nat}
    (hi : i < stream₁.tokens.toList.length) : stream.token i = stream₁.token i := by
  rw [token_eq, token_eq, h, List.getElem?_append_left hi, List.getElem?_eq_getElem hi,
    Option.getD_some, Option.getD_some]

theorem token_add_of_append {bytes lines : Int}
    (h : stream.tokens.toList =
      stream₁.tokens.toList ++ stream₂.tokens.toList.map (Token.shift bytes lines))
    (hfinish : stream.finish = stream₂.finish.shift bytes lines) (i : Nat) :
    stream.token (i + stream₁.tokens.toList.length) = (stream₂.token i).shift bytes lines := by
  rw [token_eq, token_eq, h, hfinish, List.getElem?_append_right (Nat.le_add_left _ _),
    Nat.add_sub_cancel, List.getElem?_map, Option.getD_map]

end Append

section Breaks

variable {breaks more : List Token} (h : ∀ t ∈ breaks, t.kind = .lineBreak)
include h

/-- Line breaks are not looked up. -/
theorem filter_isSeen_breaks : (breaks ++ more).filter Token.isSeen = more.filter Token.isSeen := by
  have hnone : breaks.filter Token.isSeen = [] := by
    refine List.filter_eq_nil_iff.2 fun t ht => ?_
    simp [Token.isSeen, Token.isSignificant, Kind.isSignificant, h t ht]
  rw [List.filter_append, hnone, List.nil_append]

/-- Nor do they end the input. -/
theorem kind_ne_endOfInput_of_breaks (hmore : ∀ t ∈ more, t.kind ≠ .endOfInput) :
    ∀ t ∈ breaks ++ more, t.kind ≠ .endOfInput := by
  intro t ht
  rcases List.mem_append.1 ht with ht | ht
  · simp [h t ht]
  · exact hmore t ht

end Breaks

theorem ofSource_sequel {s s' : Text} {t : Token} (hvalid : ∀ t ∈ Lexer.tokens s, t.kind ≠ .error)
    (ht : (Lexer.tokens s).dropLast.getLast? = some t) (hk : t.kind = .semicolon) :
    (ofSource (s ++ Text.lineFeed :: s')).Sequel (ofSource s) (ofSource s') (s.length + 1)
      (ofSource s).finish.start.line := by
  obtain ⟨body, q, breaks, breaks', more, q', htokens, hq, htokens', hwhole, hkinds, hbreaks⟩ :=
    Lexer.tokens_sequel hvalid ht hk s'
  rw [List.forall_mem_append] at hkinds hbreaks
  obtain ⟨hbody, hmore⟩ := hkinds
  obtain ⟨hbreaks, hbreaks'⟩ := hbreaks
  have hmoved : ∀ t ∈ more.map (Token.shift (s.length + 1) q.line), t.kind ≠ .endOfInput := by
    intro t ht
    obtain ⟨u, hu, rfl⟩ := List.mem_map.1 ht
    exact hmore u hu
  have hall := List.forall_mem_append.2 ⟨hbody, kind_ne_endOfInput_of_breaks hbreaks' hmoved⟩
  have hlast : body.getLast? = some t := by
    rw [htokens, List.dropLast_concat] at ht
    exact ht
  have hseen : t.isSeen = true := by
    rw [Token.isSeen, Token.isSignificant, hk]
    rfl
  have hfinish := finish_ofSource htokens hbody
  -- What is looked up in both sources is what is looked up in each, on lines below in the second.
  have hfirst := toList_ofSource htokens
  have hboth : (ofSource (s ++ Text.lineFeed :: s')).tokens.toList = (ofSource s).tokens.toList ++
      (ofSource s').tokens.toList.map (Token.shift (s.length + 1) q.line) := by
    rw [toList_ofSource hwhole, List.filter_append, filter_isSeen_breaks hbreaks',
      toList_ofSource htokens', filter_isSeen_breaks hbreaks, List.filter_map, hfirst]
    rfl
  have hlength : (ofSource s).symbols.length = (ofSource s).tokens.toList.length := by
    rw [length_ofSource htokens, hfirst]
  rw [hfinish]
  constructor
  case symbols =>
    obtain ⟨b, hb⟩ := significant_lineBreaks hbreaks false more
    obtain ⟨b', hb'⟩ := significant_lineBreaks hbreaks' false
      (more.map (Token.shift (s.length + 1) q.line))
    refine ⟨(significant b' more).map fun x => Symbol.ofToken x.2 x.1, ?_, ?_⟩
    · rw [symbols_ofSource htokens' (kind_ne_endOfInput_of_breaks hbreaks hmore), hb]
      exact relabels_significant b b' more
    · rw [symbols_ofSource hwhole hall, significant_append hlast (Token.isSeen_iff.1 hseen).1, hb',
        significant_map (Token.shift (s.length + 1) q.line) fun _ => rfl, List.map_append,
        List.map_map, symbols_ofSource htokens hbody]
      rfl
  case before =>
    intro i hi
    exact token_of_append hboth (hlength ▸ hi)
  case behind =>
    rw [hlength]
    refine token_add_of_append hboth ?_
    rw [finish_ofSource hwhole hall,
      finish_ofSource htokens' (kind_ne_endOfInput_of_breaks hbreaks hmore)]
    rfl
  case semicolon => exact fun x hx => (kind_of_getLast? htokens hlast hseen hbody hx).trans hk
  case ended =>
    rw [token_eq, hlength, List.getElem?_eq_none (Nat.le_refl _), Option.getD_none]
    exact kind_finishOf _
  case below =>
    intro i hi
    obtain ⟨htoken, hstop⟩ := token_of_getLast? htokens hlast hseen hi
    have hfrom := Lexer.line_le Position.start s' _ (token_mem s' 0)
    rw [htoken, hstop]
    simp only [Position.start, Token.endAt] at hfrom ⊢
    omega

end Stream

/-! ## What the grammar makes of it -/

namespace Grammar

open Procedure

/-- No item begins with the word for another branch. -/
theorem kind_ne_else {s t : State} {n : Item} (h : item? s = .accepted n t) :
    s.next.kind ≠ .else := by
  intro hk
  obtain ⟨d, hd⟩ : ∃ d, s.depth = d + 2 := by
    refine ⟨s.depth - 2, ?_⟩
    have hle : callsPerSymbol ≤ s.depth := Nat.le_mul_of_pos_left _ (Nat.succ_pos _)
    rw [callsPerSymbol] at hle
    omega
  -- It would be a statement, and as such an expression.
  have hitem : item.exec (Rule.run (d + 1)) s = statement.exec (Rule.run d) s := by
    rw [item, exec_bind, exec_position]
    simp only
    rw [exec_bind, exec_next]
    simp only [hk]
    exact exec_run_succ d .statement s
  rw [item?, hd, Rule.run_succ, show Rule.item.body = item from rfl, hitem, statement,
    exec_bind, exec_position] at h
  simp only at h
  rw [exec_bind, exec_next] at h
  simp only [hk] at h
  obtain ⟨e, m, hrun, -⟩ := exec_bind_accepted.1 h
  rw [exec_run] at hrun
  have hstarts := Omission.startsExpression_of_expression hrun
  rw [Symbol.startsExpression, hk] at hstarts
  have hkind := Symbol.kind_of_plays hstarts
  rw [hk] at hkind
  cases hkind

/-- What is read as items does not begin with `else`, whatever its line breaks are. -/
theorem Takes.head_kind_ne {ys ys' : List Symbol} {ms : List Item} {u : State}
    (hlabels : Relabels ys ys') (h : Takes (State.start ys) ms u) (hu : u.rest = [])
    (hbegins : ∀ x, ys.head? = some x → x.kind ≠ .semicolon) :
    ∀ x, ys'.head? = some x → x.kind ≠ .semicolon ∧ x.kind ≠ .else := by
  intro x hx
  obtain ⟨y, more, rfl, hkind⟩ : ∃ y more, ys = y :: more ∧ x.kind = y.kind := by
    cases hlabels with
    | nil => cases hx
    | cons y broken more =>
      cases hx
      exact ⟨y, more, rfl, rfl⟩
  rw [hkind]
  refine ⟨hbegins y rfl, ?_⟩
  cases h with
  | nil => cases hu
  | cons _ hn _ => exact kind_ne_else hn

/-- Items of one list of symbols and items of another one are read one after the other if the first
list ends with a semicolon and the second one does not begin with one. -/
theorem Takes.sequel {μ : Type} {xs ys ys' : List Symbol} {ns ms : List Item} {t u : State}
    (hlabels : Relabels ys ys') (h : Takes (State.start xs) ns t) (ht : t.rest = [])
    (h' : Takes (State.start ys) ms u) (hu : u.rest = [])
    (hends : ∀ x, xs.getLast? = some x → x.kind = .semicolon)
    (hbegins : ∀ x, ys.head? = some x → x.kind ≠ .semicolon) {f f' g : Nat → μ}
    (hf : ∀ i < xs.length, f i = g i) (hf' : ∀ i < ys.length, f' i = g (i + xs.length)) :
    ∃ ns' ms' v, Takes (State.start (xs ++ ys')) (ns' ++ ms') v ∧ v.rest = [] ∧
      v.repairs = u.repairs.map (Repair.move xs.length) ++ t.repairs ∧
      Module.mapWith g (Expr.map (Extent.map g)) (ns'.map .item) =
        Module.mapWith f (Expr.map (Extent.map f)) (ns.map .item) ∧
      Module.mapWith g (Expr.map (Extent.map g)) (ms'.map .item) =
        Module.mapWith f' (Expr.map (Extent.map f')) (ms.map .item) := by
  -- The first list stays where it is, with the second one behind it.
  let ρ : Relocation μ :=
    ⟨xs, xs, ys', 0, [], f, g, .refl xs, hf, fun _ => hends,
      Takes.head_kind_ne hlabels h' hu hbegins⟩
  have hstart : ρ.Beside (State.start xs) (State.start (xs ++ ys')) :=
    ⟨rfl, rfl, rfl, rfl, Nat.zero_le _⟩
  obtain ⟨ns', t', htakes, hsame, hbeside⟩ := Relocation.takes h hstart
  have hpassed : t.passed = xs.length := by
    have hrest : xs.drop t.passed = [] := hbeside.rest.symm.trans ht
    exact Nat.le_antisymm hbeside.within (List.drop_eq_nil_iff.1 hrest)
  -- The second list is read as many symbols further on, after the repairs of the first one.
  let ρ' : Relocation μ :=
    ⟨ys, ys', [], xs.length, t.repairs, f', g, hlabels, hf', fun hne => absurd rfl hne,
      fun _ hx => absurd hx (Option.some_ne_none _).symm⟩
  have hstart' : ρ'.Beside (State.start ys) t' := by
    refine ⟨rfl, ?_, ?_, ?_, Nat.zero_le _⟩
    · have hrest : t'.rest = xs.drop t.passed ++ ys' := hbeside.rest'
      rw [hrest, hpassed, List.drop_length, List.nil_append]
      exact (List.append_nil ys').symm
    · have hmoved : t'.passed = t.passed + 0 := hbeside.passed
      rw [hmoved, hpassed]
      exact Nat.add_comm _ _
    · have hrepairs : t'.repairs = t.repairs.map (Repair.move 0) ++ [] := hbeside.repairs
      rw [hrepairs, Repair.map_move_zero, List.append_nil]
      rfl
  obtain ⟨ms', v, htakes', hsame', hbeside'⟩ := Relocation.takes h' hstart'
  refine ⟨ns', ms', v, htakes.append htakes', ?_, hbeside'.repairs,
    (Relocation.module_of_same hsame).symm, (Relocation.module_of_same hsame').symm⟩
  obtain ⟨zs, hzs, hrelabels⟩ := hbeside'.relabels
  rw [hu] at hrelabels
  cases hrelabels
  exact hzs

end Grammar

/-! ## Edits in both sources -/

/-- The insertion that many bytes further on. -/
def Insertion.shift (bytes : Int) (e : Insertion) : Insertion :=
  { e with offset := e.offset + bytes }

/-- The edit that many bytes and lines further on. -/
def Edit.shift (bytes lines : Int) (e : Edit) : Edit :=
  { e with toInsertion := e.toInsertion.shift bytes, anchor := e.anchor.shift bytes lines }

@[simp] theorem Insertion.shift_offset (bytes : Int) (e : Insertion) :
    (e.shift bytes).offset = e.offset + bytes := rfl

namespace Insertion

variable (es fs : List Insertion) (n : Nat)

theorem textAt_append : textAt (es ++ fs) n = textAt es n ++ textAt fs n := by
  rw [textAt, List.filter_append, List.flatMap_append]
  rfl

theorem textAt_shift (bytes : Nat) :
    textAt (es.map (shift bytes)) (bytes + n) = textAt es n := by
  have hoffset : ∀ e : Insertion,
      decide ((e.shift bytes).offset = (bytes + n : Nat)) = decide (e.offset = n) := by
    intro e
    rw [decide_eq_decide, shift_offset]
    omega
  rw [textAt, textAt, List.filter_map, List.flatMap_map]
  simp only [Function.comp_def, hoffset]
  rfl

end Insertion

namespace Text

variable {gap gap' : Nat → Text}

theorem filled_congr {start start' : Nat} {s : Text}
    (h : ∀ n ≤ s.length, gap' (start' + n) = gap (start + n)) :
    filled gap' start' s = filled gap start s := by
  induction s generalizing start start' with
  | nil => exact h 0 (Nat.le_refl 0)
  | cons b s ih =>
    have hmore : filled gap' (start' + 1) s = filled gap (start + 1) s := ih fun n hn => by
      rw [Nat.add_assoc, Nat.add_assoc, Nat.add_comm 1]
      exact h (n + 1) (Nat.succ_le_succ hn)
    rw [filled, filled, hmore, show gap' start' = gap start from h 0 (Nat.zero_le _)]

theorem filled_append_cons (start : Nat) (s : Text) (b : UInt8) (s' : Text) :
    filled gap start (s ++ b :: s') =
      filled gap start s ++ b :: filled gap (start + s.length + 1) s' := by
  induction s generalizing start with
  | nil => rfl
  | cons c s ih =>
    rw [List.cons_append, filled, ih, filled, List.length_cons, Nat.add_right_comm start 1,
      Nat.add_assoc start]
    simp

/-- Insertions into two texts with a byte between them. -/
theorem splice_append_cons {s s' : Text} {es es' : List Insertion} (b : UInt8)
    (h : ∀ e ∈ es, 0 ≤ e.offset ∧ e.offset ≤ s.length)
    (h' : ∀ e ∈ es', 0 ≤ e.offset ∧ e.offset ≤ s'.length) :
    (s ++ b :: s').splice (es ++ es'.map (Insertion.shift (s.length + 1))) =
      s.splice es ++ b :: s'.splice es' := by
  -- No offset of the first insertions lies in the second text, and the other way round.
  have hrange : ∀ e ∈ es ++ es'.map (Insertion.shift (s.length + 1)),
      0 ≤ e.offset ∧ e.offset ≤ (s ++ b :: s').length := by
    intro e he
    rw [List.length_append, List.length_cons]
    rcases List.mem_append.1 he with he | he
    · have := h e he
      omega
    · obtain ⟨f, hf, rfl⟩ := List.mem_map.1 he
      have := h' f hf
      rw [Insertion.shift_offset]
      omega
  have hleft : ∀ n ≤ s.length,
      Insertion.textAt (es ++ es'.map (Insertion.shift (s.length + 1))) (0 + n) =
        Insertion.textAt es (0 + n) := by
    intro n hn
    have hnone : Insertion.textAt (es'.map (Insertion.shift (s.length + 1))) (0 + n) = [] := by
      refine Insertion.textAt_eq_nil fun e he => ?_
      obtain ⟨f, hf, rfl⟩ := List.mem_map.1 he
      have := h' f hf
      rw [Insertion.shift_offset]
      omega
    rw [Insertion.textAt_append, hnone, List.append_nil]
  have hright : ∀ n ≤ s'.length,
      Insertion.textAt (es ++ es'.map (Insertion.shift (s.length + 1))) (0 + s.length + 1 + n) =
        Insertion.textAt es' (0 + n) := by
    intro n _
    have hnone : Insertion.textAt es (0 + s.length + 1 + n) = [] :=
      Insertion.textAt_eq_nil fun e he => by
        have := h e he
        omega
    rw [Insertion.textAt_append, hnone, List.nil_append, Nat.zero_add, Nat.zero_add]
    exact Insertion.textAt_shift es' n (s.length + 1)
  rw [splice_eq_filled hrange, splice_eq_filled h, splice_eq_filled h', filled_append_cons,
    filled_congr hleft, filled_congr hright]

end Text

/-! ## The two parses -/

namespace Stream

variable (stream : Stream) (o : Options) (ns ns' : List Item) (R R' : List Repair)

theorem module_report_append : (stream.report o (ns ++ ns') R).module =
    Module.mapWith stream.token (Expr.map (Extent.map stream.token)) (ns.map .item) ++
      Module.mapWith stream.token (Expr.map (Extent.map stream.token)) (ns'.map .item) := by
  rw [report, List.map_append]
  exact List.map_append

/-- Repairs are chosen one by one, so their edits and their tallies come together. -/
theorem edits_report_append : (stream.report o ns (R ++ R')).edits =
    (stream.report o ns R).edits ++ (stream.report o ns R').edits := by
  simp only [report, Correction.enabled, Correction.allEdits, List.map_append, List.filter_append,
    List.flatMap_append]

theorem tally_report_append (mark : Mark) : (stream.report o ns (R ++ R')).tally mark =
    (stream.report o ns R).tally mark + (stream.report o ns R').tally mark := by
  simp only [report, Correction.enabled, Correction.tally, Tally.ofList, List.map_append,
    List.filter_append, List.count_append]
  exact Int.natCast_add _ _

end Stream

namespace Stream.Sequel

variable {stream stream₁ stream₂ : Stream} {bytes lines : Int}
  (h : stream.Sequel stream₁ stream₂ bytes lines)
include h

/-- The places in the first source are where they were. Behind its last word a line ends, as it
ended there with the source. -/
theorem displaces_before : stream₁.Displaces stream stream₁.symbols.length 0 id id := by
  refine ⟨fun i hi => h.before i hi, fun _ _ _ => rfl, fun _ _ _ => rfl, fun i hi => ?_⟩
  rw [Nat.add_zero, Nat.add_zero, h.before i hi]
  rcases Nat.lt_or_eq_of_le hi with hlt | heq
  · rw [h.before (i + 1) hlt]
  · have hlen : i + 1 = stream₁.symbols.length := heq
    have hnext := h.behind 0
    have hbelow := h.below i hlen
    rw [Nat.zero_add, ← hlen] at hnext
    have hline : (stream.token (i + 1)).start.line ≠ (stream₁.token i).stop.line := by
      rw [hnext]
      exact (Int.ne_of_lt hbelow).symm
    have hend : (stream₁.token (i + 1)).kind = .endOfInput := by
      rw [hlen]
      exact h.ended
    rw [Correction.semicolonCategory_endOfInput hend, Correction.semicolonCategory]
    simp [hline]

/-- The places in the second source are on the lines below. -/
theorem displaces_behind :
    stream₂.Displaces stream stream₂.symbols.length stream₁.symbols.length
      (Token.shift bytes lines) (Edit.shift bytes lines) := by
  refine ⟨fun i _ => h.behind i, fun _ _ _ => rfl, fun _ _ _ => rfl, fun i _ => ?_⟩
  have hline : ∀ t t' : Token,
      decide ((t'.shift bytes lines).start.line = (t.shift bytes lines).stop.line) =
        decide (t'.start.line = t.stop.line) :=
    fun t t' => decide_eq_decide.2 (Int.add_left_inj lines)
  rw [h.behind, h.behind, Correction.semicolonCategory, hline]
  rfl

/-- Where both sources are read, they are read together: to the nodes, the edits and the marks of
both. -/
theorem exists_report {ns ms : List Item} {t u : State}
    (ht : Takes (State.start stream₁.symbols) ns t) (hend : t.rest = [])
    (hu : Takes (State.start stream₂.symbols) ms u) (hend' : u.rest = [])
    (hbegins : ∀ x, stream₂.symbols.head? = some x → x.kind ≠ .semicolon) (o : Options) :
    ∃ ns' v, Takes (State.start stream.symbols) ns' v ∧ v.rest = [] ∧
      let place := Token.shift bytes lines
      let first := stream₁.report o ns t.repairs.reverse
      let second := stream₂.report o ms u.repairs.reverse
      let joined := stream.report o ns' v.repairs.reverse
      joined.module =
          first.module ++ Module.mapWith place (Expr.map (Extent.map place)) second.module ∧
        joined.edits = first.edits ++ second.edits.map (Edit.shift bytes lines) ∧
        ∀ mark, joined.tally mark = first.tally mark + second.tally mark := by
  obtain ⟨w, hlabels, hsymbols⟩ := h.symbols
  obtain ⟨ns', ms', v, hv, hrest, hrepairs, hmodule, hmodule'⟩ :=
    ht.sequel hlabels hend hu hend' h.semicolon hbegins
      (fun i hi => (h.before i hi).symm) (fun i _ => (h.behind i).symm)
  -- The repairs of the first source, then those of the second one.
  have hreversed : v.repairs.reverse = (t.repairs.reverse.map (Repair.move 0)) ++
      u.repairs.reverse.map (Repair.move stream₁.symbols.length) := by
    rw [hrepairs, List.reverse_append, Repair.map_move_zero, List.map_reverse]
  have hanchored := ht.anchored hend
  have hanchored' := hu.anchored hend'
  refine ⟨ns' ++ ms', v, hsymbols ▸ hv, hrest, ?_, ?_, ?_⟩
  · rw [module_report_append, hmodule, hmodule', Stream.report, Stream.report,
      Module.mapWith_extent]
    rfl
  · rw [hreversed, edits_report_append, h.displaces_before.edits_report hanchored o ns,
      h.displaces_behind.edits_report hanchored' o ms, List.map_id]
  · intro mark
    rw [hreversed, tally_report_append, h.displaces_before.tally_report hanchored o ns,
      h.displaces_behind.tally_report hanchored' o ms]

end Stream.Sequel

namespace Document

/-- What has been parsed has been read as items. -/
theorem exists_takes {tokens : List Token} {source : Text} {o : Options} {report : Report}
    (h : parseTokens tokens source o = .ok report) :
    ∃ ns t, Takes (State.start (Stream.ofTokens tokens).symbols) ns t ∧ t.rest = [] ∧
      report = (Stream.ofTokens tokens).report o ns t.repairs.reverse := by
  obtain ⟨ns, t, htakes, ht | ⟨ht, why, u, hu⟩⟩ :=
    Takes.exists_takes (State.start (Stream.ofTokens tokens).symbols)
  · rw [parseTokens_of_takes htakes ht] at h
    exact ⟨ns, t, htakes, ht, (Except.ok.inj h).symm⟩
  · rw [parseTokens_of_rejected htakes ht hu] at h
    cases h

/-- The first symbol of a source is its first significant token, unless there is none. -/
theorem kind_of_head {s : Text} {x : Symbol} (hx : (Stream.ofSource s).symbols.head? = some x) :
    ∃ t, (Lexer.lex s true).find? Token.isSignificant = some t ∧ t.kind = x.kind := by
  obtain ⟨body, q, hbody, hall⟩ := Lexer.tokens_shape Position.start s
  have htokens : Lexer.lex s true = body ++ [Token.endAt q] := hbody
  rw [Stream.symbols_ofSource hbody fun t ht => (hall t ht).1, List.head?_map] at hx
  obtain ⟨y, hy, rfl⟩ := Option.map_eq_some_iff.1 hx
  have hwords := congrArg List.head? (Stream.map_fst_significant false body)
  rw [List.head?_map, hy, List.head?_filter, Option.map_some] at hwords
  refine ⟨y.1, ?_, rfl⟩
  rw [htokens, List.find?_append, ← hwords]
  rfl

/-- The edits of both sources make the two repaired texts. -/
theorem text_apply_sequel {s s' : Text} {report report' joined : Report} {lines : Int}
    (h : joined.edits = report.edits ++ report'.edits.map (Edit.shift (s.length + 1) lines))
    (hplaced : ∀ e ∈ report.edits, e.Placed s) (hplaced' : ∀ e ∈ report'.edits, e.Placed s') :
    (apply (s ++ Text.lineFeed :: s') joined).text =
      (apply s report).text ++ Text.lineFeed :: (apply s' report').text := by
  have hinsertions : joined.edits.map Edit.toInsertion = report.edits.map Edit.toInsertion ++
      (report'.edits.map Edit.toInsertion).map (Insertion.shift (s.length + 1)) := by
    rw [h, List.map_append, List.map_map, List.map_map]
    rfl
  have hsplice := Text.splice_append_cons Text.lineFeed (Edit.Placed.range hplaced)
    (Edit.Placed.range hplaced')
  rw [← hinsertions] at hsplice
  exact hsplice

/-- Two sources that are parsed on their own are parsed together, one below the other, if the first
one ends with a semicolon and the second one does not begin with one. The report has the nodes of
both, those of the second source with their tokens on the lines below; it has the edits of both; its
tally is the sum; and the repaired sources are put together in the same way. -/
theorem parse_sequel {s s' : Text} {o : Options} {report report' : Report}
    (h : parse s o = .ok report) (h' : parse s' o = .ok report') {t : Token}
    (ht : (Lexer.lex s true).dropLast.getLast? = some t) (hk : t.kind = .semicolon)
    (hfirst : ∀ t, (Lexer.lex s' true).find? Token.isSignificant = some t → t.kind ≠ .semicolon) :
    let lines := (Stream.ofSource s).finish.start.line
    let place := Token.shift (s.length + 1) lines
    let whole := s ++ Text.ascii "\n" ++ s'
    ∃ joined, parse whole o = .ok joined ∧
      joined.module = report.module ++
        Module.mapWith place (Expr.map (Extent.map place)) report'.module ∧
      joined.edits = report.edits ++ report'.edits.map (Edit.shift (s.length + 1) lines) ∧
      (∀ mark, joined.tally mark = report.tally mark + report'.tally mark) ∧
      (apply whole joined).text =
        (apply s report).text ++ Text.ascii "\n" ++ (apply s' report').text := by
  intro lines place whole
  have hwhole : whole = s ++ Text.lineFeed :: s' := List.append_assoc s (Text.ascii "\n") s'
  have hvalid : ∀ t ∈ Lexer.tokens s, t.kind ≠ .error := by
    obtain ⟨_, _, _, _, hrepairs, -⟩ := parse_retraced (fun _ _ => false) h
    exact fun t ht => hrepairs.kind_ne_error ht
  have hbegins : ∀ x, (Stream.ofSource s').symbols.head? = some x → x.kind ≠ .semicolon := by
    intro x hx hkind
    obtain ⟨t, ht, hsame⟩ := kind_of_head hx
    exact hfirst t ht (hsame.trans hkind)
  have hplaced := (edits_placed h).1
  have hplaced' := (edits_placed h').1
  obtain ⟨ns, u, hu, hend, rfl⟩ := exists_takes h
  obtain ⟨ms, u', hu', hend', rfl⟩ := exists_takes h'
  obtain ⟨ns', v, hv, hrest, hmodule, hedits, htally⟩ :=
    (Stream.ofSource_sequel hvalid ht hk).exists_report hu hend hu' hend' hbegins o
  rw [hwhole]
  refine ⟨_, parseTokens_of_takes hv hrest _ o, hmodule, hedits, htally, ?_⟩
  rw [List.append_assoc]
  exact text_apply_sequel hedits hplaced hplaced'

/-- The first source misses a parenthesis, the second one begins with line breaks and misses a
conversion and a semicolon. -/
theorem parse_sequel_branch :
    let s := Text.ascii "if a > 1) discard;"
    let s' := Text.ascii "\r\n\nfloat b = 1.0 + c\nint d = 2.0;"
    ∃ report report', parse s Options.all = .ok report ∧ parse s' Options.all = .ok report' ∧
      report.edits.length = 1 ∧ report'.edits.length = 3 ∧
      let lines := (Stream.ofSource s).finish.start.line
      let place := Token.shift (s.length + 1) lines
      let whole := s ++ Text.ascii "\n" ++ s'
      ∃ joined, parse whole Options.all = .ok joined ∧
        joined.module = report.module ++
          Module.mapWith place (Expr.map (Extent.map place)) report'.module ∧
        joined.edits = report.edits ++ report'.edits.map (Edit.shift (s.length + 1) lines) ∧
        (∀ mark, joined.tally mark = report.tally mark + report'.tally mark) ∧
        (apply whole joined).text =
          (apply s report).text ++ Text.ascii "\n" ++ (apply s' report').text := by
  intro s s'
  have hfirst : (parse s Options.all).toOption.map (fun report => report.edits.length) = some 1 ∧
      (parse s' Options.all).toOption.map (fun report => report.edits.length) = some 3 ∧
      ((Lexer.lex s true).dropLast.getLast?).map Token.kind = some .semicolon ∧
      ((Lexer.lex s' true).find? Token.isSignificant).map Token.kind = some .identifier := by
    simp only [parse, Lexer.lex_eq_scan]
    decide +kernel
  obtain ⟨hedits, hedits', hlast, hhead⟩ := hfirst
  obtain ⟨report, hreport, hlen⟩ := exists_ok_of_map hedits
  obtain ⟨report', hreport', hlen'⟩ := exists_ok_of_map hedits'
  obtain ⟨t, ht, hk⟩ := Option.map_eq_some_iff.1 hlast
  have hbegins : ∀ t, (Lexer.lex s' true).find? Token.isSignificant = some t →
      t.kind ≠ .semicolon := by
    intro t ht hkind
    rw [ht, Option.map_some, hkind] at hhead
    cases hhead
  exact ⟨report, report', hreport, hreport', hlen, hlen',
    parse_sequel hreport hreport' ht hk hbegins⟩

end Document

end ShaderRepair

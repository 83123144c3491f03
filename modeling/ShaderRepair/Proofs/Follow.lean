import ShaderRepair.Descent.Statement
import ShaderRepair.Proofs.ConversionDocument
import ShaderRepair.Proofs.Cursor
import ShaderRepair.Proofs.Omission
import ShaderRepair.Proofs.RetraceDeclaration
import ShaderRepair.Proofs.Significant

/-!
# Descents follow procedures

A procedure of the grammar sees symbols and cannot see options. A step of a descent looks at tokens,
and it makes edits or leaves them out as the options say. Nevertheless it goes the same way. This
file contains:
- `Descent.Input.Tracks`: a descent stands where a state of the grammar does, and of the repairs
  noted there it has made those that the options ask for;
- `Descent.Input.Follows`: from there on a step does what a procedure does;
- one rule for each step;
- `Descent.Input.FollowsRules`, what is said of the rules.
-/

namespace ShaderRepair

namespace Descent

open Grammar

variable {α β γ δ : Type}

/-! ## Runs of steps -/

section Run

variable (p : Descent)

/-- The only lemma that opens the monad: a step goes on unless it fails. -/
theorem run_bind (m : Step α) (k : α → Step β) :
    (m >>= k).run.run p =
      match m.run.run p with
      | (.ok a, q) => (k a).run.run q
      | (.error e, q) => (.error e, q) := by
  change (m.run >>= ExceptT.bindCont k).run p = _
  rw [StateT.run_bind]
  rcases m.run.run p with ⟨_ | a, q⟩
  · rfl
  · rfl

theorem run_get (k : Descent → Step α) : (get >>= k).run.run p = (k p).run.run p := rfl

theorem run_peek (k : Token → Step α) :
    (peek >>= k).run.run p = (k (p.tokenAt (p.front false))).run.run p := rfl

theorem run_peekStrict (k : Token → Step α) :
    (peekStrict >>= k).run.run p = (k (p.tokenAt (p.front true))).run.run p := rfl

theorem run_take :
    take.run.run p =
      (.ok ⟨(p.tokenAt (p.front false)).lexeme, p.tokenAt (p.front false)⟩, p.pass) := rfl

theorem run_fail (t : Token) (expected : List Expectation) :
    (fail t expected : Step α).run.run p =
      (.error ⟨expected.map Expectation.describe, t, p.source⟩, p) := rfl

end Run

/-! ## Tokens and symbols -/

/-- The token makes the symbol. All ends of input make the same one. -/
structure Shows (t : Token) (x : Symbol) : Prop where
  kind : t.kind = x.kind
  same : x.kind ≠ .endOfInput → x = Symbol.ofToken x.broken t

namespace Shows

variable {t : Token} {x : Symbol}

theorem plays (h : Shows t x) (r : Role) : (seen t).plays r = x.plays r := by
  by_cases hx : x.kind = .endOfInput
  · have hnot : ∀ y : Symbol, y.kind = .endOfInput → y.plays r = false := by
      intro y hy
      rw [Symbol.plays, hy]
      rfl
    rw [hnot x hx, hnot (seen t) (h.kind.trans hx)]
  · rw [h.same hx]
    rfl

theorem startsExpression (h : Shows t x) : (seen t).startsExpression = x.startsExpression := by
  have hkind : (seen t).kind = x.kind := h.kind
  simp only [Symbol.startsExpression, hkind, h.plays]

theorem ends (h : Shows t x) (stop : Stop) : stop.ends (seen t) = stop.ends x := by
  have hkind : (seen t).kind = x.kind := h.kind
  simp only [Stop.ends, hkind]

theorem tags (h : Shows t x) (hx : x.kind ≠ .endOfInput) : t.tags = x.tags := by
  rw [h.same hx]
  rfl

theorem accepts_of_kind (h : Shows t x) (hx : x.kind ≠ .endOfInput) (e : Expectation) :
    e.accepts (seen t) = e.accepts x := by
  rw [h.same hx]
  cases e <;> rfl

/-- They are acceptable alike where no end of input is acceptable. -/
theorem accepts (h : Shows t x) {expected : List Expectation}
    (he : ∀ y, (expected.any fun e => e.accepts y) = true → Passable y) :
    (expected.any fun e => e.accepts (seen t)) = expected.any fun e => e.accepts x := by
  by_cases hx : x.kind = .endOfInput
  · have hnot : ∀ y, y.kind = .endOfInput → (expected.any fun e => e.accepts y) = false :=
      fun y hy => Bool.eq_false_iff.2 fun hacc => (he y hacc).2 hy
    rw [hnot x hx, hnot (seen t) (h.kind.trans hx)]
  · simp only [h.accepts_of_kind hx]

end Shows

/-- A strict look finds the token, or a line break if there is one before the symbol. -/
structure Strict (u t : Token) (x : Symbol) : Prop where
  broken : x.kind ≠ .endOfInput → x.broken = decide (u.kind = .lineBreak)
  same : u.kind ≠ .lineBreak → u = t

namespace Strict

variable {u t : Token} {x : Symbol}

/-- What has to begin on a line does so for both of them. -/
theorem onLine_iff (h : Strict u t x) {b b' : Bool} (hb : b' = b)
    (hend : b = true → x.kind ≠ .endOfInput) :
    (b' && decide (u.kind ≠ .lineBreak)) = true ↔ (b && !x.broken) = true := by
  cases b with
  | false => simp [hb]
  | true => simp [hb, h.broken (hend rfl)]

/-- A strict look meets a symbol of a kind if it is next and on the line. -/
theorem kind_iff (h : Strict u t x) (ht : Shows t x) {k : Kind}
    (hk : k ≠ .lineBreak ∧ k ≠ .endOfInput) :
    u.kind = k ↔ (decide (x.kind = k) && !x.broken) = true := by
  rw [Bool.and_eq_true, decide_eq_true_eq, Bool.not_eq_true']
  constructor
  · intro hu
    have hline : u.kind ≠ .lineBreak := hu ▸ hk.1
    have hx : x.kind = k := by rw [← ht.kind, ← h.same hline, hu]
    exact ⟨hx, by rw [h.broken (hx ▸ hk.2), decide_eq_false hline]⟩
  · rintro ⟨hx, hbroken⟩
    rw [h.broken (hx ▸ hk.2), decide_eq_false_iff_not] at hbroken
    rw [h.same hbroken, ht.kind, hx]

/-- A line break makes no symbol that an expression can begin with. -/
theorem startsExpression (h : Strict u t x) (ht : Shows t x) :
    (seen u).startsExpression = (x.startsExpression && !x.broken) := by
  by_cases hu : u.kind = .lineBreak
  · have hleft : (seen u).startsExpression = false := by
      simp [Symbol.startsExpression, Symbol.plays, seen, Symbol.ofToken, hu]
    rw [hleft, Eq.comm, Bool.and_eq_false_imp]
    intro hx
    have hend : x.kind ≠ .endOfInput := by
      intro hend
      simp [Symbol.startsExpression, Symbol.plays, hend] at hx
    simp [h.broken hend, hu]
  · rw [h.same hu, ht.startsExpression]
    by_cases hend : x.kind = .endOfInput
    · simp [Symbol.startsExpression, Symbol.plays, hend]
    · simp [h.broken hend, hu]

end Strict

/-! ## The same place -/

/-- What a parse is given. -/
structure Input where
  tokens : List Token
  source : Text
  options : Options

namespace Input

variable (w : Input)

def stream : Stream :=
  Stream.ofTokens w.tokens

/-- The token of a symbol, by number. -/
def token (i : Nat) : Token :=
  w.stream.token i

/-- An expression with tokens for numbers. -/
def tree (e : Grammar.Tree) : Descent.Tree :=
  e.map (Extent.map w.token)

def correction (r : Repair) : Correction :=
  Correction.ofRepair w.stream r

/-- The edits of a conversion that starts with the symbol `first` and ends before the symbol `n`. -/
def conversionEdits (type : Text) (first n : Nat) : List Edit :=
  [Correction.before (w.token first) (type ++ Text.ascii "("),
    Correction.after (w.token (n - 1)) (Text.ascii ")")]

/-- The corrections that the options ask for, of those that were noted. -/
def chosen (repairs : List Repair) : List Correction :=
  Correction.enabled w.options (repairs.reverse.map w.correction)

def error (why : Rejection) : ParseError :=
  ⟨why.expected.map Expectation.describe, w.token why.index, w.source⟩

/-- The descent stands where the state does, and it has made the corrections that are asked for. -/
structure Tracks (s : State) (p : Descent) : Prop where
  tokens : p.tokens = Cursor.ended w.tokens
  source : p.source = w.source
  options : p.options = w.options
  inside : p.place < p.tokens.length
  ahead : Cursor.seen false (p.tokens.drop p.place) = (Stream.pairs w.tokens).drop s.passed
  finish : (p.tokens.drop p.place).find? (fun t => t.kind = .endOfInput) =
    some (Stream.finishOf w.tokens)
  rest : s.rest = w.stream.symbols.drop s.passed
  last : 0 < s.passed → p.last = w.token (s.passed - 1)
  edits : p.edits = Correction.allEdits (w.chosen s.repairs)
  tally : p.tally = Correction.tally (w.chosen s.repairs)

namespace Tracks

variable {w} {s : State} {p : Descent}

theorem ended (h : w.Tracks s p) : Cursor.Ended p.tokens :=
  h.tokens ▸ Cursor.ended_ended w.tokens

/-- The symbols left are ahead of the place. -/
theorem faces (h : w.Tracks s p) : Cursor.Faces p.tokens p.place s.rest := by
  refine ⟨h.inside, ?_⟩
  rw [h.rest, Cursor.symbols, h.ahead]
  exact (List.map_drop ..)

theorem length_rest_le (h : w.Tracks s p) : s.rest.length ≤ p.tokens.length := by
  rw [h.rest, h.tokens, List.length_drop]
  exact Nat.le_trans (Nat.sub_le _ _)
    (Nat.le_trans (Stream.length_symbols_le w.tokens) (Cursor.length_le_ended w.tokens))

theorem tokenAt_eq {i : Nat} {t : Token} (ht : p.tokens[i]? = some t) : p.tokenAt i = t := by
  rw [tokenAt, List.getD_eq_getElem?_getD, ht]
  rfl

/-- The token ahead makes the next symbol and has its number, and a strict look tells whether a line
break comes first. -/
theorem look (h : w.Tracks s p) :
    p.tokenAt (p.front false) = w.token s.passed ∧ Shows (w.token s.passed) s.next ∧
      Strict (p.tokenAt (p.front true)) (w.token s.passed) s.next := by
  obtain ⟨t, u, ht, hu, hsame, hcase⟩ := Cursor.exists_ahead h.ended h.inside false
  have hfront : p.tokenAt (p.front false) = t := tokenAt_eq ht
  have hstrict : p.tokenAt (p.front true) = u := tokenAt_eq hu
  rw [hfront, hstrict]
  have hsymbols := h.rest
  rw [stream, Stream.symbols_ofTokens, ← List.map_drop, ← h.ahead] at hsymbols
  have hpair : (Stream.pairs w.tokens)[s.passed]? =
      (Cursor.seen false (p.tokens.drop p.place))[0]? := by
    rw [h.ahead, List.getElem?_drop, Nat.add_zero]
  rcases hcase with ⟨hk, hnil, hfind⟩ | ⟨hk, -, hcons, -⟩
  · -- At the end of input.
    rw [hnil] at hsymbols hpair
    have htoken : w.token s.passed = t := by
      rw [token, stream, Stream.token_of_none hpair]
      exact Option.some.inj (h.finish.symm.trans hfind)
    have hnext : s.next = Symbol.finish := by
      rw [State.next, hsymbols]
      rfl
    rw [htoken, hnext]
    refine ⟨rfl, ⟨hk, fun hne => absurd rfl hne⟩, fun hne => absurd rfl hne, fun hu => ?_⟩
    exact hsame.resolve_left hu
  · rw [hcons] at hsymbols hpair
    have htoken : w.token s.passed = t := Stream.token_of_pair hpair
    have hnext : s.next = Symbol.ofToken (decide (u.kind = .lineBreak)) t := by
      rw [State.next, hsymbols]
      simp
    rw [htoken, hnext]
    exact ⟨rfl, ⟨rfl, fun _ => rfl⟩, fun _ => rfl, hsame.resolve_left⟩

/-- A token that makes a symbol is passed. It is not the last one in the list. -/
theorem pass_eq (h : w.Tracks s p) (hx : Passable s.next) :
    p.front false < p.tokens.length - 1 ∧
      p.pass = { p with place := p.front false + 1, last := w.token s.passed } ∧
      Cursor.seen false (p.tokens.drop (p.front false + 1)) =
        (Stream.pairs w.tokens).drop (s.passed + 1) ∧
      (p.tokens.drop (p.front false + 1)).find? (fun t => t.kind = .endOfInput) =
        some (Stream.finishOf w.tokens) := by
  obtain ⟨htoken, hshows, -⟩ := h.look
  obtain ⟨t, u, ht, -, -, hcase⟩ := Cursor.exists_ahead h.ended h.inside false
  have hfront : w.token s.passed = t := htoken.symm.trans (tokenAt_eq ht)
  have hk : t.kind ≠ .endOfInput := by
    rw [← hfront, hshows.kind]
    exact hx.2
  obtain ⟨-, hlt, hcons, hfind⟩ := hcase.resolve_left fun hend => hk hend.1
  refine ⟨hlt, ?_, ?_, hfind.symm.trans h.finish⟩
  · rw [Descent.pass, htoken, hfront]
    simp only [hk, if_false]
  · have htail := congrArg List.tail h.ahead
    rwa [hcons, List.tail_drop] at htail

/-- Passing a symbol passes its token. -/
theorem pass (h : w.Tracks s p) (hx : Passable s.next) : w.Tracks s.shift p.pass := by
  obtain ⟨more, hrest⟩ := State.rest_of_next rfl hx.2
  obtain ⟨hlt, hpass, hseen, hfind⟩ := h.pass_eq hx
  rw [State.shift_of_rest hrest, hpass]
  exact {
    tokens := h.tokens
    source := h.source
    options := h.options
    inside := by dsimp only; omega
    ahead := hseen
    finish := hfind
    rest := by
      rw [← List.drop_drop, ← h.rest, hrest]
      rfl
    last := fun _ => rfl
    edits := h.edits
    tally := h.tally }

/-- The expressions that have been made do not count. -/
theorem congr {t : State} (h : w.Tracks s p) (hrest : t.rest = s.rest)
    (hpassed : t.passed = s.passed) (hrepairs : t.repairs = s.repairs) : w.Tracks t p := by
  obtain ⟨rest, passed, repairs, pending⟩ := t
  obtain rfl : rest = s.rest := hrest
  obtain rfl : passed = s.passed := hpassed
  obtain rfl : repairs = s.repairs := hrepairs
  exact { h with }

theorem chosen_cons (r : Repair) (rs : List Repair) :
    w.chosen (r :: rs) =
      w.chosen rs ++
        if w.options.enables (w.correction r).category then [w.correction r] else [] := by
  simp only [chosen, Correction.enabled, List.reverse_cons, List.map_append, List.map_cons,
    List.map_nil, List.filter_append, List.filter_cons, List.filter_nil]

theorem tally_concat (cs : List Correction) (c : Correction) :
    Correction.tally (cs ++ [c]) =
      fun m => if m = c.mark then Correction.tally cs m + 1 else Correction.tally cs m := by
  funext m
  simp only [Correction.tally, Tally.ofList, List.map_append, List.map_cons, List.map_nil,
    List.count_append, List.count_singleton]
  by_cases hm : m = c.mark
  · simp [hm]
  · simp [hm, Ne.symm hm]

/-- Where a repair is noted its correction is made, or left out if it is not asked for. -/
theorem insert (h : w.Tracks s p) {m : Missing} {c : Correction}
    (hc : w.correction ⟨s.passed, m⟩ = c) :
    ∃ q, (Descent.insert (w.options.enables c.category) c.mark c.edits).run.run p = (.ok (), q) ∧
      w.Tracks (s.repair m) q := by
  have hchosen := chosen_cons (w := w) ⟨s.passed, m⟩ s.repairs
  rw [hc] at hchosen
  cases henabled : w.options.enables c.category with
  | true =>
    -- One more correction is chosen, and its edits come behind those made so far.
    rw [henabled, if_pos rfl] at hchosen
    refine ⟨_, rfl, { h with edits := ?_, tally := ?_ }⟩
    · change p.edits ++ c.edits = Correction.allEdits (w.chosen (⟨s.passed, m⟩ :: s.repairs))
      rw [hchosen, h.edits, Correction.allEdits, Correction.allEdits, List.flatMap_append,
        List.flatMap_singleton]
    · change (fun m => if m = c.mark then p.tally m + 1 else p.tally m) =
        Correction.tally (w.chosen (⟨s.passed, m⟩ :: s.repairs))
      rw [hchosen, tally_concat, h.tally]
  | false =>
    -- The repair is noted, but what is chosen stays the same.
    rw [henabled, if_neg Bool.false_ne_true, List.append_nil] at hchosen
    refine ⟨p, rfl, { h with edits := ?_, tally := ?_ }⟩
    · exact h.edits.trans (congrArg Correction.allEdits hchosen.symm)
    · exact h.tally.trans (congrArg Correction.tally hchosen.symm)

theorem run_check (h : w.Tracks s p) (k : Kind) (m : Bool → Step α) :
    (check k >>= m).run.run p = (m (decide (s.next.kind = k))).run.run p := by
  obtain ⟨htoken, hshows, -⟩ := h.look
  rw [← hshows.kind, ← htoken]
  rfl

/-- By induction on the number of semicolons that may still be passed. -/
theorem skipSemicolons (h : w.Tracks s p) {count : Nat} (hcount : s.rest.length ≤ count) :
    ∃ q, (Descent.skipSemicolons count).run.run p = (.ok (), q) ∧
      w.Tracks s.skipSemicolons q := by
  induction count generalizing s p with
  | zero =>
    have hrest : s.rest = [] := List.length_eq_zero_iff.1 (Nat.le_zero.1 hcount)
    have hk : s.next.kind ≠ .semicolon := by
      rw [State.next, hrest]
      decide
    rw [State.skipSemicolons_of_other hk]
    exact ⟨p, rfl, h⟩
  | succ count ih =>
    rw [Descent.skipSemicolons, h.run_check]
    by_cases hk : s.next.kind = .semicolon
    · have hpass : Passable s.next := .of_kind hk (by decide)
      have hlt := State.length_shift_lt hpass
      rw [decide_eq_true hk, if_pos rfl, run_bind, run_take, s.skipSemicolons_of_shift hk]
      exact ih (h.pass hpass) (by omega)
    · rw [decide_eq_false hk, if_neg Bool.false_ne_true, State.skipSemicolons_of_other hk]
      exact ⟨p, rfl, h⟩

/-! ### Lookahead for declarations -/

theorem next_of_lt {ts : List Token} {i : Nat} (hi : i < ts.length - 1) : i < Cursor.next ts i := by
  rw [Cursor.next, if_pos hi]
  exact Nat.lt_of_lt_of_le (Nat.lt_succ_self i) (Cursor.le_skip ts false (i + 1))

/-- The scan with a bound finds out what the scan without one does. -/
theorem scan_eq (hp : Cursor.Ended p.tokens) {depth i : Nat} {b : Bool}
    (h : Cursor.Scans p.tokens depth i b) {fuel : Nat} (hfuel : p.tokens.length ≤ fuel + i) :
    p.scan fuel depth i = b := by
  -- The scan moves on unless it is at the end of input.
  have hstep : ∀ {i : Nat} {t : Token} {fuel : Nat}, p.tokens[i]? = some t → t.kind ≠ .endOfInput →
      p.tokens.length ≤ fuel + 1 + i → p.tokens.length ≤ fuel + Cursor.next p.tokens i := by
    intro i t fuel ht hk hfuel
    obtain ⟨hi, rfl⟩ := List.getElem?_eq_some_iff.1 ht
    have hlt : i < p.tokens.length - 1 := by
      by_contra hlast
      exact hk (hp.kind_last hi hlast)
    have hnext := next_of_lt hlt
    omega
  have hpos : ∀ {i : Nat} {t : Token} {fuel : Nat}, p.tokens[i]? = some t →
      p.tokens.length ≤ fuel + i → ∃ n, fuel = n + 1 := by
    intro i t fuel ht hfuel
    obtain ⟨hi, -⟩ := List.getElem?_eq_some_iff.1 ht
    exact ⟨fuel - 1, by omega⟩
  induction h generalizing fuel with
  | name ht hk =>
    obtain ⟨n, rfl⟩ := hpos ht hfuel
    rw [scan, tokenAt_eq ht, if_neg hk]
  | @opening depth i b t ht hk h ih =>
    obtain ⟨n, rfl⟩ := hpos ht hfuel
    have hmore := ih (hstep ht (by rw [hk]; decide) hfuel)
    cases depth with
    | zero => rw [scan, tokenAt_eq ht, if_pos hk, hmore]
    | succ depth =>
      rw [scan, tokenAt_eq ht]
      simp only [hk, hmore]
  | closing ht hk h ih =>
    obtain ⟨n, rfl⟩ := hpos ht hfuel
    have hmore := ih (hstep ht (by rw [hk]; decide) hfuel)
    rw [scan, tokenAt_eq ht]
    simp only [hk, hmore]
  | stop ht hk =>
    obtain ⟨n, rfl⟩ := hpos ht hfuel
    rw [scan, tokenAt_eq ht]
    simp only [List.mem_cons, List.not_mem_nil, or_false] at hk
    rcases hk with hk | hk | hk | hk <;> simp only [hk]
  | @inside depth i b t ht hk h ih =>
    obtain ⟨n, rfl⟩ := hpos ht hfuel
    simp only [List.mem_cons, List.not_mem_nil, or_false, not_or] at hk
    obtain ⟨hend, hsemicolon, hleft, hright, hopen, hclose⟩ := hk
    have hmore := ih (hstep ht hend hfuel)
    rw [scan, tokenAt_eq ht]
    split
    · next heq => exact absurd heq hopen
    · next heq => exact absurd heq hclose
    · next heq => exact absurd heq hend
    · next heq => exact absurd heq hsemicolon
    · next heq => exact absurd heq hleft
    · next heq => exact absurd heq hright
    · exact hmore

/-- The lookahead finds out what the symbols ahead tell. -/
theorem run_declares (h : w.Tracks s p) (m : Bool → Step α) :
    (declares >>= m).run.run p = (m (Symbol.startsDeclaration s.rest)).run.run p := by
  have hdeclares := h.faces.declares h.ended
  have hrun : (declares >>= m).run.run p =
      (m ((p.tokenAt (p.front false)).kind = .identifier &&
        p.scan p.tokens.length 0 (Cursor.next p.tokens (p.front false)))).run.run p := rfl
  rw [hrun]
  refine congrArg (fun b => (m b).run.run p) ?_
  generalize Symbol.startsDeclaration s.rest = b at hdeclares
  cases hdeclares with
  | other ht hk => rw [front, tokenAt_eq ht, decide_eq_false hk, Bool.false_and]
  | name ht hk hscans =>
    rw [front, tokenAt_eq ht, decide_eq_true hk, Bool.true_and]
    exact scan_eq h.ended hscans (Nat.le_add_right _ _)

/-- The token after the next one makes the symbol after it. -/
theorem run_peekSecond (h : w.Tracks s p) (hx : Passable s.next) (m : Token → Step α) :
    ∃ t, Shows t s.second ∧ (peekSecond >>= m).run.run p = (m t).run.run p := by
  obtain ⟨hlt, hpass, -, -⟩ := h.pass_eq hx
  obtain ⟨htoken, hshows, -⟩ := (h.pass hx).look
  rw [s.next_shift hx] at hshows
  refine ⟨_, hshows, ?_⟩
  have hnext : p.tokenAt (Cursor.next p.tokens (p.front false)) = w.token s.shift.passed := by
    rw [← htoken, hpass, Cursor.next, if_pos hlt]
    rfl
  rw [← hnext]
  rfl

end Tracks

/-! ## The same way -/

/-- A step answers with what the procedure ends with, be it a result or an error. With a result it
still stands where the procedure does, which has passed `high` symbols at least. -/
def Agrees (w : Input) (high : Nat) (f : α → β) :
    Outcome α → Except ParseError β × Descent → Prop
  | .accepted a t, r => ∃ q, r = (.ok (f a), q) ∧ w.Tracks t q ∧ high ≤ t.passed
  | .rejected why _, r => ∃ q, r = (.error (w.error why), q)

/-- From the symbol `x` on, where at least `low` symbols are passed, the step `m` goes the way of
the procedure `p`. What it reads is what the procedure reads, with tokens for numbers. -/
def Follows (w : Input) (d low high : Nat) (x : Symbol) (f : α → β) (p : Procedure α)
    (m : Step β) : Prop :=
  ∀ ⦃s : State⦄ ⦃q : Descent⦄, w.Tracks s q → s.next = x → low ≤ s.passed →
    w.Agrees high f (p.exec (Rule.run d) s) (m.run.run q)

/-- Whether the initializer of a variable has to be converted. -/
def needed (type : TypeSpec Nat Grammar.Tree) (dims : List (Option Grammar.Tree))
    (e : Grammar.Tree) : Bool :=
  type.dims.isEmpty && dims.isEmpty && e.needsConversion type.name.text

namespace Follows

variable {w} {d low mid high : Nat} {x : Symbol} {f : α → β} {g : γ → δ} {p : Procedure α}
  {m : Step β}

/-! ### Weaker statements -/

theorem mono {high' : Nat} (h : w.Follows d low high x f p m) (hhigh : high' ≤ high) :
    w.Follows d low high' x f p m := by
  intro s q hs hx hlow
  have hrun := h hs hx hlow
  cases hp : p.exec (Rule.run d) s with
  | accepted a t =>
    rw [hp] at hrun
    obtain ⟨q', hm, ht, hle⟩ := hrun
    exact ⟨q', hm, ht, Nat.le_trans hhigh hle⟩
  | rejected why t =>
    rw [hp] at hrun
    exact hrun

/-- More may have been passed than is asked for. -/
theorem later {low' : Nat} (h : w.Follows d low high x f p m) (hlow : low ≤ low') :
    w.Follows d low' high x f p m :=
  fun _ _ hs hx hlow' => h hs hx (Nat.le_trans hlow hlow')

/-! ### Results and sequences -/

theorem done {a : α} {b : β} (hb : b = f a) (hhigh : high ≤ low) :
    w.Follows d low high x f (.done a) (pure b) :=
  fun _ q hs _ hlow => ⟨q, hb ▸ rfl, hs, Nat.le_trans hhigh hlow⟩

theorem pure {a : α} {b : β} (hb : b = f a) (hhigh : high ≤ low) :
    w.Follows d low high x f (Pure.pure a) (Pure.pure b) :=
  done hb hhigh

/-- One after the other. -/
theorem bind {p : Procedure γ} {m : Step δ} {k : γ → Procedure α} {k' : δ → Step β}
    (h : w.Follows d low mid x g p m)
    (hk : ∀ c y, w.Follows d mid high y f (k c) (k' (g c))) :
    w.Follows d low high x f (p >>= k) (m >>= k') := by
  intro s q hs hx hlow
  have hrun := h hs hx hlow
  rw [Procedure.exec_bind, run_bind]
  cases hp : p.exec (Rule.run d) s with
  | accepted c t =>
    rw [hp] at hrun
    obtain ⟨q', hm, ht, hmid⟩ := hrun
    rw [hm]
    exact hk c t.next ht rfl hmid
  | rejected why t =>
    rw [hp] at hrun
    obtain ⟨q', hm⟩ := hrun
    rw [hm]
    exact ⟨q', rfl⟩

theorem map {k : γ → α} {k' : δ → β} {p : Procedure γ} {m : Step δ}
    (h : w.Follows d low high x g p m) (hk : ∀ c, k' (g c) = f (k c)) :
    w.Follows d low high x f (k <$> p) (k' <$> m) := by
  rw [map_eq_pure_bind, map_eq_pure_bind]
  exact bind h fun c _ => pure (hk c) (Nat.le_refl _)

/-- What may be left out. -/
theorem optional {g : γ → δ} {p : Procedure γ} {m : Step δ} (h : w.Follows d low high x g p m) :
    w.Follows d low high x (Option.map g) (some <$> p) (some <$> m) :=
  map h fun _ => rfl

theorem omitted {g : γ → δ} :
    w.Follows d low low x (Option.map g) (Pure.pure none) (Pure.pure none) :=
  pure rfl (Nat.le_refl _)

/-- Both take the same branch. -/
theorem choose {c c' : Prop} [Decidable c] [Decidable c'] {p₁ p₂ : Procedure α} {m₁ m₂ : Step β}
    (hc : c' ↔ c) (hyes : c → w.Follows d low high x f p₁ m₁)
    (hno : ¬c → w.Follows d low high x f p₂ m₂) :
    w.Follows d low high x f (if c then p₁ else p₂) (if c' then m₁ else m₂) := by
  by_cases h : c
  · rw [if_pos h, if_pos (hc.2 h)]
    exact hyes h
  · rw [if_neg h, if_neg (mt hc.1 h)]
    exact hno h

/-! ### Looking ahead -/

/-- The number of the next symbol is that of the next token. -/
theorem position {k : Nat → Procedure α} {k' : Token → Step β}
    (h : ∀ i, low ≤ i → w.Follows d i high x f (k i) (k' (w.token i))) :
    w.Follows d low high x f (Procedure.position >>= k) (peek >>= k') := by
  intro s q hs hx hlow
  rw [run_peek, hs.look.1]
  exact h s.passed hlow hs hx (Nat.le_refl _)

theorem next {k : Symbol → Procedure α} {k' : Token → Step β}
    (h : ∀ t, Shows t x → w.Follows d low high x f (k x) (k' t)) :
    w.Follows d low high x f (Procedure.next >>= k) (peek >>= k') := by
  intro s q hs hx hlow
  obtain ⟨htoken, hshows, -⟩ := hs.look
  rw [run_peek, htoken]
  rw [hx] at hshows
  have hrun := h _ hshows hs hx hlow
  rwa [← hx] at hrun

/-- The number and the symbol are looked up at once. -/
theorem position_next {k : Nat → Symbol → Procedure α} {k' : Token → Step β}
    (h : ∀ i, low ≤ i → Shows (w.token i) x →
      w.Follows d i high x f (k i x) (k' (w.token i))) :
    w.Follows d low high x f (Procedure.position >>= fun i => Procedure.next >>= k i)
      (peek >>= k') := by
  intro s q hs hx hlow
  obtain ⟨htoken, hshows, -⟩ := hs.look
  rw [run_peek, htoken]
  rw [hx] at hshows
  have hrun := h s.passed hlow hshows hs hx (Nat.le_refl _)
  rwa [← hx] at hrun

/-- Only the kind of the next symbol is asked for. -/
theorem check {k : Kind} {p₁ p₂ : Procedure α} {m₁ m₂ : Step β}
    (hyes : x.kind = k → w.Follows d low high x f p₁ m₁)
    (hno : x.kind ≠ k → w.Follows d low high x f p₂ m₂) :
    w.Follows d low high x f (Procedure.next >>= fun s => if s.kind = k then p₁ else p₂)
      (Descent.check k >>= fun b => if b = true then m₁ else m₂) := by
  intro s q hs hx hlow
  rw [hs.run_check, hx]
  have hchoice : w.Follows d low high x f (if x.kind = k then p₁ else p₂)
      (if decide (x.kind = k) = true then m₁ else m₂) :=
    choose decide_eq_true_iff hyes hno
  have hrun := hchoice hs hx hlow
  rwa [← hx] at hrun ⊢

/-- Both looks at once. -/
theorem next_strict {k : Symbol → Procedure α} {k' : Token → Token → Step β}
    (h : ∀ t u, Shows t x → Strict u t x → w.Follows d low high x f (k x) (k' t u)) :
    w.Follows d low high x f (Procedure.next >>= k)
      (peek >>= fun t => peekStrict >>= fun u => k' t u) := by
  intro s q hs hx hlow
  obtain ⟨htoken, hshows, hstrict⟩ := hs.look
  rw [run_peek, run_peekStrict, htoken]
  rw [hx] at hshows hstrict
  have hrun := h _ _ hshows hstrict hs hx hlow
  rwa [← hx] at hrun

/-- Only the strict look. -/
theorem strict {k : Symbol → Procedure α} {k' : Token → Step β}
    (h : ∀ t u, Shows t x → Strict u t x → w.Follows d low high x f (k x) (k' u)) :
    w.Follows d low high x f (Procedure.next >>= k) (peekStrict >>= k') := by
  intro s q hs hx hlow
  obtain ⟨-, hshows, hstrict⟩ := hs.look
  rw [run_peekStrict]
  rw [hx] at hshows hstrict
  have hrun := h _ _ hshows hstrict hs hx hlow
  rwa [← hx] at hrun

theorem second {k : Symbol → Procedure α} {k' : Token → Step β} (hx : Passable x)
    (h : ∀ y t, Shows t y → w.Follows d low high x f (k y) (k' t)) :
    w.Follows d low high x f (Procedure.second >>= k) (peekSecond >>= k') := by
  intro s q hs hsx hlow
  obtain ⟨t, ht, hrun⟩ := hs.run_peekSecond (hsx ▸ hx) k'
  rw [hrun]
  exact h s.second t ht hs hsx hlow

theorem ahead {k : Bool → Procedure α} {k' : Bool → Step β}
    (h : ∀ b, w.Follows d low high x f (k b) (k' b)) :
    w.Follows d low high x f (Procedure.ahead .done >>= k) (declares >>= k') := by
  intro s q hs hx hlow
  rw [hs.run_declares]
  exact h _ hs hx hlow

/-! ### Passing tokens -/

theorem take (hx : Passable x) :
    w.Follows d low (low + 1) x (Name.map w.token) Procedure.take Descent.take := by
  intro s q hs hsx hlow
  subst hsx
  obtain ⟨htoken, hshows, -⟩ := hs.look
  rw [exec_take, run_take, htoken]
  refine ⟨q.pass, ?_, hs.pass hx, ?_⟩
  · rw [Name.map, hshows.same hx.2]
    rfl
  · rw [(s.advances_shift hx).passed]
    exact Nat.succ_le_succ hlow

theorem reject {i : Nat} {expected : List Expectation} :
    w.Follows d low high x f (.reject i expected) (fail (w.token i) expected) := by
  intro s q hs _ _
  rw [run_fail, hs.source]
  exact ⟨q, rfl⟩

/-- The next symbol does not fit. -/
theorem reject_here {expected : List Expectation} :
    w.Follows d low high x f (Procedure.position >>= fun i => .reject i expected)
      (peek >>= fun t => fail t expected) :=
  position fun _ _ => reject

/-- The next symbol has to be acceptable. -/
theorem expect {expected : List Expectation}
    (he : ∀ y, (expected.any fun e => e.accepts y) = true → Passable y) :
    w.Follows d low (low + 1) x (Name.map w.token) (Procedure.expect expected)
      (Descent.expect expected) := by
  intro s q hs hx hlow
  obtain ⟨htoken, hshows, -⟩ := hs.look
  have hchoice : w.Follows d low (low + 1) x (Name.map w.token)
      (if expected.any fun e => e.accepts s.next then Procedure.take
        else Procedure.position >>= fun i => .reject i expected)
      (if expected.any fun e => e.accepts (seen (w.token s.passed)) then Descent.take
        else peek >>= fun t => fail t expected) := by
    refine choose (by rw [hshows.accepts he]) (fun hacc => ?_) fun _ => reject_here
    exact take (hx ▸ he _ hacc)
  have hstep : (Descent.expect expected).run.run q =
      (if expected.any fun e => e.accepts (seen (w.token s.passed)) then Descent.take
        else peek >>= fun t => fail t expected).run.run q := by
    rw [Descent.expect, run_peek, htoken]
    split
    · rfl
    · rw [run_peek, htoken]
  rw [hstep]
  exact hchoice hs hx hlow

theorem expect_kind {k : Kind} (hk : k ≠ .error ∧ k ≠ .endOfInput) :
    w.Follows d low (low + 1) x (Name.map w.token) (Procedure.expect [.kind k])
      (Descent.expect [.kind k]) :=
  expect fun _ hy => .of_kind (kind_of_expected hy) hk

/-- What comes behind a symbol of a kind may depend on that kind. -/
theorem expect_then {k : Kind} (hk : k ≠ .error ∧ k ≠ .endOfInput) {p : Name Nat → Procedure α}
    {m : Name Token → Step β}
    (h : x.kind = k → ∀ name y, w.Follows d (low + 1) high y f (p name) (m (name.map w.token))) :
    w.Follows d low high x f (Procedure.expect [.kind k] >>= p)
      (Descent.expect [.kind k] >>= m) := by
  by_cases hx : x.kind = k
  · exact bind (expect_kind hk) (h hx)
  · intro s q hs hsx hlow
    have hexpect : w.Follows d low (low + 1) x (Name.map w.token) (Procedure.expect [.kind k])
        (Descent.expect [.kind k]) := expect_kind hk
    have hrun := hexpect hs hsx hlow
    rw [Procedure.exec_bind, run_bind]
    cases hp : (Procedure.expect [.kind k]).exec (Rule.run d) s with
    | accepted name t =>
      exact absurd (kind_of_expected (exec_expect_accepted.1 hp).1) (hsx ▸ hx)
    | rejected why t =>
      rw [hp] at hrun
      obtain ⟨q', hm⟩ := hrun
      rw [hm]
      exact ⟨q', rfl⟩

/-- The next symbol is passed if it is acceptable. -/
theorem accept {e : Expectation} (he : ∀ y, e.accepts y = true → Passable y)
    {p₁ p₂ : Procedure α} {m₁ m₂ : Step β} (hyes : ∀ y, w.Follows d (low + 1) high y f p₁ m₁)
    (hno : w.Follows d low high x f p₂ m₂) :
    w.Follows d low high x f (Procedure.accept e >>= fun b => if b = true then p₁ else p₂)
      (Descent.accept e >>= fun b => if b = true then m₁ else m₂) := by
  intro s q hs hx hlow
  subst hx
  obtain ⟨htoken, hshows, -⟩ := hs.look
  have hsame : e.accepts (seen (w.token s.passed)) = e.accepts s.next := by
    have hany : ([e].any fun e => e.accepts (seen (w.token s.passed))) =
        [e].any fun e => e.accepts s.next := hshows.accepts fun y hy => he y (by simpa using hy)
    simpa using hany
  rw [Procedure.exec_bind, exec_accept, run_bind, Descent.accept, run_peek, htoken, hsame]
  cases hacc : e.accepts s.next with
  | true =>
    have hpass := he _ hacc
    simp only [if_true]
    rw [run_bind, run_take]
    have hpassed := (s.advances_shift hpass).passed
    rw [List.length_singleton] at hpassed
    exact hyes _ (hs.pass hpass) rfl (by omega)
  | false =>
    simp only [Bool.false_eq_true, if_false]
    exact hno hs rfl hlow

theorem accept_kind {k : Kind} (hk : k ≠ .error ∧ k ≠ .endOfInput) {p₁ p₂ : Procedure α}
    {m₁ m₂ : Step β} (hyes : ∀ y, w.Follows d (low + 1) high y f p₁ m₁)
    (hno : w.Follows d low high x f p₂ m₂) :
    w.Follows d low high x f
      (Procedure.accept (.kind k) >>= fun b => if b = true then p₁ else p₂)
      (Descent.accept (.kind k) >>= fun b => if b = true then m₁ else m₂) :=
  accept (fun _ hy => .of_accepts (e := .kind k) hy hk) hyes hno

/-! ### Extents and expressions -/

/-- The extent up to the symbol passed last. -/
theorem extentFrom {i : Nat} {t : Token} (ht : t = w.token i) (hpos : 0 < low) :
    w.Follows d low low x (Extent.map w.token) (Procedure.extentFrom i) (Descent.extentFrom t) := by
  intro s q hs _ hlow
  refine ⟨q, ?_, hs, hlow⟩
  have hlast := hs.last (Nat.lt_of_lt_of_le hpos hlow)
  have hrun : (Descent.extentFrom t).run.run q = (.ok ⟨t, q.last⟩, q) := rfl
  rw [hrun, ht, hlast]
  rfl

theorem widen {e : Grammar.Tree} {p : Procedure α} (h : w.Follows d low high x f p m) :
    w.Follows d low high x f (.widen e p) m :=
  fun _ _ hs hx hlow => h (hs.congr rfl rfl rfl) hx hlow

theorem build {e : Grammar.Tree} {p : Procedure α} (h : w.Follows d low high x f p m) :
    w.Follows d low high x f (.build e p) m :=
  fun _ _ hs hx hlow => h (hs.congr rfl rfl rfl) hx hlow

/-- A completed expression. -/
theorem make {i : Nat} {t : Token} {e : Extent Nat → Grammar.Tree}
    {e' : Extent Token → Descent.Tree} (ht : t = w.token i) (hpos : 0 < low)
    (he : ∀ X, e' (X.map w.token) = w.tree (e X)) :
    w.Follows d low low x w.tree (Procedure.make i e) (Descent.make t e') :=
  bind (extentFrom ht hpos) fun X _ => build (done (he X) (Nat.le_refl _))

/-! ### Punctuation that may be missing -/

/-- What a procedure notes a step inserts, if the options ask for it. -/
theorem note {missing : Missing} {m : Step Unit}
    (h : ∀ ⦃s : State⦄ ⦃q : Descent⦄, w.Tracks s q → low ≤ s.passed →
      ∃ c, w.correction ⟨s.passed, missing⟩ = c ∧
        m.run.run q = (insert (w.options.enables c.category) c.mark c.edits).run.run q) :
    w.Follows d low low x id (Procedure.note missing) m := by
  intro s q hs _ hlow
  obtain ⟨c, hc, hrun⟩ := h hs hlow
  obtain ⟨q', hinsert, hq'⟩ := hs.insert hc
  exact ⟨q', hrun.trans hinsert, hq', hlow⟩

/-- A mark is put behind the token passed last. -/
theorem note_behind {missing : Missing} {category : Category} {mark : Mark} {text : Text}
    {enabled : Options → Bool} (hpos : 0 < low)
    (hc : ∀ n, w.correction ⟨n, missing⟩ =
      ⟨category, mark, [Correction.after (w.token (n - 1)) text]⟩)
    (henabled : ∀ o, enabled o = o.enables category) :
    w.Follows d low low x id (Procedure.note missing)
      (get >>= fun p => insertBehind (enabled p.options) mark text) := by
  refine note fun s q hs hlow => ⟨_, hc s.passed, ?_⟩
  have hlast := hs.last (Nat.lt_of_lt_of_le hpos hlow)
  have hrun : (get >>= fun p => insertBehind (enabled p.options) mark text).run.run q =
      (insert (enabled q.options) mark [Correction.after q.last text]).run.run q := rfl
  rw [hrun, hlast, hs.options, henabled]

/-- A mark is passed, or else put in. -/
theorem orMissing {k : Kind} (hk : k ≠ .error ∧ k ≠ .endOfInput) {missing : Missing}
    {m : Step Unit} (h : w.Follows d low low x id (Procedure.note missing) m) :
    w.Follows d low low x id (Procedure.orMissing k missing)
      (Descent.accept (.kind k) >>= fun b => if b = true then Pure.pure () else m) :=
  accept_kind hk (fun _ => pure rfl (Nat.le_succ _)) h

theorem colon (hpos : 0 < low) : w.Follows d low low x id Procedure.colon Descent.colon :=
  orMissing (by decide) (note_behind hpos (fun _ => rfl) fun _ => rfl)

theorem comma (hpos : 0 < low) : w.Follows d low low x id Procedure.comma Descent.comma :=
  orMissing (by decide) (note_behind hpos (fun _ => rfl) fun _ => rfl)

theorem rightParen (hpos : 0 < low) :
    w.Follows d low low x id Procedure.rightParen Descent.rightParen :=
  orMissing (by decide) (note_behind hpos (fun _ => rfl) fun _ => rfl)

/-- An opening parenthesis is put before the next token, so nothing need be passed. -/
theorem leftParen : w.Follows d low low x id Procedure.leftParen Descent.leftParen := by
  refine orMissing (by decide) (note fun s q hs _ => ⟨_, rfl, ?_⟩)
  rw [run_peek, hs.look.1, run_get, hs.options]
  rfl

theorem enables_semicolonCategory (o : Options) (last next : Token) :
    o.enables (Correction.semicolonCategory last next) =
      if next.start.line = last.stop.line && next.kind ≠ .rightBrace &&
          next.kind ≠ .endOfInput then o.inline
      else o.semicolons := by
  rw [Correction.semicolonCategory]
  split <;> rfl

/-- The options for semicolons depend on the line of the next token. -/
theorem semicolon (hpos : 0 < low) :
    w.Follows d low low x id (Procedure.note .semicolon) insertSemicolon := by
  refine note fun s q hs hlow => ⟨_, rfl, ?_⟩
  have hlast := hs.last (Nat.lt_of_lt_of_le hpos hlow)
  have hrun : ∀ (b : Bool), (insertBehind b .semicolon (Text.ascii ";")).run.run q =
      (insert b .semicolon [Correction.after q.last (Text.ascii ";")]).run.run q := fun _ => rfl
  rw [insertSemicolon, run_peek, hs.look.1, run_get, hrun, hlast, hs.options]
  exact congrArg (fun b => (insert b .semicolon _).run.run q)
    (enables_semicolonCategory w.options (w.token (s.passed - 1)) (w.token s.passed)).symm

theorem clauseEnd (hpos : 0 < low) :
    w.Follows d low low x id Procedure.clauseEnd Descent.clauseEnd :=
  orMissing (by decide) (semicolon hpos)

/-- As many semicolons are passed as there are. -/
theorem semicolons (hx : x.kind = .semicolon) :
    w.Follows d low (low + 1) x id (.skipSemicolons (.done ()))
      (get >>= fun p => skipSemicolons p.tokens.length) := by
  intro s q hs hsx hlow
  obtain ⟨q', hrun, hq'⟩ := hs.skipSemicolons hs.length_rest_le
  refine ⟨q', ?_, hq', Nat.lt_of_le_of_lt hlow (s.lt_skipSemicolons (hsx ▸ hx))⟩
  rw [run_get, hrun]

theorem statementEnd (hpos : 0 < low) :
    w.Follows d low low x id Procedure.statementEnd Descent.statementEnd :=
  check (fun hx => (semicolons hx).mono (Nat.le_succ _)) fun _ => semicolon hpos

/-- Where a semicolon is next, something is passed. -/
theorem statementEnd_of_semicolon (hx : x.kind = .semicolon) :
    w.Follows d low (low + 1) x id Procedure.statementEnd Descent.statementEnd :=
  check semicolons fun hne => absurd hx hne

/-! ### Conversions -/

/-- A step looks types up only where conversions are asked for, a procedure always does. Where they
are not asked for, making one has no effect. -/
theorem run_convert (type : TypeSpec Nat Grammar.Tree) (dims : List (Option Grammar.Tree))
    (e : Grammar.Tree) (i : Nat) {s : State} {q : Descent} (hs : w.Tracks s q)
    (hpos : 0 < s.passed) :
    (Descent.convert (type.map w.token w.tree) (dims.map (Option.map w.tree)) (w.tree e)
        (w.token i)).run.run q =
      if needed type dims e then
        (insert w.options.conversions .conversion
          (w.conversionEdits type.name.text i s.passed)).run.run q
      else (.ok (), q) := by
  have htype : (w.tree e).type = e.type := Expr.type_map _ e
  have hname : (type.map w.token w.tree).name.text = type.name.text := rfl
  have hempty : (type.map w.token w.tree).dims.isEmpty = type.dims.isEmpty := List.isEmpty_map
  rw [Descent.convert, run_get, hs.options, hs.last hpos, htype, hname, hempty, List.isEmpty_map,
    needed, Expr.needsConversion]
  -- A step asks one thing after the other and the options first, a procedure asks all at once.
  cases w.options.conversions with
  | false => exact (ite_self ((.ok (), q) : Except ParseError Unit × Descent)).symm
  | true =>
    cases type.dims.isEmpty with
    | false => rfl
    | true =>
      cases dims.isEmpty with
      | false => rfl
      | true =>
        cases ValueType.lookup type.name.text with
        | none => rfl
        | some declared =>
          cases himplicit : e.type.implicitlyConvertible declared <;>
            cases hexplicit : e.type.explicitlyConvertible declared <;>
            simp only [himplicit, hexplicit] <;> rfl

/-- The conversion that a procedure notes is made where it is asked for. -/
theorem convert {type : TypeSpec Nat Grammar.Tree} {dims : List (Option Grammar.Tree)}
    {e : Grammar.Tree} {i : Nat} {p : Procedure α} {m : Step β} (hpos : 0 < low)
    (h : ∀ y, w.Follows d low high y f p m) :
    w.Follows d low high x f
      (if needed type dims e then
        Procedure.note (.conversion type.name.text i) >>= fun _ => p
      else p)
      (Descent.convert (type.map w.token w.tree) (dims.map (Option.map w.tree)) (w.tree e)
        (w.token i) >>= fun _ => m) := by
  intro s q hs hx hlow
  have hrun := run_convert type dims e i hs (Nat.lt_of_lt_of_le hpos hlow)
  obtain ⟨q', hinsert, hq'⟩ := hs.insert (m := .conversion type.name.text i)
    (c := ⟨.conversion, .conversion, w.conversionEdits type.name.text i s.passed⟩) rfl
  rw [show w.options.enables .conversion = w.options.conversions from rfl] at hinsert
  rw [run_bind, hrun]
  by_cases hneeded : needed type dims e = true
  · rw [if_pos hneeded, if_pos hneeded, hinsert]
    exact h _ hq' rfl hlow
  · rw [if_neg hneeded, if_neg hneeded]
    exact h _ hs rfl hlow

end Follows

/-! ## Rules -/

/-- What is said of the rules. Where at least `low` symbols are passed they go the way of those of
the grammar, and expressions pass another one. -/
structure FollowsRules (w : Input) (d : Nat) (rules : Rules) : Prop where
  item : ∀ {low x}, w.Follows d low low x (Node.map w.token w.tree) (Procedure.run .item) rules.item
  items : ∀ stop {low x}, w.Follows d low low x (Node.mapAll w.token w.tree)
    (Procedure.run (.items stop)) (rules.items stop)
  statement : ∀ {low x}, w.Follows d low low x (Node.map w.token w.tree) (Procedure.run .statement)
    rules.statement
  cases : ∀ {low x}, w.Follows d low low x (Case.mapAll w.token w.tree) (Procedure.run .cases)
    rules.cases
  qualifiers : ∀ found {low x}, w.Follows d low low x (Qualifiers.map w.token w.tree)
    (Procedure.run (.qualifiers found)) (rules.qualifiers (found.map w.token w.tree))
  layoutParams : ∀ {low x}, w.Follows d low low x (List.map (LayoutParam.map w.token w.tree))
    (Procedure.run .layoutParams) rules.layoutParams
  dims : ∀ {low x}, w.Follows d low low x (List.map (Option.map w.tree)) (Procedure.run .dims)
    rules.dims
  declarators : ∀ {low x}, w.Follows d low low x (List.map (Declarator.map w.token w.tree))
    (Procedure.run .declarators) rules.declarators
  vars : ∀ type name {low x}, w.Follows d low low x (List.map (Declarator.map w.token w.tree))
    (Procedure.run (.vars type name)) (rules.vars (type.map w.token w.tree) (name.map w.token))
  members : ∀ {low x}, w.Follows d low low x (List.map (Member.map w.token w.tree))
    (Procedure.run .members) rules.members
  params : ∀ {low x}, w.Follows d low low x (List.map (Param.map w.token w.tree))
    (Procedure.run .params) rules.params
  names : ∀ {low x}, w.Follows d low (low + 1) x (List.map (Name.map w.token))
    (Procedure.run .names) rules.names
  expression : ∀ {low x}, w.Follows d low (low + 1) x w.tree (Procedure.run .expression)
    rules.expression
  sequence : ∀ {low x}, w.Follows d low low x (List.map w.tree) (Procedure.run .sequence)
    rules.sequence
  assignment : ∀ {low x}, w.Follows d low (low + 1) x w.tree (Procedure.run .assignment)
    rules.assignment
  conditional : ∀ {low x}, w.Follows d low (low + 1) x w.tree (Procedure.run .conditional)
    rules.conditional
  binary : ∀ level {low x}, w.Follows d low (low + 1) x w.tree (Procedure.run (.binary level))
    (rules.binary level)
  binaryRest : ∀ level left {low x}, w.Follows d low low x w.tree
    (Procedure.run (.binaryRest level left)) (rules.binaryRest level (w.tree left))
  unary : ∀ {low x}, w.Follows d low (low + 1) x w.tree (Procedure.run .unary) rules.unary
  suffixes : ∀ object {low x}, w.Follows d low low x w.tree (Procedure.run (.suffixes object))
    (rules.suffixes (w.tree object))
  arguments : ∀ {low x}, w.Follows d low low x (List.map w.tree) (Procedure.run .arguments)
    rules.arguments
  primary : ∀ {low x}, w.Follows d low (low + 1) x w.tree (Procedure.run .primary) rules.primary
  initializer : ∀ {low x}, w.Follows d low (low + 1) x w.tree (Procedure.run .initializer)
    rules.initializer
  elements : ∀ {low x}, w.Follows d low low x (List.map w.tree) (Procedure.run .elements)
    rules.elements

end Input

end Descent

end ShaderRepair

import ShaderRepair.Proofs.Bookkeeping
import ShaderRepair.Proofs.Dispatch
import ShaderRepair.Proofs.Forest

/-!
# Calls of a session

A session answers one call after the other and keeps what it has: whatever a call answers, the next
one goes on from there. This file contains:
- `Session.performAll`, a session under any sequence of calls, and `Session.Extends`, one session
  has everything that another one has in front of its own;
- `Session.Grows`, what a call does to a session, with `Session.grows_advance` for one run and
  `Session.grows_performAll` for all calls;
- `Session.performAll_extends`: calls only append, and an answer that is a report is the last one.
-/

namespace ShaderRepair

open Grammar

/-! ## What stands in front -/

namespace Module

variable {μ ν α ε η : Type}

theorem mapWith_append (f : μ → ν) (g : ε → η) (m m' : Module μ ε) :
    mapWith f g (m ++ m') = mapWith f g m ++ mapWith f g m' :=
  List.map_append

/-- Numbers are given in order, so what is added behind does not change those in front. -/
theorem numbered_append (m m' : Module μ (Expr α)) : numbered m <+: numbered (m ++ m') := by
  rw [numbered, numbered, List.mapM_append]
  exact List.prefix_append _ _

theorem items_append (m m' : Module μ ε) : items (m ++ m') = items m ++ items m' :=
  List.filterMap_append

theorem arena_append (m m' : Module μ (Expr α)) : arena (m ++ m') = arena m ++ arena m' :=
  List.flatMap_append

end Module

namespace Correction

variable {cs cs' : List Correction}

theorem allEdits_of_prefix (h : cs <+: cs') : allEdits cs <+: allEdits cs' := by
  obtain ⟨more, rfl⟩ := h
  exact ⟨allEdits more, List.flatMap_append.symm⟩

theorem tally_of_prefix (h : cs <+: cs') (m : Mark) : tally cs m ≤ tally cs' m :=
  Int.ofNat_le.2 ((h.sublist.map Correction.mark).count_le m)

end Correction

namespace Session

/-! ## Calls -/

/-- What a session is asked to do. -/
inductive Call where
  | parse
  | setSource (source : Text)
  deriving DecidableEq, Repr

def perform (s : Session) : Call → Session
  | .parse => s.parse.2
  | .setSource source => s.setSource source

/-- The session after calls made one after the other. -/
def performAll (s : Session) (calls : List Call) : Session :=
  calls.foldl perform s

/-- The session `t` has the items, the expressions and the edits of `s` in front of its own, none of
its counts is lower, and the symbols that it has left are the last ones of those `s` had left. -/
structure Extends (s t : Session) : Prop where
  items : (Module.numbered s.module).items <+: (Module.numbered t.module).items
  arena : (Module.numbered s.module).arena <+: (Module.numbered t.module).arena
  edits : s.report.edits <+: t.report.edits
  tally : ∀ m, s.report.tally m ≤ t.report.tally m
  passed : s.state.passed ≤ t.state.passed
  rest : t.state.rest = s.state.rest.drop (t.state.passed - s.state.passed)

/-! ## Growth -/

/-- The session `t` came from `s` by passing symbols, noting repairs and adding pieces. -/
structure Grows (s t : Session) : Prop where
  stream : t.stream = s.stream
  options : t.options = s.options
  pieces : s.pieces <:+ t.pieces
  state : ∃ w R, Advances s.state t.state w R

variable {s m t : Session}

theorem Grows.refl (s : Session) : Grows s s :=
  ⟨rfl, rfl, List.suffix_refl _, [], [], .refl _⟩

theorem Grows.trans (h : Grows s m) (h' : Grows m t) : Grows s t := by
  obtain ⟨w, R, hw⟩ := h.state
  obtain ⟨w', R', hw'⟩ := h'.state
  exact ⟨h'.stream.trans h.stream, h'.options.trans h.options, h.pieces.trans h'.pieces,
    _, _, hw.trans hw'⟩

/-- A piece settles the expressions being read, which are no part of what grows. -/
theorem grows_push {w : List Symbol} {R : List Repair} (piece : Fragment Nat Tree) {u : State}
    (h : Advances s.state u w R) : s.Grows (s.push piece u) :=
  ⟨rfl, rfl, List.suffix_cons _ _, w, R, h.rest, h.passed, h.repairs⟩

/-- One run, accepted or not, by induction on the number of items. -/
theorem grows_advance (count : Nat) (s : Session) : s.Grows (s.advance count).1 := by
  induction count generalizing s with
  | zero => exact .refl s
  | succ count ih =>
    rw [advance]
    split
    · exact .refl s
    · obtain ⟨w, R, hitem⟩ : ∃ w R, Advances s.state (item? s.state).state w R :=
        Rule.run_state_advances _ .item _
      split
      · next n u hn =>
        rw [hn] at hitem
        exact (grows_push (.item n) hitem).trans (ih _)
      · next why u hn =>
        rw [hn] at hitem
        exact grows_push (.loose u.pending.reverse) hitem

theorem grows_perform (s : Session) (call : Call) : s.Grows (s.perform call) := by
  cases call with
  | parse =>
    rw [perform, parse_snd]
    exact grows_advance _ s
  | setSource source => exact ⟨rfl, rfl, List.suffix_refl _, [], [], rfl, rfl, rfl⟩

theorem grows_performAll (s : Session) (calls : List Call) : s.Grows (s.performAll calls) := by
  induction calls generalizing s with
  | nil => exact .refl s
  | cons call calls ih => exact (grows_perform s call).trans (ih (s.perform call))

namespace Grows

/-- The corrections of a session are added to behind, also those that the options ask for. -/
theorem enabled (h : s.Grows t) :
    Correction.enabled s.options s.corrections <+: Correction.enabled t.options t.corrections := by
  obtain ⟨w, R, hw⟩ := h.state
  have hcorrections : s.corrections <+: t.corrections := by
    rw [corrections, corrections, h.stream, hw.repairs, List.reverse_append, List.map_append]
    exact List.prefix_append _ _
  rw [h.options]
  exact hcorrections.filter _

theorem numbered (h : s.Grows t) : Module.numbered s.module <+: Module.numbered t.module := by
  obtain ⟨pieces, hpieces⟩ := h.pieces
  rw [module, module, h.stream, ← hpieces, List.reverse_append, Module.mapWith_append]
  exact Module.numbered_append _ _

theorem toExtends (h : s.Grows t) : s.Extends t := by
  obtain ⟨more, hmore⟩ := h.numbered
  obtain ⟨w, R, hw⟩ := h.state
  refine ⟨?_, ?_, Correction.allEdits_of_prefix h.enabled, Correction.tally_of_prefix h.enabled,
    hw.le, ?_⟩
  · rw [← hmore, Module.items_append]
    exact List.prefix_append _ _
  · rw [← hmore, Module.arena_append]
    exact List.prefix_append _ _
  · rw [hw.rest, hw.passed, Nat.add_sub_cancel_left]
    exact List.drop_left.symm

end Grows

/-! ## Reports -/

/-- A report is answered where no symbols are left, and it is the report of the session. -/
theorem rest_of_parse {report : Report} (h : s.parse.1 = .ok report) :
    s.parse.2.state.rest = [] ∧ s.parse.2.report = report := by
  rw [parse] at h ⊢
  cases hrun : s.run with
  | mk t why =>
    rw [hrun] at h
    cases why with
    | none =>
      obtain ⟨ns, hreads, -⟩ := advance_content _ hrun (Nat.lt_succ_self _)
      exact ⟨hreads.rest, Except.ok.inj h⟩
    | some why => cases h

/-- Without symbols left, parsing changes nothing. -/
theorem parse_of_nil (hs : s.state.rest = []) : s.parse = (.ok s.report, s) := by
  rw [parse, run, advance_of_nil hs]

/-- So all that calls change is the text to quote. -/
theorem performAll_of_nil (calls : List Call) (hs : s.state.rest = []) :
    ∃ source, s.performAll calls = s.setSource source := by
  induction calls generalizing s with
  | nil => exact ⟨s.source, rfl⟩
  | cons call calls ih =>
    cases call with
    | parse =>
      obtain ⟨source, hsource⟩ := ih hs
      refine ⟨source, ?_⟩
      rw [performAll, List.foldl_cons, perform, parse_of_nil hs]
      exact hsource
    | setSource text =>
      obtain ⟨source, hsource⟩ := ih (s := s.setSource text) hs
      exact ⟨source, hsource⟩

/-- Whatever calls a session has answered, further ones only append: they keep its items, its
expressions and its edits in front, lower no count and do not go back in the symbols. Once it has
answered with a report, it answers with the same report after any further calls. -/
theorem performAll_extends (tokens : List Token) (o : Options) (before after : List Call) :
    let s := (start tokens o).performAll before
    s.Extends (s.performAll after) ∧
    ∀ report, s.parse.1 = .ok report → (s.parse.2.performAll after).parse.1 = .ok report := by
  intro s
  refine ⟨(grows_performAll s after).toExtends, fun report h => ?_⟩
  obtain ⟨hrest, hreport⟩ := rest_of_parse h
  obtain ⟨source, hsource⟩ := performAll_of_nil after hrest
  rw [hsource, parse_of_nil (s := s.parse.2.setSource source) hrest]
  exact congrArg Except.ok hreport

/-- A session that meets an error in its first item, leaving an expression behind, and reads two
items when it is asked again. -/
theorem performAll_extends_broken :
    ∃ s report, s = (start (Lexer.lex (Text.ascii "1+;int b") false) Options.all).performAll
        [.parse] ∧
      (Module.numbered s.module).items.length = 0 ∧
      (Module.numbered s.module).arena.length = 1 ∧
      s.parse.1 = .ok report ∧ (Module.numbered report.module).items.length = 2 ∧
      s.Extends (s.performAll [.parse, .setSource []]) ∧
      (s.parse.2.performAll [.setSource [], .parse]).parse.1 = .ok report := by
  have hsecond : ((start (Lexer.lex (Text.ascii "1+;int b") false) Options.all).performAll
      [.parse]).parse.1.toOption.map
        (fun report => (Module.numbered report.module).items.length) = some 2 := by
    rw [Lexer.lex_eq_scan]
    decide +kernel
  obtain ⟨report, hreport, hlen⟩ := exists_ok_of_map hsecond
  have h := performAll_extends (Lexer.lex (Text.ascii "1+;int b") false) Options.all [.parse]
  refine ⟨_, report, rfl, ?_, ?_, hreport, hlen, (h [.parse, .setSource []]).1,
    (h [.setSource [], .parse]).2 report hreport⟩
  · rw [Lexer.lex_eq_scan]
    decide +kernel
  · rw [Lexer.lex_eq_scan]
    decide +kernel

end Session

end ShaderRepair

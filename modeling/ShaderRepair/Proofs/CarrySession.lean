import ShaderRepair.Proofs.CarryStatement
import ShaderRepair.Proofs.RetraceDocument

/-!
# The content of a session

A session that reads all its symbols, item by item, has read what its symbols say, and each symbol
belongs to one item. This file contains:
- `Tiles`, extents that follow each other without a gap;
- `Grammar.item?_post`, the step: one item;
- `Session.advance_items`, the run: all items, with what each of them keeps, and
  `Session.advance_content`, where that does not matter;
- `Document.parseTokens_items` and `Document.parseTokens_content`, for the report of a parse.
-/

namespace ShaderRepair

open Grammar Passage

/-! ## Tiles -/

/-- Extents from the symbol `start` up to the symbol `stop`, without a gap. -/
def Tiles : Nat → List (Extent Nat) → Nat → Prop
  | start, [], stop => start = stop
  | start, x :: more, stop => x.first = start ∧ x.first ≤ x.last ∧ Tiles (x.last + 1) more stop

namespace Tiles

variable {start stop : Nat} {xs : List (Extent Nat)}

theorem row (h : Tiles start xs stop) : Row start xs stop := by
  induction xs generalizing start with
  | nil => exact Nat.le_of_eq h
  | cons x xs ih => exact ⟨Nat.le_of_eq h.1.symm, h.2.1, ih h.2.2⟩

/-- Each symbol belongs to an extent. -/
theorem exists_covering (h : Tiles start xs stop) {i : Nat} (hstart : start ≤ i)
    (hstop : i < stop) :
    ∃ (k : Nat) (x : Extent Nat), xs[k]? = some x ∧ x.first ≤ i ∧ i ≤ x.last := by
  induction xs generalizing start with
  | nil =>
    have heq : start = stop := h
    omega
  | cons x xs ih =>
    obtain ⟨hfirst, hle, hmore⟩ := h
    by_cases hi : i ≤ x.last
    · exact ⟨0, x, rfl, by omega, hi⟩
    · obtain ⟨k, y, hy, hcover⟩ := ih hmore (by omega)
      exact ⟨k + 1, y, hy, hcover⟩

end Tiles

/-! ## One item -/

namespace Grammar

/-- An item keeps the contract of its rule. -/
theorem item?_post {s t : State} {n : Item} (h : item? s = .accepted n t) :
    Rule.Post .item s n t :=
  Rule.post_of_run (Holds.nil s) h

/-- The expressions that an item has built are those in its slots. -/
theorem item?_pending {s t : State} {n : Item} (h : item? s = .accepted n t)
    (hs : s.pending = []) : t.pending.reverse = n.slots := by
  have hpending := (item?_post h).carries.pending [] hs
  rw [hpending, List.append_nil, List.reverse_reverse, ← Node.exprsAll_parts]
  exact List.append_nil _

end Grammar

/-! ## All items -/

namespace Session

/-- Between two states the items `ns` have been read: they say what the symbols passed say, and each
of the symbols belongs to one of them. -/
structure Content (s : State) (ns : List Item) (t : State) : Prop where
  passed : t.passed = s.passed + s.rest.length
  atoms : (∀ x ∈ s.rest, Ordinary x) →
    s.rest.filterMap Symbol.atom? = atomsAll (Node.passagesAll ns)
  laid : Laid s.passed (Node.passagesAll ns) t.passed
  tiles : Tiles s.passed (ns.map Node.extent) t.passed

theorem Content.nil {s : State} (hs : s.rest = []) : Content s [] s :=
  ⟨by simp [hs], fun _ => by simp [hs, Node.passagesAll], .nil (Nat.le_refl _), rfl⟩

theorem Content.cons {s m t : State} {n : Item} {ns : List Item} (h : Rule.Post .item s n m)
    (hmore : Content m ns t) : Content s (n :: ns) t := by
  obtain ⟨w, hrest, hpassed, hatoms⟩ := h.carries.words
  have hextent : n.extent = ⟨s.passed, m.passed - 1⟩ := h.detail
  have hlt : s.passed < m.passed := h.carries.lt (by simp [Rule.content, Node.passage])
  have hstop : m.passed - 1 + 1 = m.passed := by omega
  refine ⟨?_, fun hord => ?_, ?_, ?_⟩
  · rw [hmore.passed, hpassed, hrest, List.length_append, Nat.add_assoc]
  · have hw := hatoms fun x hx => hord x (by rw [hrest]; exact List.mem_append_left _ hx)
    have hms := hmore.atoms fun x hx => hord x (by rw [hrest]; exact List.mem_append_right _ hx)
    rw [hrest, List.filterMap_append, hms, ← List.nil_append (w.filterMap _)]
    exact congrArg (· ++ _) (hw.trans (List.append_nil _))
  · exact Laid.append.2 ⟨m.passed, h.carries.laid s.passed (.nil (Nat.le_refl _)), hmore.laid⟩
  · simp only [List.map_cons, Tiles, hextent, hstop]
    exact ⟨trivial, by omega, hmore.tiles⟩

/-- A session that reads all its symbols, by induction on the number of items. What an item keeps of
the state before it, once it is settled, all items keep, and each of them is as this makes it. -/
theorem advance_items {J : State → Prop} {P : Item → Prop}
    (hitem : ∀ {s t : State} {n : Item}, item? s = .accepted n t → J s →
      P n ∧ J { t with pending := [] })
    (count : Nat) {s t : Session} (h : s.advance count = (t, none))
    (hcount : s.state.rest.length < count) (hJ : J s.state) :
    ∃ ns, s.Reads t ns ∧ Content s.state ns t.state ∧ ∀ n ∈ ns, P n := by
  induction count generalizing s with
  | zero => exact absurd hcount (Nat.not_lt_zero _)
  | succ count ih =>
    by_cases hs : s.state.rest = []
    · rw [advance_of_nil hs] at h
      cases h
      exact ⟨[], ⟨rfl, hs⟩, .nil hs, fun n hn => nomatch hn⟩
    · obtain ⟨n, m, hn, hmore⟩ := advance_accepted h hs
      obtain ⟨hP, hJm⟩ := hitem hn hJ
      have hpost := item?_post hn
      have hlt : s.state.passed < m.passed :=
        hpost.carries.lt (by simp [Rule.content, Node.passage])
      have htotal := hpost.carries.total
      obtain ⟨ns, hreads, hcontent, hns⟩ := ih hmore (by simp only [push]; omega) hJm
      -- The item is settled, which changes nothing but the pending expressions.
      have hcontent' : Content m ns t.state :=
        ⟨hcontent.passed, hcontent.atoms, hcontent.laid, hcontent.tiles⟩
      exact ⟨n :: ns, hreads.push, hcontent'.cons hpost, List.forall_mem_cons.2 ⟨hP, hns⟩⟩

theorem advance_content (count : Nat) {s t : Session} (h : s.advance count = (t, none))
    (hcount : s.state.rest.length < count) :
    ∃ ns, s.Reads t ns ∧ Content s.state ns t.state := by
  obtain ⟨ns, hreads, hcontent, -⟩ := advance_items (J := fun _ => True) (P := fun _ => True)
    (fun _ _ => ⟨trivial, trivial⟩) count h hcount trivial
  exact ⟨ns, hreads, hcontent⟩

end Session

/-! ## Reports -/

namespace Document

variable {tokens : List Token} {source : Text} {o : Options} {report : Report}

theorem parseTokens_eq_ok :
    parseTokens tokens source o = .ok report ↔
      ∃ t, ((Session.start tokens o).setSource source).run = (t, none) ∧ report = t.report := by
  rw [parseTokens, Session.parse]
  cases h : ((Session.start tokens o).setSource source).run with
  | mk t why =>
    cases why with
    | none => simp [eq_comm]
    | some why => simp

/-- A report holds the items that have been read, with tokens for marks. -/
theorem parseTokens_items {J : State → Prop} {P : Item → Prop}
    (hitem : ∀ {s t : State} {n : Item}, item? s = .accepted n t → J s →
      P n ∧ J { t with pending := [] })
    (hJ : J (State.start (Stream.ofTokens tokens).symbols))
    (h : parseTokens tokens source o = .ok report) :
    ∃ ns t, report.module = Module.mapWith (Stream.ofTokens tokens).token
        (Expr.map (Extent.map (Stream.ofTokens tokens).token)) (ns.map .item) ∧
      Session.Content (State.start (Stream.ofTokens tokens).symbols) ns t ∧ ∀ n ∈ ns, P n := by
  obtain ⟨t, ht, rfl⟩ := parseTokens_eq_ok.1 h
  obtain ⟨ns, hreads, hcontent, hns⟩ :=
    Session.advance_items hitem _ ht (Nat.lt_succ_self _) hJ
  have hstream : t.stream = Stream.ofTokens tokens := Session.stream_of_run ht
  refine ⟨ns, t.state, ?_, hcontent, hns⟩
  have hpieces : t.pieces = (ns.map .item).reverse := hreads.pieces.trans (List.append_nil _)
  rw [Session.report, Session.module, hstream, hpieces, List.reverse_reverse]

theorem parseTokens_content (h : parseTokens tokens source o = .ok report) :
    ∃ ns t, report.module = Module.mapWith (Stream.ofTokens tokens).token
        (Expr.map (Extent.map (Stream.ofTokens tokens).token)) (ns.map .item) ∧
      Session.Content (State.start (Stream.ofTokens tokens).symbols) ns t := by
  obtain ⟨ns, t, hmodule, hcontent, -⟩ := parseTokens_items (J := fun _ => True)
    (P := fun _ => True) (fun _ _ => ⟨trivial, trivial⟩) trivial h
  exact ⟨ns, t, hmodule, hcontent⟩

end Document

end ShaderRepair

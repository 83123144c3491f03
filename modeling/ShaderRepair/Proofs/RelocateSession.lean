import ShaderRepair.Proofs.CarrySession
import ShaderRepair.Proofs.RelocateStatement

/-!
# Sessions among the same symbols elsewhere

A session reads items, one after the other, until none is left or one is rejected. Symbols that are
met again are read again, item by item. This file contains:
- `Grammar.Takes`, reading some items from the front of a state, and what it means for a session;
- `Grammar.Anchored`, which says next to which symbols the repairs of such items put something in;
- `Stream.report` and `Stream.failure`, the answers of a parse;
- `Relocation.takes`, for the symbols met again;
- `Document.parseTokens_relabelled`, for two lists of tokens with the same symbols.
-/

namespace ShaderRepair

open Grammar

/-! ## Some items -/

namespace Grammar

/-- The items `ns` are read from `s` on, one after the other, which leads to `t`. An item that has
been read settles its expressions. -/
inductive Takes : State → List Item → State → Prop where
  | nil (s : State) : Takes s [] s
  | cons {s m t : State} {n : Item} {ns : List Item} (hs : s.rest ≠ [])
      (hn : item? s = .accepted n m) (hmore : Takes { m with pending := [] } ns t) :
      Takes s (n :: ns) t

namespace Takes

variable {s m t : State} {ns ns' : List Item}

theorem append (h : Takes s ns m) (h' : Takes m ns' t) : Takes s (ns ++ ns') t := by
  induction h with
  | nil s => exact h'
  | cons hs hn _ ih => exact .cons hs hn (ih h')

/-- Every item takes a symbol. -/
theorem length_le (h : Takes s ns t) : t.rest.length + ns.length ≤ s.rest.length := by
  induction h with
  | nil s => exact Nat.le_refl _
  | cons hs hn _ ih =>
    have hlt := progresses_item hn
    exact Nat.le_trans (Nat.succ_le_succ ih) hlt

/-- The items pass pieces, the first of which is a symbol. -/
theorem passes (h : Takes s ns t) : ∃ P R, Passes s t P R ∧ Led P := by
  induction h with
  | nil s => exact ⟨[], [], .refl s, .inl rfl⟩
  | cons hs hn _ ih =>
    obtain ⟨P, R, hpass, hP, -⟩ := item?_retraced (fun _ _ => false) hn
    obtain ⟨P', R', hpass', -⟩ := ih
    exact ⟨P ++ P', R ++ R', hpass.trans ⟨hpass'.rest, hpass'.passed, hpass'.repairs, hpass'.noted⟩,
      .inr hP.append⟩

/-- After some items none is left, or the next one is rejected. -/
theorem exists_takes (s : State) :
    ∃ ns t, Takes s ns t ∧ (t.rest = [] ∨ t.rest ≠ [] ∧ ∃ why u, item? t = .rejected why u) := by
  -- The induction is on the number of symbols left.
  induction hlen : s.rest.length using Nat.strong_induction_on generalizing s with
  | _ len ih =>
    by_cases hs : s.rest = []
    · exact ⟨[], s, .nil s, .inl hs⟩
    cases hn : item? s with
    | rejected why u => exact ⟨[], s, .nil s, .inr ⟨hs, why, u, hn⟩⟩
    | accepted n m =>
      have hlt : m.rest.length < s.rest.length := progresses_item hn
      obtain ⟨ns, t, htakes, hend⟩ := ih m.rest.length (hlen ▸ hlt) { m with pending := [] } rfl
      exact ⟨n :: ns, t, .cons hs hn htakes, hend⟩

end Takes

/-! ## Where items have repairs -/

/-- The number of the symbol next to which something is put in. -/
def Put.anchor : Nat × Put → Nat
  | (n, .behind _) => n - 1
  | (n, .before _) => n

/-- The repairs put in something next to the first `count` symbols only, and nothing in front of all
of them. -/
def Anchored (count : Nat) (R : List Repair) : Prop :=
  ∀ x ∈ R.flatMap Repair.puts, 0 < x.1 ∧ x.1 ≤ count ∧ Put.anchor x < count

theorem Anchored.semicolon {count index : Nat} {R : List Repair} (h : Anchored count R)
    (hR : ⟨index, .semicolon⟩ ∈ R) : 0 < index ∧ index ≤ count := by
  have hput := h (index, .behind .semicolon) (List.mem_flatMap.2 ⟨_, hR, List.mem_singleton_self _⟩)
  exact ⟨hput.1, hput.2.1⟩

/-- The first symbol that an item takes comes before all that is put in. -/
theorem Takes.anchored {w : List Symbol} {ns : List Item} {t : State}
    (h : Takes (State.start w) ns t) (ht : t.rest = []) :
    Anchored w.length t.repairs.reverse := by
  obtain ⟨P, R, hpass, hled⟩ := h.passes
  have hold : Piece.old P = w := by
    have hrest : w = Piece.old P ++ t.rest := hpass.rest
    rw [hrest, ht, List.append_nil]
  have hrepairs : t.repairs.reverse = R := by
    rw [hpass.repairs, List.reverse_append, List.reverse_reverse]
    rfl
  have hnoted : Noted 0 P R := hpass.noted
  rw [hrepairs, ← hold]
  rintro ⟨m, put⟩ hx
  have hne : m ≠ 0 := by
    -- In front of the first symbol the pieces have nothing.
    rintro rfl
    have hmem : put ∈ putsAt R (0 + 0) := mem_putsAt.2 hx
    rw [hnoted.putsAt_eq 0] at hmem
    rcases hled with rfl | ⟨y, P', rfl⟩
    · exact absurd hmem List.not_mem_nil
    · exact absurd hmem List.not_mem_nil
  have hproper := hnoted.proper _ hx
  have hle : m ≤ (Piece.old P).length := hproper.le.2.trans_eq (Nat.zero_add _)
  refine ⟨Nat.pos_of_ne_zero hne, hle, ?_⟩
  match put, hproper with
  | .behind k, _ => exact Nat.lt_of_lt_of_le (Nat.sub_one_lt hne) hle
  | .before none, hlt => exact Nat.lt_of_lt_of_eq hlt.2 (Nat.zero_add _)
  | .before (some T), ⟨_, i, sign, hm, hi, _⟩ =>
    rw [Nat.zero_add] at hm
    exact hm ▸ hi

end Grammar

/-! ## Sessions -/

namespace Session

/-- The session after the items `ns`, in the state `t`. -/
def after (s : Session) (ns : List Item) (t : State) : Session :=
  { s with state := t, pieces := (ns.map .item).reverse ++ s.pieces }

theorem advance_takes {s : Session} {ns : List Item} {t : State} (h : Takes s.state ns t)
    (count : Nat) : s.advance (ns.length + count) = (s.after ns t).advance count := by
  generalize hstate : s.state = u at h
  induction h generalizing s with
  | nil u =>
    subst hstate
    exact congrArg (advance · s) (Nat.zero_add count)
  | @cons u m t n ns hs hn _ ih =>
    subst hstate
    have hpush : (s.push (.item n) m).after ns t = s.after (n :: ns) t := by
      simp [Session.push, after]
    rw [List.length_cons, Nat.succ_add, advance_of_accepted hn hs, ih rfl, hpush]

/-- A session that reads all items. -/
theorem run_of_takes {s : Session} {ns : List Item} {t : State} (h : Takes s.state ns t)
    (ht : t.rest = []) : s.run = (s.after ns t, none) := by
  obtain ⟨count, hcount⟩ := Nat.exists_eq_add_of_le (h.length_le)
  rw [ht, List.length_nil, Nat.zero_add] at hcount
  rw [run, hcount, Nat.add_assoc, advance_takes h]
  exact advance_of_nil ht

/-- A session that comes to an item that is rejected. -/
theorem run_of_rejected {s : Session} {ns : List Item} {t u : State} {why : Rejection}
    (h : Takes s.state ns t) (ht : t.rest ≠ []) (hu : item? t = .rejected why u) :
    s.run = ((s.after ns t).push (.loose u.pending.reverse) u, some why) := by
  have hle : ns.length ≤ s.state.rest.length :=
    Nat.le_trans (Nat.le_add_left _ _) h.length_le
  obtain ⟨count, hcount⟩ := Nat.exists_eq_add_of_le hle
  have hempty : (s.after ns t).state.rest.isEmpty = false := by simpa [after] using ht
  have hrejected : item? (s.after ns t).state = .rejected why u := hu
  rw [run, hcount, Nat.add_assoc, advance_takes h, advance, hempty, hrejected]
  rfl

end Session

/-! ## Answers -/

theorem Report.eq_of {r r' : Report} (hmodule : r.module = r'.module) (hedits : r.edits = r'.edits)
    (htally : r.tally = r'.tally) : r = r' := by
  obtain ⟨m, es, t⟩ := r
  obtain ⟨m', es', t'⟩ := r'
  obtain rfl : m = m' := hmodule
  obtain rfl : es = es' := hedits
  obtain rfl : t = t' := htally
  rfl

namespace Stream

/-- The report of the items `ns` and the repairs `R`. -/
def report (stream : Stream) (o : Options) (ns : List Item) (R : List Repair) : Report :=
  let chosen := Correction.enabled o (R.map (Correction.ofRepair stream))
  ⟨Module.mapWith stream.token (Expr.map (Extent.map stream.token)) (ns.map .item),
    Correction.allEdits chosen, Correction.tally chosen⟩

/-- The error that tells of a rejection. -/
def failure (stream : Stream) (source : Text) (why : Rejection) : ParseError :=
  ⟨why.expected.map Expectation.describe, stream.token why.index, source⟩

end Stream

namespace Document

variable {tokens : List Token}

theorem parseTokens_of_takes {ns : List Item} {t : State}
    (h : Takes (State.start (Stream.ofTokens tokens).symbols) ns t) (ht : t.rest = [])
    (source : Text) (o : Options) :
    parseTokens tokens source o =
      .ok ((Stream.ofTokens tokens).report o ns t.repairs.reverse) := by
  refine parseTokens_eq_ok.2 ⟨_, Session.run_of_takes h ht, ?_⟩
  rw [Session.report, Session.module, Session.corrections]
  simp [Session.after, Session.start, Session.setSource, Stream.report]

theorem parseTokens_of_rejected {ns : List Item} {t u : State} {why : Rejection}
    (h : Takes (State.start (Stream.ofTokens tokens).symbols) ns t) (ht : t.rest ≠ [])
    (hu : item? t = .rejected why u) (source : Text) (o : Options) :
    parseTokens tokens source o = .error ((Stream.ofTokens tokens).failure source why) := by
  have hrun := Session.run_of_rejected
    (s := (Session.start tokens o).setSource source) h ht hu
  rw [parseTokens, Session.parse, hrun]
  rfl

end Document

/-! ## The symbols met again -/

namespace Grammar

namespace Relocation

variable {μ : Type} {ρ : Relocation μ} {s s' t : State}

theorem relocates_item (ρ : Relocation μ) (d : Nat) (x : Symbol) :
    ρ.Relocates d .upto 0 0 x ρ.SameItem (Procedure.run .item) (Procedure.run .item) :=
  (ρ.relocatesRules d).free .item rfl

/-- An item that is met again is read again. -/
theorem item?_accepted {n : Item} (hs : ρ.Beside s s') (hne : s.rest ≠ [])
    (h : item? s = .accepted n t) :
    ∃ n' t', item? s' = .accepted n' t' ∧ ρ.SameItem n n' ∧ ρ.Beside t t' := by
  have hrun := ρ.relocates_item s.depth s.next hs rfl (Nat.zero_le _)
  rw [exec_run, exec_run, show Rule.run s.depth .item s = .accepted n t from h] at hrun
  obtain ⟨⟨n', t', hn', hsame, hbeside⟩, -, -⟩ := hrun (.inr hne)
  exact ⟨n', t', item?_of_run hn', hsame, hbeside⟩

/-- An item that is rejected is rejected again if nothing comes behind the symbols. -/
theorem item?_rejected {why : Rejection} (hmore : ρ.more = []) (hs : ρ.Beside s s')
    (h : item? s = .rejected why t) :
    ∃ why' t', item? s' = .rejected why' t' ∧ ρ.Points why why' := by
  have hrun := ρ.relocates_item s.depth s.next hs rfl (Nat.zero_le _)
  rw [exec_run, exec_run, show Rule.run s.depth .item s = .rejected why t from h] at hrun
  obtain ⟨why', t', hwhy, hpoints⟩ := hrun hmore
  have hdepth : s'.depth = s.depth := by
    obtain ⟨ys, hys, hrelabels⟩ := hs.relabels
    rw [State.depth, State.depth, hys, hmore, List.append_nil, hrelabels.length_eq]
  exact ⟨why', t', by rw [item?, hdepth]; exact hwhy, hpoints⟩

theorem Beside.rest_ne_nil (hs : ρ.Beside s s') (hne : s.rest ≠ []) : s'.rest ≠ [] := by
  obtain ⟨ys, hys, hrelabels⟩ := hs.relabels
  have hlen := List.length_pos_iff.2 hne
  rw [← hrelabels.length_eq] at hlen
  rw [hys]
  exact List.append_ne_nil_of_left_ne_nil (List.length_pos_iff.1 hlen) _

/-- Items that are met again are read again, by induction on them. -/
theorem takes {ns : List Item} (h : Takes s ns t) (hs : ρ.Beside s s') :
    ∃ ns' t', Takes s' ns' t' ∧ ρ.SameItems ns ns' ∧ ρ.Beside t t' := by
  induction h generalizing s' with
  | nil s => exact ⟨[], s', .nil s', rfl, hs⟩
  | cons hne hn _ ih =>
    obtain ⟨n', m', hn', hsame, hm⟩ := item?_accepted hs hne hn
    have hsettled : ρ.Beside { (_ : State) with pending := [] } { m' with pending := [] } :=
      ⟨hm.rest, hm.rest', hm.passed, hm.repairs, hm.within⟩
    obtain ⟨ns', t', htakes, hsames, ht⟩ := ih hsettled
    refine ⟨n' :: ns', t', .cons (hs.rest_ne_nil hne) hn' htakes, ?_, ht⟩
    simp only [SameItems, Node.mapAll, hsame, hsames]

/-- Items that show the same make modules that show the same. -/
theorem module_of_same {ns ns' : List Item} (h : ρ.SameItems ns ns') :
    Module.mapWith ρ.old ρ.tree (ns.map .item) = Module.mapWith ρ.new ρ.tree' (ns'.map .item) := by
  rw [SameItems, Node.mapAll_eq_map, Node.mapAll_eq_map] at h
  rw [Module.mapWith_map_item, Module.mapWith_map_item, h]

/-! ### In place -/

section InPlace

variable {xs ys : List Symbol} (h : Relabels xs ys) (old new : Nat → μ)
  (hagree : ∀ i < xs.length, old i = new i)

/-- The same symbols with nothing before or behind them. -/
def inPlace : Relocation μ where
  symbols := xs
  symbols' := ys
  more := []
  offset := 0
  base := []
  old := old
  new := new
  relabels := h
  agrees := hagree
  ends hne := absurd rfl hne
  begins _ hx := absurd hx (Option.some_ne_none _).symm

theorem inPlace_beside :
    (inPlace h old new hagree).Beside (State.start xs) (State.start ys) :=
  ⟨rfl, (List.append_nil ys).symm, rfl, rfl, Nat.zero_le _⟩

end InPlace

end Relocation

theorem Repair.move_zero (r : Repair) : r.move 0 = r := by
  obtain ⟨index, missing⟩ := r
  cases missing <;> rfl

theorem Repair.map_move_zero (R : List Repair) : R.map (Repair.move 0) = R := by
  rw [List.map_congr_left fun r _ => Repair.move_zero r, List.map_id']

end Grammar

namespace Document

/-- Two lists of tokens with the same symbols, but for a line break in front of the first one, are
parsed alike, whatever the options: to items that show the same, with the same repairs, or to
errors at symbols that show the same. -/
theorem parseTokens_relabelled {μ : Type} {tokens tokens' : List Token} {old new : Nat → μ}
    (h : Relabels (Stream.ofTokens tokens).symbols (Stream.ofTokens tokens').symbols)
    (hagree : ∀ i < (Stream.ofTokens tokens).symbols.length, old i = new i) :
    (∃ ns ns' R, (Relocation.inPlace h old new hagree).SameItems ns ns' ∧
      Anchored (Stream.ofTokens tokens).symbols.length R ∧ ∀ source o,
        parseTokens tokens source o = .ok ((Stream.ofTokens tokens).report o ns R) ∧
          parseTokens tokens' source o = .ok ((Stream.ofTokens tokens').report o ns' R)) ∨
    ∃ why why', (Relocation.inPlace h old new hagree).Points why why' ∧ ∀ source o,
      parseTokens tokens source o = .error ((Stream.ofTokens tokens).failure source why) ∧
        parseTokens tokens' source o = .error ((Stream.ofTokens tokens').failure source why') := by
  obtain ⟨ns, t, htakes, hend⟩ := Takes.exists_takes (State.start (Stream.ofTokens tokens).symbols)
  obtain ⟨ns', t', htakes', hsame, hbeside⟩ :=
    Relocation.takes htakes (Relocation.inPlace_beside h old new hagree)
  -- Both runs take as many items and come to an end together.
  have hnil : t.rest = [] ↔ t'.rest = [] := by
    obtain ⟨zs, hzs, hrelabels⟩ := hbeside.relabels
    have hrest : t'.rest = zs := hzs.trans (List.append_nil zs)
    rw [hrest, ← List.length_eq_zero_iff, ← List.length_eq_zero_iff, hrelabels.length_eq]
  rcases hend with ht | ⟨ht, why, u, hu⟩
  · left
    refine ⟨ns, ns', t.repairs.reverse, hsame, htakes.anchored ht, fun source o => ?_⟩
    have hrepairs : t'.repairs = t.repairs := by
      have hmoved : t'.repairs = t.repairs.map (Repair.move 0) ++ [] := hbeside.repairs
      rw [hmoved, List.append_nil, Repair.map_move_zero]
    refine ⟨parseTokens_of_takes htakes ht source o, ?_⟩
    rw [← hrepairs]
    exact parseTokens_of_takes htakes' (hnil.1 ht) source o
  · right
    obtain ⟨why', u', hu', hpoints⟩ := Relocation.item?_rejected rfl hbeside hu
    refine ⟨why, why', hpoints, fun source o => ⟨?_, ?_⟩⟩
    · exact parseTokens_of_rejected htakes ht hu source o
    · exact parseTokens_of_rejected htakes' (fun ht' => ht (hnil.2 ht')) hu' source o

end Document

end ShaderRepair

import ShaderRepair.Proofs.Bookkeeping
import ShaderRepair.Proofs.Conversion
import ShaderRepair.Proofs.Dispatch
import ShaderRepair.Proofs.Erasure
import ShaderRepair.Proofs.Forest
import ShaderRepair.Proofs.Placement

/-!
# Conversions of a document

Constructor calls are put around those initializers that the types of the parsed module call for,
although the parser decides on each of them before the module is there. This file contains:
- `Edit.conversions`, the pairs of edits that make a constructor call;
- `Module.conversions`, the pairs that the types of a module call for;
- `Session.advance_notes`, the conversions that a session notes;
- `Document.parse_conversions`: the former are the latter, and typing one expression gives the types
  that typing the module does.
-/

namespace ShaderRepair

open Grammar

/-! ## Pairs of edits -/

/-- The edits that put an initializer into a call of a constructor. -/
def Correction.call (T : Text) (first last : Token) : Edit × Edit :=
  (before first (T ++ Text.ascii "("), after last (Text.ascii ")"))

namespace Edit

/-- The edits that open a constructor call, each with the edit after it. -/
def conversions : List Edit → List (Edit × Edit)
  | e :: e' :: more =>
    if e.opensConversion then (e, e') :: conversions more else conversions (e' :: more)
  | _ => []

theorem conversions_of_not_opens {e : Edit} (h : e.opensConversion = false) (more : List Edit) :
    conversions (e :: more) = conversions more := by
  cases more with
  | nil => rfl
  | cons e' more => rw [conversions, if_neg (by simp [h])]

/-- A name before the parenthesis makes the call of a constructor. -/
theorem conversions_call {T : Text} (hT : T ≠ []) (first last : Token) (more : List Edit) :
    conversions ((Correction.call T first last).1 :: (Correction.call T first last).2 :: more) =
      Correction.call T first last :: conversions more := by
  have hparen : Text.ascii "(" = [Number.byte '('] := by decide
  have hopens : (Correction.call T first last).1.opensConversion = true := by
    simp [opensConversion, opens, Correction.call, Correction.before, hparen, hT]
  rw [conversions, if_pos hopens]

end Edit

/-! ## What the types of a module call for -/

/-- The edits that convert an initializer, if it has a conversion to the declared type and does not
convert by itself. Arrays are left alone. -/
def Declarator.conversion? (table : TypeTable) (type : TypeSpec Token (Expr (Nat × Extent Token)))
    (v : Declarator Token (Expr (Nat × Extent Token))) : Option (Edit × Edit) := do
  let e ← v.init
  let declared ← ValueType.lookup type.name.text
  let found ← table.lookup e.handle
  if type.dims.isEmpty && v.dims.isEmpty && found.explicitlyConvertible declared &&
      !found.implicitlyConvertible declared then
    return Correction.call type.name.text e.note.2.first e.note.2.last
  else
    none

namespace Module

variable {μ ν ε η : Type}

/-- All variables that are declared in a module, each with its type. -/
def declared (m : Module μ ε) : List (TypeSpec μ ε × Declarator μ ε) :=
  m.nodes.flatMap Node.declared

/-- The conversions of a numbered module, as its table of types says. -/
def conversions (m : Module Token (Expr (Nat × Extent Token))) : List (Edit × Edit) :=
  m.declared.filterMap fun v => v.2.conversion? m.resolve v.1

end Module

/-! ## Variables at other marks -/

section Map

variable {μ ν ε η : Type} (f : μ → ν) (g : ε → η)

def mapDeclared (v : TypeSpec μ ε × Declarator μ ε) : TypeSpec ν η × Declarator ν η :=
  (v.1.map f g, v.2.map f g)

theorem Node.declared_map (n : Node μ ε) :
    (n.map f g).declared = n.declared.map (mapDeclared f g) := by
  cases n with
  | vars x v =>
    simp only [Node.map, declared, Variables.map, List.map_map]
    rfl
  | _ => rfl

theorem Module.declared_mapWith (m : Module μ ε) :
    (m.mapWith f g).declared = m.declared.map (mapDeclared f g) := by
  rw [declared, nodes_mapWith, List.flatMap_map, declared, List.map_flatMap]
  exact List.flatMap_congr fun n _ => n.declared_map f g

/-- An initializer is in a slot of the node that declares the variable. -/
theorem Node.mem_roots_of_declared {n : Node μ ε} {v : TypeSpec μ ε × Declarator μ ε}
    (hv : v ∈ n.declared) {e : ε} (he : v.2.init = some e) : e ∈ n.roots := by
  cases n with
  | vars x decl =>
    obtain ⟨d, hd, rfl⟩ := List.mem_map.1 hv
    refine List.mem_append_right _ (List.mem_flatMap.2 ⟨d, hd, ?_⟩)
    exact List.mem_append_right _ (Option.mem_toList.2 he)
  | _ => cases hv

end Map

/-! ## Conversions by the shape of trees -/

/-- The edits that convert an initializer, by the type of its tree. -/
def Declarator.call? (type : TypeSpec Token (Expr (Extent Token)))
    (v : Declarator Token (Expr (Extent Token))) : Option (Edit × Edit) :=
  v.init.bind fun e =>
    if type.dims.isEmpty && v.dims.isEmpty && e.needsConversion type.name.text then
      some (Correction.call type.name.text e.note.first e.note.last)
    else
      none

/-- What an initializer needs does not depend on annotations. -/
theorem Expr.needsConversion_map {α β : Type} (f : α → β) (e : Expr α) (T : Text) :
    (e.map f).needsConversion T = e.needsConversion T := by
  rw [needsConversion, type_map, needsConversion]

/-- A table that has the types of initializers tells their conversions. -/
theorem Declarator.conversion?_eq {table : TypeTable}
    {type : TypeSpec Token (Expr (Nat × Extent Token))}
    {v : Declarator Token (Expr (Nat × Extent Token))}
    (h : ∀ e, v.init = some e → table.lookup e.handle = some e.type) :
    v.conversion? table type =
      (v.map id (Expr.map Prod.snd)).call? (type.map id (Expr.map Prod.snd)) := by
  obtain ⟨name, dims, init⟩ := v
  cases init with
  | none => rfl
  | some e =>
    have hfound : table.lookup e.handle = some e.type := h e rfl
    simp only [conversion?, call?, Declarator.map, TypeSpec.map, Name.map, Option.map_some,
      Option.bind_eq_bind, Option.bind_some, List.isEmpty_map, Expr.note_map, hfound,
      Expr.needsConversion, Expr.type_map]
    cases ValueType.lookup type.name.text with
    | none => simp
    | some declared =>
      simp only [Option.bind_some, Bool.and_assoc, Bool.and_comm (e.type.explicitlyConvertible _)]
      rfl

/-- The edits of a conversion. -/
def Grammar.Repair.call? (stream : Stream) (r : Repair) : Option (Edit × Edit) :=
  match r.missing with
  | .conversion T first =>
    some (Correction.call T (stream.token first) (stream.token (r.index - 1)))
  | _ => none

/-- The conversion that a variable needs, with tokens for marks. -/
theorem Declarator.call?_map (stream : Stream) (type : TypeSpec Nat Tree)
    (v : Declarator Nat Tree) :
    (v.map stream.token (Expr.map (Extent.map stream.token))).call?
        (type.map stream.token (Expr.map (Extent.map stream.token))) =
      (repair? type v).bind (Repair.call? stream) := by
  obtain ⟨name, dims, init⟩ := v
  cases init with
  | none => rfl
  | some e =>
    simp only [call?, repair?, Declarator.map, TypeSpec.map, Name.map, Option.map_some,
      Option.bind_some, List.isEmpty_map, Expr.needsConversion_map, Expr.note_map]
    split
    · rfl
    · rfl

/-! ## Edits of repairs -/

/-- The pairs of edits are those of the conversions, by induction on the repairs. -/
theorem Edit.conversions_allEdits (stream : Stream) {R : List Repair}
    (hR : ∀ r ∈ R, r.missing.Known) :
    Edit.conversions (Correction.allEdits (R.map (Correction.ofRepair stream))) =
      R.filterMap (Repair.call? stream) := by
  induction R with
  | nil => rfl
  | cons r R ih =>
    have hmore := ih fun r' hr' => hR r' (List.mem_cons_of_mem _ hr')
    have hr := hR r List.mem_cons_self
    obtain ⟨index, missing⟩ := r
    cases missing with
    | conversion T first =>
      have hT : T ≠ [] := (Lexer.first_typeName T (ValueType.mem_names_of_lookup hr)).2.1
      refine (Edit.conversions_call hT _ _ _).trans ?_
      exact congrArg _ hmore
    | _ => exact (Edit.conversions_of_not_opens rfl _).trans hmore

/-- The options that ask for conversions ask for all of them. -/
theorem Grammar.Repair.filterMap_chosen (stream : Stream) {o : Options} (ho : o.conversions = true)
    (R : List Repair) :
    (Repair.chosen stream o R).filterMap (Repair.call? stream) =
      R.filterMap (Repair.call? stream) := by
  rw [chosen, List.filterMap_filter]
  refine List.filterMap_congr fun r _ => ?_
  obtain ⟨index, missing⟩ := r
  cases missing with
  | conversion T first => exact if_pos ho
  | _ => exact ite_self _

theorem Grammar.State.filterMap_conversions (stream : Stream) (s : State) :
    s.conversions.filterMap (Repair.call? stream) =
      s.repairs.reverse.filterMap (Repair.call? stream) := by
  rw [conversions, ← List.filter_reverse, List.filterMap_filter]
  refine List.filterMap_congr fun r _ => ?_
  obtain ⟨index, missing⟩ := r
  cases missing <;> rfl

/-! ## Sessions -/

namespace Session

/-- The conversions that a session notes are those that its items need, by induction on the number
of items. -/
theorem advance_notes (count : Nat) {s t : Session} (h : s.advance count = (t, none)) :
    ∃ ns : List Item, t.pieces = (ns.map .item).reverse ++ s.pieces ∧
      t.state.conversions = s.state.conversions ++ wanted (ns.flatMap Node.within) := by
  induction count generalizing s with
  | zero =>
    cases h
    exact ⟨[], rfl, (List.append_nil _).symm⟩
  | succ count ih =>
    by_cases hs : s.state.rest = []
    · rw [advance_of_nil hs] at h
      cases h
      exact ⟨[], rfl, (List.append_nil _).symm⟩
    · obtain ⟨n, m, hn, hmore⟩ := advance_accepted h hs
      obtain ⟨ns, hpieces, hnotes⟩ := ih hmore
      have hitem : m.conversions = s.state.conversions ++ wanted n.within := Rule.notes _ .item hn
      have hpush : (s.push (.item n) m).state.conversions = m.conversions := rfl
      refine ⟨n :: ns, ?_, ?_⟩
      · rw [hpieces]
        simp [push]
      · rw [hnotes, hpush, hitem, List.flatMap_cons, wanted_append, List.append_assoc]

end Session

/-! ## Every parse -/

namespace Document

variable {tokens : List Token} {source : Text} {o : Options} {report : Report}

/-- What has been noted, beside the module and the edits of a report. -/
theorem parseTokens_notes (h : parseTokens tokens source o = .ok report) :
    ∃ ns : List Item,
      report.module = Module.mapWith (Stream.ofTokens tokens).token
        (Expr.map (Extent.map (Stream.ofTokens tokens).token)) (ns.map .item) ∧
      (o.conversions = true → Edit.conversions report.edits =
        (wanted (ns.flatMap Node.within)).filterMap (Repair.call? (Stream.ofTokens tokens))) := by
  obtain ⟨t, ht, rfl⟩ := parseTokens_eq_ok.1 h
  obtain ⟨ns, hpieces, hnotes⟩ := Session.advance_notes _ ht
  have hstream : t.stream = Stream.ofTokens tokens := Session.stream_of_run ht
  have hoptions : t.options = o := Session.options_of_run ht
  refine ⟨ns, ?_, fun ho => ?_⟩
  · have hnil : t.pieces = (ns.map .item).reverse := hpieces.trans (List.append_nil _)
    rw [Session.report, Session.module, hstream, hnil, List.reverse_reverse]
  · have hknown : (((Session.start tokens o).setSource source).run).1.state.Known :=
      Session.known_advance _ fun r hr => absurd hr List.not_mem_nil
    rw [ht] at hknown
    have hconversions : t.state.conversions = wanted (ns.flatMap Node.within) := hnotes
    rw [Session.report, Session.corrections, Correction.enabled_map, hstream, hoptions,
      Edit.conversions_allEdits, Repair.filterMap_chosen _ ho, ← State.filterMap_conversions,
      hconversions]
    exact fun r hr => hknown r (List.mem_reverse.1 (List.mem_of_mem_filter hr))

/-- The types of a parsed module call for the conversions that its variables needed when they were
read. -/
theorem conversions_of_parse {ns : List Item} (h : parseTokens tokens source o = .ok report)
    (hmodule : report.module = Module.mapWith (Stream.ofTokens tokens).token
      (Expr.map (Extent.map (Stream.ofTokens tokens).token)) (ns.map .item)) :
    (Module.numbered report.module).conversions =
      (wanted (ns.flatMap Node.within)).filterMap (Repair.call? (Stream.ofTokens tokens)) := by
  generalize hm : Module.numbered report.module = m
  have hplaced : m.arena.map Expr.handle = List.range m.arena.length :=
    hm ▸ Module.handles_numbered report.module
  have hitems : m.flatMap Fragment.slots = m.items.flatMap Node.slots := hm ▸ slots_of_parse h
  -- Without numbers, the variables are those read, with tokens for marks.
  have hdeclared : m.declared.map (mapDeclared id (Expr.map Prod.snd)) =
      ((ns.flatMap Node.within).flatMap Node.declared).map
        (mapDeclared (Stream.ofTokens tokens).token
          (Expr.map (Extent.map (Stream.ofTokens tokens).token))) := by
    rw [← Module.declared_mapWith, ← hm, Module.mapWith_numbered, hmodule,
      Module.declared_mapWith, Module.declared, Module.nodes, Module.items_map_item]
  -- The table of the module has the types of all initializers.
  have htable : ∀ v ∈ m.declared, ∀ e, v.2.init = some e →
      m.resolve.lookup e.handle = some e.type := by
    intro v hv e he
    obtain ⟨n, hn, hv⟩ := List.mem_flatMap.1 hv
    refine Module.resolve_lookup hitems hplaced ((Module.roots_perm_arena hitems).subset ?_)
    have hroot : e ∈ m.nodes.flatMap Node.roots :=
      List.mem_flatMap.2 ⟨n, hn, Node.mem_roots_of_declared hv he⟩
    exact List.mem_flatMap.2 ⟨e, hroot, e.mem_postorder_self⟩
  calc m.conversions
      = m.declared.filterMap fun v =>
          (mapDeclared id (Expr.map Prod.snd) v).2.call?
            (mapDeclared id (Expr.map Prod.snd) v).1 :=
        List.filterMap_congr fun v hv => Declarator.conversion?_eq (htable v hv)
    _ = (m.declared.map (mapDeclared id (Expr.map Prod.snd))).filterMap
          fun v => v.2.call? v.1 := by
        rw [List.filterMap_map]
        rfl
    _ = ((ns.flatMap Node.within).flatMap Node.declared).filterMap fun v =>
          (repair? v.1 v.2).bind (Repair.call? (Stream.ofTokens tokens)) := by
        rw [hdeclared, List.filterMap_map]
        exact List.filterMap_congr fun v _ => Declarator.call?_map _ v.1 v.2
    _ = (wanted (ns.flatMap Node.within)).filterMap (Repair.call? (Stream.ofTokens tokens)) := by
        rw [wanted, List.filterMap_filterMap]

/-- Where conversions are asked for, constructor calls are put around those initializers for which
the types of the finished module say so, in the order of the variables, and around no others. The
type that is found for an expression is the same whether the whole module is typed or only some
expression that it is in. -/
theorem parse_conversions (h : parseTokens tokens source o = .ok report) :
    let m := Module.numbered report.module
    (o.conversions = true → Edit.conversions report.edits = m.conversions) ∧
    ∀ r ∈ m.arena, ∀ e ∈ r.postorder,
      r.resolveTypes.lookup e.handle = some e.type ∧ m.resolve.lookup e.handle = some e.type := by
  intro m
  have hplaced : m.arena.map Expr.handle = List.range m.arena.length :=
    Module.handles_numbered report.module
  refine ⟨fun ho => ?_, fun r hr e he => ⟨?_, ?_⟩⟩
  · obtain ⟨ns, hmodule, hedits⟩ := parseTokens_notes h
    rw [hedits ho, conversions_of_parse h hmodule]
  · have hnodup : (r.postorder.map Expr.handle).Nodup :=
      (hplaced ▸ List.nodup_range).sublist ((Module.postorder_sublist_arena hr).map Expr.handle)
    rw [Expr.resolveTypes_eq hnodup]
    exact (TypeTable.Fresh.nil hnodup).lookup_note he
  · exact Module.resolve_lookup (slots_of_parse h) hplaced
      ((Module.postorder_sublist_arena hr).subset he)

/-- A declaration and a loop with one conversion each; integers convert to the other variable of the
loop by themselves. -/
theorem parse_conversions_for :
    ∃ report, parseTokens (Lexer.lex (Text.ascii "int x=1.0;for(uint i=2.5,j=1;;);") false) []
        Options.all = .ok report ∧
      Options.all.conversions = true ∧ (Edit.conversions report.edits).length = 2 ∧
      (Module.numbered report.module).arena.length = 3 ∧
      Edit.conversions report.edits = (Module.numbered report.module).conversions := by
  have hcount : (parseTokens (Lexer.lex (Text.ascii "int x=1.0;for(uint i=2.5,j=1;;);") false) []
      Options.all).toOption.map (fun report => ((Edit.conversions report.edits).length,
        (Module.numbered report.module).arena.length)) = some (2, 3) := by
    rw [Lexer.lex_eq_scan]
    decide +kernel
  obtain ⟨report, hreport, hlen⟩ := exists_ok_of_map hcount
  exact ⟨report, hreport, rfl, congrArg Prod.fst hlen, congrArg Prod.snd hlen,
    (parse_conversions hreport).1 rfl⟩

end Document

end ShaderRepair

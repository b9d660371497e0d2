import Intreccio.Graph.Footprints
import Intreccio.Exec.Machine

/-! What queries only read: lookups, scans, the scalar functions and the evaluation of
expressions leave the store as it is.
-/

namespace Intreccio

open Kv Words Program List

namespace Catalog

@[simp, grind ←] theorem reads_lookupLabel (name : Str) : (lookupLabel name).Reads := reads_lookupDict _ _

@[simp, grind ←] theorem reads_lookupType (name : Str) : (lookupType name).Reads := reads_lookupDict _ _

@[simp, grind ←] theorem reads_lookupKey (name : Str) : (lookupKey name).Reads := reads_lookupDict _ _

@[simp, grind ←] theorem reads_labelName (id : UInt32) : (labelName id).Reads := reads_revName _ _

@[simp, grind ←] theorem reads_typeName (id : UInt32) : (typeName id).Reads := reads_revName _ _

@[simp, grind ←] theorem reads_keyName (id : UInt32) : (keyName id).Reads := reads_revName _ _

@[grind ←] theorem reads_nameOf {stem : String} {ownerName : UInt32 → Txn Str} (each : ∀ id, (ownerName id).Reads)
    (owner propKey : UInt32) (given : Str)
    : (nameOf stem ownerName owner propKey given).Reads := by grind [nameOf]

end Catalog

namespace Graph

@[grind ←] theorem reads_probeMatches (stem : Val → Except Err Bytes) (parse : Bytes → Except Err UInt64)
    (probes : List Val)
    : (probeMatches stem parse probes).Reads := by
  induction probes with
  | nil => exact reads_ret _
  | cons p rest ih =>
    refine .bind (reads_ofExcept _) (fun _ => .bind (reads_scan _) (fun _ => ?_))
    exact .bind (reads_ofExcept _) (fun _ => .bind ih (fun _ => reads_ret _))

@[grind ←] theorem reads_nodesWhere (keyID : UInt32) (accept : Val → Bool) (ids : List UInt64)
    : (nodesWhere keyID accept ids).Reads := by
  induction ids with grind [nodesWhere]

@[simp, grind ←] theorem reads_nodesByProperty (labelID keyID : UInt32) (value : Val)
    : (nodesByProperty labelID keyID value).Reads := by grind [nodesByProperty]

@[simp, grind ←] theorem reads_edgesWhere (typeID keyID : UInt32) (accept : Val → Bool)
    : (edgesWhere typeID keyID accept).Reads := by grind [edgesWhere]

@[simp, grind ←] theorem reads_edgesByProperty (typeID keyID : UInt32) (value : Val)
    : (edgesByProperty typeID keyID value).Reads := by grind [edgesByProperty]

@[grind ←] theorem reads_openBands (bands : List BandPlan) : (openBands bands).Reads := by
  induction bands with grind [openBands, scanFrom]

@[simp, grind ←] theorem reads_scanAllNodes : scanAllNodes.Reads := by grind [scanAllNodes]

@[simp, grind ←] theorem reads_scanLabel (labelID : UInt32) : (scanLabel labelID).Reads := by
  grind [scanLabel]

@[simp, grind ←] theorem reads_scanPropertyRange (labelID keyID : UInt32) (r : PropRange)
    : (scanPropertyRange labelID keyID r).Reads := by grind [scanPropertyRange]

@[grind ←] theorem reads_nextInRange (segs : List RangeSegment) : (nextInRange segs).Reads := by
  fun_induction nextInRange segs with grind

@[grind ←] theorem reads_nodeOfLabelKey (k : Bytes) : (nodeOfLabelKey k).Reads := by grind [nodeOfLabelKey]

@[simp, grind ←] theorem reads_cursor_next (cur : NodeCursor) : cur.next.Reads := by
  fun_cases NodeCursor.next cur with grind

@[grind ←] theorem reads_scanTypes {edges : UInt32 → Txn (List EdgeRef)} (each : ∀ t, (edges t).Reads)
    (types : List UInt32)
    : (scanTypes edges types).Reads := by
  induction types with grind [scanTypes]

@[grind ←] theorem reads_neighbors (n : UInt64) (out inc : Bool) (types : Option (List UInt32))
    : (neighbors n out inc types).Reads := by grind [neighbors]

@[grind ←] theorem reads_layer (spec : PathSpec) (nodes : List UInt64) (s : BfsSide) (next : List UInt64)
    : (BfsSide.layer spec nodes s next).Reads := by
  induction nodes generalizing s next with grind [BfsSide.layer]

@[grind ←] theorem reads_expand (s other : BfsSide) (spec : PathSpec) : (s.expand other spec).Reads := by
  grind [BfsSide.expand]

@[grind ←] theorem reads_search (spec : PathSpec) (fuel : Nat) (fwd bwd : BfsSide)
    : (search spec fuel fwd bwd).Reads := by
  induction fuel generalizing fwd bwd with grind [search]

@[simp, grind ←] theorem reads_shortestPaths (src dst : UInt64) (spec : PathSpec)
    : (shortestPaths src dst spec).Reads := by grind [shortestPaths]

end Graph

namespace Exec

open Graph Ast Plan

@[grind ←] theorem reads_needArgs (name : String) (args : List Val) (least : Nat) (most : Option Nat)
    : (needArgs name args least most).Reads := by grind [needArgs]

@[grind ←] theorem reads_oneArg {f : Context → Choices → Val → Txn Val} {name : String}
    (each : ∀ ctx c v, (f ctx c v).Reads) (ctx : Context) (c : Choices) (args : List Val)
    : (oneArg name f ctx c args).Reads := by
  induction args with grind [oneArg]

@[grind ←] theorem reads_namesOf {lookup : UInt32 → Txn Str} (each : ∀ id, (lookup id).Reads)
    (ids : List UInt32)
    : (namesOf lookup ids).Reads := by
  induction ids with grind [namesOf]

@[grind ←] theorem reads_keyNames (c : Choices) (props : List (UInt32 × Val)) : (keyNames c props).Reads := by
  grind [keyNames]

@[grind ←] theorem reads_propsMap (c : Choices) (props : List (UInt32 × Val)) : (propsMap c props).Reads := by
  grind [propsMap]

@[grind ←] theorem reads_intArg (name : String) (v : Val) : (intArg name v).Reads := by
  cases v with grind [intArg]

@[grind ←] theorem reads_intArgs (name : String) (args : List Val) : (intArgs name args).Reads := by
  induction args with grind [intArgs]

def ReadingFunc (f : ScalarFunc) : Prop := ∀ ctx c args, (f ctx c args).Reads

theorem reading_fnLabels : ReadingFunc fnLabels := by
  refine reads_oneArg (fun ctx c v => ?_)
  grind

theorem reading_fnType : ReadingFunc fnType := by
  refine reads_oneArg (fun ctx c v => ?_)
  grind

theorem reading_fnKeys : ReadingFunc fnKeys := by
  refine reads_oneArg (fun ctx c v => ?_)
  grind

theorem reading_fnProperties : ReadingFunc fnProperties := by
  refine reads_oneArg (fun ctx c v => ?_)
  grind

theorem reading_edgeEnd (name : String) (pick : EdgeOf Val → UInt64) : ReadingFunc (edgeEnd name pick) := by
  refine reads_oneArg (fun ctx c v => ?_)
  grind

@[grind ←] theorem reads_sizeOf (name : String) (v : Val) : (sizeOf name v).Reads := by
  cases v with grind [sizeOf]

theorem reading_listFunc (name : String) (f : List Val → Val) : ReadingFunc (listFunc name f) := by
  refine reads_oneArg (fun ctx c v => ?_)
  grind

theorem reading_numericFunc (name : String) (f : Binary64 → Binary64) : ReadingFunc (numericFunc name f) := by
  refine reads_oneArg (fun ctx c v => ?_)
  grind

theorem reading_stringFn (name : String) (f : Library → Str → Str) : ReadingFunc (stringFn name f) := by
  refine reads_oneArg (fun ctx c v => ?_)
  grind

theorem reading_fnRange : ReadingFunc fnRange := by
  intro ctx c args
  refine .bind (reads_needArgs _ _ _ _) (fun _ => .bind (reads_intArgs _ _) (fun nums => ?_))
  exact reads_ite (reads_fail _) (reads_ite (reads_fail _) (reads_ret _))

@[grind ←] theorem reads_substringFrom (s : Str) (start : Int64) (more : List Val)
    : (substringFrom s start more).Reads := by
  induction more with grind [substringFrom]

theorem reading_fnSubstring : ReadingFunc fnSubstring := by
  intro ctx c args
  unfold fnSubstring
  grind

theorem reading_fnReplace : ReadingFunc fnReplace := by
  intro ctx c args
  unfold fnReplace
  grind

theorem reading_fnSplit : ReadingFunc fnSplit := by
  intro ctx c args
  unfold fnSplit
  grind

theorem reading_kinds
    : ReadingFunc fnID ∧ ReadingFunc fnNodes ∧ ReadingFunc fnRelationships ∧ ReadingFunc fnToInteger
      ∧ ReadingFunc fnToFloat ∧ ReadingFunc fnToString := by
  refine ⟨?_, ?_, ?_, ?_, ?_, ?_⟩ <;>
    · refine reads_oneArg (fun ctx c v => ?_)
      cases v <;> first | exact reads_ret _ | exact reads_fail _

theorem reading_fnAbs : ReadingFunc fnAbs := by
  refine reads_oneArg (fun ctx c v => ?_)
  grind

theorem reading_fnSign : ReadingFunc fnSign := by
  refine reads_oneArg (fun ctx c v => ?_)
  grind

theorem reading_scalarFuncs : ∀ e ∈ scalarFuncs, ReadingFunc e.2 := by
  have counted {name : String} {least : Nat} {most : Option Nat} {f : Context → Choices → List Val → Val}
      : ReadingFunc (fun ctx c args => do needArgs name args least most; return f ctx c args) :=
    fun _ _ _ => .bind (reads_needArgs _ _ _ _) (fun _ => reads_ret _)
  obtain ⟨id, nodes, rels, toInteger, toFloat, toStr⟩ := reading_kinds
  simp only [scalarFuncs, forall_mem_cons, not_mem_nil, false_imp_iff, implies_true,
    and_true]
  exact ⟨id, reading_fnLabels, reading_fnType, reading_fnKeys, reading_fnProperties,
    reads_oneArg (fun _ _ _ => reads_sizeOf _ _), reads_oneArg (fun _ _ _ => reads_sizeOf _ _),
    nodes, rels, toInteger, toFloat, toStr, reading_stringFn _ _, reading_stringFn _ _,
    reading_stringFn _ _, reading_fnSubstring, reading_fnReplace, reading_fnSplit, reading_fnAbs,
    reading_listFunc _ _, reading_listFunc _ _, reading_listFunc _ _, reading_fnRange, counted,
    reading_edgeEnd _ _, reading_edgeEnd _ _, reading_numericFunc _ _, reading_numericFunc _ _,
    reading_numericFunc _ _, reading_numericFunc _ _, reading_fnSign, counted, counted⟩

theorem reading_scalarFunc {name : Str} {f : ScalarFunc} (found : scalarFunc name = some f)
    : ReadingFunc f := by
  obtain ⟨e, member, rfl⟩ : ∃ e ∈ scalarFuncs, e.2 = f := by
    unfold scalarFunc at found
    generalize scalarFuncs = table at found
    induction table with
    | nil => simp [OrderedMap.find] at found
    | cons e rest ih =>
      obtain ⟨key, g⟩ := e
      simp only [OrderedMap.find] at found
      split at found
      · exact ⟨_, mem_cons_self, Option.some.inj found⟩
      · obtain ⟨e, member, same⟩ := ih found
        exact ⟨e, mem_cons_of_mem _ member, same⟩
  exact reading_scalarFuncs e member

@[grind ←] theorem reads_propValue (props : List (UInt32 × Val)) (key : Str) : (propValue props key).Reads := by
  grind [propValue]

@[grind ←] theorem reads_accessProperty (target : Val) (key : Str) : (accessProperty target key).Reads := by
  cases target with grind [accessProperty]

@[grind ←] theorem reads_accessElement (target index : Val) : (accessElement target index).Reads := by
  refine reads_ite (reads_ret _) ?_
  split <;> first
    | exact reads_ret _
    | exact reads_fail _
    | exact reads_ofExcept _
    | exact reads_propValue _ _

@[grind ←] theorem reads_hasLabels (n : NodeOf Val) (labels : List Str) : (hasLabels n labels).Reads := by
  induction labels with grind [hasLabels]

@[grind ←] theorem reads_testLabels (target : Val) (labels : List Str) : (testLabels target labels).Reads := by
  cases target with grind [testLabels]

@[grind ←] theorem reads_comprehend {body : Val → Choices → Txn (Option Val)} (each : ∀ v c, (body v c).Reads)
    (items : List Val) (c : Choices)
    : (comprehend body items c).Reads := by
  induction items generalizing c with grind [comprehend]

@[grind ←] theorem reads_tally {test : Val → Choices → Txn Val} (each : ∀ v c, (test v c).Reads)
    (kind : QuantifierKind) (items : List Val) (t : Tally) (c : Choices)
    : (tally kind test items t c).Reads := by
  induction items generalizing t c with grind [tally]

@[grind ←] theorem reads_runEntries {entries : List (Str × Txn Val)} (each : ∀ e ∈ entries, e.2.Reads)
    : (runEntries entries).Reads := by
  induction entries with
  | nil => exact reads_ret _
  | cons e rest ih =>
    have more := ih (fun e member => each e (mem_cons_of_mem _ member))
    exact .bind (each e mem_cons_self) (fun _ => .bind more (fun _ => reads_ret _))

/-- A call only reads: the function is known before its arguments are evaluated. -/
theorem reads_call {ctx : Context} {name : Str} {c : Choices} {args : Txn (List Val)}
    (evaluated : args.Reads)
    : ((Program.ofExcept (findFunction name)).bind (fun f => args.bind (f ctx c))).Reads := by
  unfold findFunction
  split
  · exact reads_fail _
  · split
    · rename_i f found
      rw [ofExcept_ok_bind]
      exact .bind evaluated (fun vs => reading_scalarFunc found ctx c vs)
    · exact reads_fail _

mutual
theorem reads_eval (ctx : Context) (e : Expr) (b : Row) (c : Choices) : (eval ctx e b c).Reads := by
  cases e with
  | literal value => exact reads_ret _
  | param name =>
    unfold eval
    split
    · exact reads_ret _
    · exact reads_fail _
  | var name =>
    unfold eval
    split
    · exact reads_ret _
    · exact reads_fail _
  | propertyAccess target key =>
    exact .bind (reads_eval ctx target b _) (fun _ => reads_accessProperty _ _)
  | listComprehension loopVar list cond map =>
    unfold eval
    refine .bind (reads_eval ctx list b _) (fun l => .bind (reads_ofExcept _) (fun items => ?_))
    cases items with
    | none => exact reads_ret _
    | some items =>
      refine .bind (reads_comprehend (fun v c => ?_) items _) (fun _ => reads_ret _)
      refine .bind (reads_evalOpt ctx cond _ _ _) (fun keep => reads_ite ?_ (reads_ret _))
      exact .bind (reads_evalOpt ctx map _ _ _) (fun _ => reads_ret _)
  | quantifier kind loopVar list cond =>
    unfold eval
    refine .bind (reads_eval ctx list b _) (fun l => .bind (reads_ofExcept _) (fun items => ?_))
    cases items with
    | none => exact reads_ret _
    | some items =>
      exact .bind (reads_tally (fun v c => reads_eval ctx cond _ c) _ _ _ _) (fun _ => reads_ret _)
  | subscript target index =>
    refine .bind (reads_eval ctx target b _) (fun _ => .bind (reads_eval ctx index b _) (fun _ => ?_))
    exact reads_accessElement _ _
  | slice target lower upper =>
    unfold eval
    refine .bind (reads_eval ctx target b _) (fun t => ?_)
    split
    · exact reads_ret _
    · refine .bind (reads_evalOpt ctx lower _ _ _) (fun lo => .bind (reads_ofExcept _) (fun i => ?_))
      cases i with
      | none => exact reads_ret _
      | some i =>
        refine .bind (reads_evalOpt ctx upper _ _ _) (fun hi => .bind (reads_ofExcept _) (fun j => ?_))
        exact reads_ret _
    · exact reads_fail _
  | unary op e => exact .bind (reads_eval ctx e b _) (fun _ => reads_ofExcept _)
  | binary op left right =>
    refine .bind (reads_eval ctx left b _) (fun _ => .bind (reads_eval ctx right b _) (fun _ => ?_))
    exact reads_ofExcept _
  | labelsPredicate e labels => exact .bind (reads_eval ctx e b _) (fun _ => reads_testLabels _ _)
  | listLiteral elements => exact .bind (reads_evalAll ctx elements b _) (fun _ => reads_ret _)
  | mapLiteral entries =>
    refine .bind (reads_runEntries (fun e member => ?_)) (fun _ => reads_ret _)
    exact reads_evalEntries ctx entries b _ e (MapOrder.mem_range.mp member)
  | caseOf operand whens otherwise =>
    cases operand with
    | none => exact reads_evalWhens ctx none whens (reads_evalOpt ctx otherwise _ _ _) b _
    | some e =>
      refine .bind (reads_eval ctx e b _) (fun v => ?_)
      exact reads_evalWhens ctx (some v) whens (reads_evalOpt ctx otherwise _ _ _) b _
  | functionCall name distinct star args => exact reads_call (reads_evalAll ctx args b _)

theorem reads_evalOpt (ctx : Context) (e : Option Expr) (absent : Val) (b : Row) (c : Choices)
    : (evalOpt ctx e absent b c).Reads := by
  cases e with
  | none => exact reads_ret _
  | some e => exact reads_eval ctx e b c

theorem reads_evalAll (ctx : Context) (l : List Expr) (b : Row) (c : Choices)
    : (evalAll ctx l b c).Reads := by
  cases l with
  | nil => exact reads_ret _
  | cons e rest =>
    refine .bind (reads_eval ctx e b _) (fun _ => .bind (reads_evalAll ctx rest b _) (fun _ => ?_))
    exact reads_ret _

theorem reads_evalEntries (ctx : Context) (l : List (Str × Expr)) (b : Row) (c : Choices)
    (e : Str × Txn Val) (member : e ∈ evalEntries ctx l b c)
    : e.2.Reads := by
  cases l with
  | nil => cases member
  | cons entry rest =>
    obtain ⟨k, x⟩ := entry
    unfold evalEntries at member
    rcases mem_cons.mp member with rfl | later
    · exact reads_eval ctx x b _
    · exact reads_evalEntries ctx rest b _ e later

theorem reads_evalWhens (ctx : Context) (operand : Option Val) (l : List (Expr × Expr))
    {otherwise : Txn Val} (last : otherwise.Reads) (b : Row) (c : Choices)
    : (evalWhens ctx operand l otherwise b c).Reads := by
  cases l with
  | nil => exact last
  | cons entry rest =>
    obtain ⟨cond, result⟩ := entry
    refine .bind (reads_eval ctx cond b _) (fun v => ?_)
    exact reads_ite (reads_eval ctx result b _) (reads_evalWhens ctx operand rest last b _)
end

attribute [grind ←] reads_eval reads_evalOpt reads_evalAll

@[grind ←] theorem reads_evalItems (ctx : Context) (b : Row) (items : List ProjItem) (c : Choices)
    : (evalItems ctx b items c).Reads := by
  induction items generalizing c with grind [evalItems]

@[grind ←] theorem reads_projectRow (ctx : Context) (items : List ProjItem) (b : Row) (c : Choices)
    : (projectRow ctx items b c).Reads := by grind [projectRow]

@[grind ←] theorem reads_evalCount (ctx : Context) (e : Expr) (c : Choices) : (evalCount ctx e c).Reads := by
  grind [evalCount]

@[grind ←] theorem reads_add (ctx : Context) (a : Accumulator) (b : Row) (s : AggSpec) (c : Choices)
    : (a.add ctx b s c).Reads := by grind [Accumulator.add]

@[grind ←] theorem reads_addAccs (ctx : Context) (b : Row) (accs : List Accumulator) (specs : List AggSpec)
    (c : Choices)
    : (addAccs ctx b accs specs c).Reads := by
  induction accs generalizing specs c with cases specs with grind [addAccs]

@[grind ←] theorem reads_addRow (ctx : Context) (groupKeys : List ProjItem) (specs : List AggSpec)
    (groups : List Group) (b : Row) (c : Choices)
    : (addRow ctx groupKeys specs groups b c).Reads := by grind [addRow]

@[grind ←] theorem reads_sortValue (ctx : Context) (b : Row) (e : Expr) (c : Choices)
    : (sortValue ctx b e c).Reads := by grind [sortValue]

@[grind ←] theorem reads_sortLess (ctx : Context) (x y : Row) (keys : List SortKey) (c : Choices)
    : (sortLess ctx x y keys c).Reads := by
  induction keys generalizing c with grind [sortLess]

/-- A computation along a supply of choices that only reads, and what it returns. -/
def ReadsAlong {β : Type} (p : StateT Choices Txn β) (Q : β → Prop) : Prop :=
  ∀ c, (p c).ReadsTo (fun r => Q r.1)

theorem readsAlong_pure {β : Type} {Q : β → Prop} (b : β) (holds : Q b) : ReadsAlong (pure b) Q :=
  fun _ => holds

theorem ReadsAlong.bind {β γ : Type} {P : β → Prop} {Q : γ → Prop} {p : StateT Choices Txn β}
    {f : β → StateT Choices Txn γ} (first : ReadsAlong p P) (rest : ∀ b, P b → ReadsAlong (f b) Q)
    : ReadsAlong (p >>= f) Q :=
  fun c => ReadsTo.bind (first c) (fun r holds => rest r.1 holds r.2)

theorem readsTo_sortRows (ctx : Context) (keys : List SortKey) {rows : List Row} (c : Choices)
    {Kept : Row → Prop} (kept : ∀ r ∈ rows, Kept r)
    : (sortRows ctx keys rows c).ReadsTo (∀ r ∈ ·, Kept r) := by
  have compare (x y : Row)
      : ReadsAlong (fun c => do let r ← sortLess ctx x y keys c.now; return (r, c.later)) (∃ b, · = b) :=
    fun c => ReadsTo.bind (reads_sortLess ctx x y keys c.now) (fun r _ => ⟨r, rfl⟩)
  have sorted := StableSort.sliceStable_contents readsAlong_pure ReadsAlong.bind compare kept
  refine ReadsTo.bind (sorted c) (fun out ⟨inside, same⟩ r member => ?_)
  change r ∈ out.1 at member
  rw [same] at member
  obtain ⟨x, _, rfl⟩ := mem_map.mp member
  exact x.2

@[grind ←] theorem reads_sortRows (ctx : Context) (keys : List SortKey) (rows : List Row) (c : Choices)
    : (sortRows ctx keys rows c).Reads :=
  (readsTo_sortRows ctx keys c fun r (_ : r ∈ rows) => trivial).reads

@[grind ←] theorem reads_describe {rel : Bool} {nameOf : Catalog.IndexDef → Txn (Str × Str × Str)}
    (each : ∀ d, (nameOf d).Reads) (defs : List Catalog.IndexDef)
    : (describe rel nameOf defs).Reads := by
  induction defs with grind [describe]

@[grind ←] theorem reads_listAllIndexes : listAllIndexes.Reads := by
  have named (d : Catalog.IndexDef) : (Catalog.indexName d).Reads :=
    Catalog.reads_nameOf Catalog.reads_labelName _ _ _
  have relNamed (d : Catalog.IndexDef) : (Catalog.relIndexName d).Reads :=
    Catalog.reads_nameOf Catalog.reads_typeName _ _ _
  refine .bind (.bind (reads_scan _) (fun _ => reads_ofExcept _)) (fun defs => ?_)
  refine .bind (reads_describe named _) (fun nodes => ?_)
  refine .bind (.bind (reads_scan _) (fun _ => reads_ofExcept _)) (fun rdefs => ?_)
  exact .bind (reads_describe relNamed _) (fun _ => reads_ret _)

@[grind ←] theorem reads_namedConstraints (defs : List Catalog.ConstraintDef) : (namedConstraints defs).Reads := by
  induction defs with grind [namedConstraints, Catalog.constraintName]

@[grind ←] theorem reads_listing (what : Listing) : what.rows.Reads := by
  cases what with grind [Listing.rows, indexRows, constraintRows, Catalog.listConstraints]

@[grind ←] theorem reads_seekIDs {lookupOwner : Str → Txn (Option UInt32)} (each : ∀ name, (lookupOwner name).Reads)
    (owner key : Str)
    : (seekIDs lookupOwner owner key).Reads := by grind [seekIDs]

@[grind ←] theorem reads_propertyScanIDs (ctx : Context) (label key : Str) (value : Expr) (row : Row) (c : Choices)
    : (propertyScanIDs ctx label key value row c).Reads := by
  refine .bind (reads_seekIDs Catalog.reads_lookupLabel _ _) (fun ids => ?_)
  cases ids with
  | none => exact reads_ret _
  | some ids =>
    refine .bind (reads_eval _ _ _ _) (fun v => reads_ite (reads_ret _) ?_)
    refine reads_ite (reads_nodesByProperty _ _ _) ?_
    exact .bind (reads_nodesByLabel _) (fun _ => reads_nodesWhere _ _ _)

@[grind ←] theorem reads_evalBound (ctx : Context) (e : Option Expr) (inclusive : Bool) (row : Row) (c : Choices)
    : (evalBound ctx e inclusive row c).Reads := by cases e with grind [evalBound]

@[grind ←] theorem reads_openRange (ctx : Context) (x : NodeByPropertyRange) (labelID keyID : UInt32)
    (stem : Option Str) (row : Row) (c : Choices)
    : (openRange ctx x labelID keyID stem row c).Reads := by grind [openRange]

@[grind ←] theorem reads_propertyRangeScan (ctx : Context) (x : NodeByPropertyRange) (row : Row) (c : Choices)
    : (propertyRangeScan ctx x row c).Reads := by
  refine .bind (reads_seekIDs Catalog.reads_lookupLabel _ _) (fun ids => ?_)
  cases ids with
  | none => exact reads_ret _
  | some ids =>
    dsimp only
    split
    · exact reads_openRange _ _ _ _ _ _ _
    · refine .bind (reads_eval _ _ _ _) (fun v => ?_)
      split
      · exact reads_openRange _ _ _ _ _ _ _
      · exact reads_ret _

@[grind ←] theorem reads_source_next (source : NodeSource) : source.next.Reads := by
  fun_cases NodeSource.next source with grind

@[grind ←] theorem reads_relSeekIDs (ctx : Context) (x : RelByProperty) (row : Row) (c : Choices)
    : (relSeekIDs ctx x row c).Reads := by grind [relSeekIDs]

@[grind ←] theorem reads_relSeekRows (x : RelByProperty) (id : UInt64) : (relSeekRows x id).Reads := by
  grind [relSeekRows]

@[grind ←] theorem reads_lookupTypes (types : List Str) : (lookupTypes types).Reads := by
  induction types with grind [lookupTypes]

@[grind ←] theorem reads_gather (e : ExpandOp) (nodeID : UInt64) : (e.gather nodeID).Reads := by
  grind [ExpandOp.gather]

@[grind ←] theorem reads_toNode (e : ExpandOp) (cur : Row) (hit : EdgeHit) : (e.toNode cur hit).Reads := by
  grind [ExpandOp.toNode]

@[grind ←] theorem reads_edge (e : ExpandOp) (hit : EdgeHit) : (e.edge hit).Reads := by
  grind [ExpandOp.edge]

@[grind ←] theorem reads_emit (e : ExpandOp) (cur : Row) (hit : EdgeHit) : (e.emit cur hit).Reads := by
  grind [ExpandOp.emit]

@[grind ←] theorem reads_trailLayer (e : ExpandOp) (frontier : List VarHit) : (e.layer frontier).Reads := by
  induction frontier with
  | nil => exact reads_ret _
  | cons f rest ih => exact .bind (reads_gather e _) (fun _ => .bind ih (fun _ => reads_ret _))

@[grind ←] theorem reads_trails (e : ExpandOp) (least fuel d : Nat) (frontier : List VarHit)
    : (e.trails least fuel d frontier).Reads := by
  induction fuel generalizing d frontier with grind [ExpandOp.trails]

@[grind ←] theorem reads_bfs (e : ExpandOp) (fromID : UInt64) : (e.bfs fromID).Reads := by
  grind [ExpandOp.bfs]

@[grind ←] theorem reads_fetchEdges (ids : List UInt64) : (fetchEdges ids).Reads := by
  induction ids with grind [fetchEdges]

@[grind ←] theorem reads_emitTrail (e : ExpandOp) (cur : Row) (hit : VarHit) : (e.emitTrail cur hit).Reads := by
  grind [ExpandOp.emitTrail]

@[grind ←] theorem reads_pathSpec (x : ShortestPath) : (pathSpec x).Reads := by grind [pathSpec]

@[grind ←] theorem reads_loadNodes (ids : List UInt64) : (loadNodes ids).Reads := by
  induction ids with grind [loadNodes]

@[grind ←] theorem reads_emitPath (x : ShortestPath) (cur : Row) (p : Graph.Path) : (emitPath x cur p).Reads := by
  grind [emitPath]

end Exec

end Intreccio

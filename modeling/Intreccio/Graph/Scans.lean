import Intreccio.Graph.Consistency

/-! Range scans over a well-keyed store: which keys a stem covers, and what the loops that
read and delete the scanned keys do.
-/

namespace Intreccio.Graph

open Kv Kv.Program Words Codec Catalog List OrderedMap

variable {s s' : Store} {y : Bytes}

theorem prefix32 {a b : UInt32} {x : Bytes}
    : uint32Bytes a ++ x <+: uint32Bytes b ++ y ↔ b = a ∧ x <+: y := by
  constructor
  · rintro ⟨rest, same⟩
    rw [append_assoc, Key.append32_inj] at same
    exact ⟨same.1.symm, rest, same.2⟩
  · rintro ⟨rfl, rest, rfl⟩
    exact ⟨rest, append_assoc ..⟩

theorem prefix32_alone {a b : UInt32} : uint32Bytes a <+: uint32Bytes b ++ y ↔ b = a := by
  have whole := prefix32 (a := a) (b := b) (x := []) (y := y)
  simpa using whole

theorem prefix64 {a b : UInt64} {x : Bytes}
    : uint64Bytes a ++ x <+: uint64Bytes b ++ y ↔ b = a ∧ x <+: y := by
  constructor
  · rintro ⟨rest, same⟩
    rw [append_assoc, Key.append64_inj] at same
    exact ⟨same.1.symm, rest, same.2⟩
  · rintro ⟨rfl, rest, rfl⟩
    exact ⟨rest, append_assoc ..⟩

theorem prefix64_alone {a b : UInt64} : uint64Bytes a <+: uint64Bytes b ++ y ↔ b = a := by
  have whole := prefix64 (a := a) (b := b) (x := []) (y := y)
  simpa using whole

variable {κ : Key}

/-- The first byte of a key names its table. -/
theorem tag_eq_iff {t : UInt8} : κ.tag = t ↔ κ.table = Key.tableOf t := by
  rw [← Key.tableOf_tag]
  refine (idxOf_inj ?_).symm
  cases κ with
  | forward d _ => cases d <;> simp [Key.tag, Dict.fwdTag]
  | _ => simp [Key.tag]

variable {stem : Bytes} {t l k : UInt32} {n : UInt64}

theorem under_iff {tag : UInt8} {i : Nat} (number : Key.tableOf tag = i)
    : under (tag :: stem) κ.bytes = true ↔ κ.table = i ∧ stem <+: κ.body := by
  rw [under, isPrefixOf_iff_prefix, Key.bytes, cons_prefix_cons, ← number, ← tag_eq_iff]
  exact and_congr_left (fun _ => eq_comm)

-- The tables are told apart by their numbers (those of the dictionaries by the dictionary), and
-- within one the stem is compared part by part.

theorem under_nodePrefix : under nodePrefix κ.bytes = true ↔ ∃ n, κ = .node n := by
  rw [nodePrefix, under_iff (i := 0) rfl]
  cases κ <;> simp [Key.table]
  cases ‹Dict› <;> simp

theorem under_edgePrefix : under edgePrefix κ.bytes = true ↔ ∃ e, κ = .edge e := by
  rw [edgePrefix, under_iff (i := 1) rfl]
  cases κ <;> simp [Key.table]
  cases ‹Dict› <;> simp

theorem under_outPrefix : under (outPrefix n t) κ.bytes = true ↔ ∃ dst e, κ = .out n t dst e := by
  rw [outPrefix, under_iff (i := 2) rfl]
  cases κ <;> simp [Key.table, Key.body, prefix64, prefix32_alone, append_assoc]
  cases ‹Dict› <;> simp

theorem under_outPrefixAll : under (outPrefixAll n) κ.bytes = true ↔ ∃ t dst e, κ = .out n t dst e := by
  rw [outPrefixAll, under_iff (i := 2) rfl]
  cases κ <;> simp [Key.table, Key.body, prefix64_alone, append_assoc]
  cases ‹Dict› <;> simp

theorem under_inPrefix : under (inPrefix n t) κ.bytes = true ↔ ∃ src e, κ = .inn n t src e := by
  rw [inPrefix, under_iff (i := 3) rfl]
  cases κ <;> simp [Key.table, Key.body, prefix64, prefix32_alone, append_assoc]
  cases ‹Dict› <;> simp

theorem under_inPrefixAll : under (inPrefixAll n) κ.bytes = true ↔ ∃ t src e, κ = .inn n t src e := by
  rw [inPrefixAll, under_iff (i := 3) rfl]
  cases κ <;> simp [Key.table, Key.body, prefix64_alone, append_assoc]
  cases ‹Dict› <;> simp

theorem under_labelPrefix : under (labelPrefix l) κ.bytes = true ↔ ∃ n, κ = .label l n := by
  rw [labelPrefix, under_iff (i := 4) rfl]
  cases κ <;> simp [Key.table, Key.body, prefix32_alone]
  cases ‹Dict› <;> simp

theorem under_propIndexPrefix : under (propIndexPrefix l k) κ.bytes = true ↔ ∃ c n, κ = .prop l k c n := by
  rw [propIndexPrefix, under_iff (i := 5) rfl]
  cases κ <;> simp [Key.table, Key.body, prefix32, prefix32_alone, append_assoc]
  cases ‹Dict› <;> simp

theorem under_uniquePrefix : under (uniquePrefix l k) κ.bytes = true ↔ ∃ d, κ = .unique l k d := by
  rw [uniquePrefix, under_iff (i := 6) rfl]
  cases κ <;> simp [Key.table, Key.body, prefix32, prefix32_alone, append_assoc]
  cases ‹Dict› <;> simp

theorem under_relPropIndexPrefix
    : under (relPropIndexPrefix t k) κ.bytes = true ↔ ∃ c e, κ = .relProp t k c e := by
  rw [relPropIndexPrefix, under_iff (i := 7) rfl]
  cases κ <;> simp [Key.table, Key.body, prefix32, prefix32_alone, append_assoc]
  cases ‹Dict› <;> simp

theorem exec_scan {found : List (Bytes × Bytes)}
    : (scan stem).Exec .exact s (.ok found) s' ↔ found = s.select (under stem) ∧ s' = s := by
  rw [scan, exec_entries, ScanRule.exact_scan]

/-- What a scan finds in a well-keyed store. -/
theorem mem_select_under (keyed : WellKeyed s) {entry : Bytes × Bytes}
    : entry ∈ s.select (under stem)
      ↔ ∃ κ : Key, entry.1 = κ.bytes ∧ cell s κ = some entry.2 ∧ under stem κ.bytes = true := by
  obtain ⟨key, v⟩ := entry
  rw [mem_select]
  constructor
  · rintro ⟨held, inside⟩
    obtain ⟨κ, rfl⟩ := keyed key (by simp [held])
    exact ⟨κ, rfl, held, inside⟩
  · rintro ⟨κ, rfl, held, inside⟩
    exact ⟨held, inside⟩

/-- A probe that finds nothing says that no key of the range is stored. -/
theorem exec_occupied_false (ran : (occupied (under stem) : Txn Bool).Exec .exact s (.ok false) s')
    : (∀ κ : Key, under stem κ.bytes = true → cell s κ = none) ∧ s' = s := by
  rw [exec_occupied, ScanRule.exact_probe] at ran
  obtain ⟨answer, same⟩ := ran
  refine ⟨fun κ inside => ?_, same⟩
  have none' : s.select (under stem) = [] := by simpa using answer
  cases held : cell s κ with
  | none => rfl
  | some v =>
    have member : (κ.bytes, v) ∈ s.select (under stem) := mem_select.mpr ⟨held, inside⟩
    rw [none'] at member
    cases member

/-- Parsing the keys of a range yields, in key order, what the stored keys of the range say. -/
theorem parseKeys_select {α β : Type} (parse : Bytes → Except Err β) (key : α → Key) (make : α → β)
    (keyed : WellKeyed s) (inj : Function.Injective key)
    (covers : ∀ κ : Key, under stem κ.bytes = true ↔ ∃ a, κ = key a)
    (read : ∀ a, parse (key a).bytes = .ok (make a))
    : ∃ found : List α, parseKeys parse (s.select (under stem)) = .ok (found.map make)
      ∧ found.Pairwise (fun a b => (key a).bytes < (key b).bytes)
      ∧ ∀ a, a ∈ found ↔ cell s (key a) ≠ none := by
  have listed (entries : List (Bytes × Bytes)) (made : ∀ e ∈ entries, ∃ a, e.1 = (key a).bytes)
      : ∃ found : List α, parseKeys parse entries = .ok (found.map make)
        ∧ found.map (fun a => (key a).bytes) = entries.map Prod.fst := by
    induction entries with
    | nil => exact ⟨[], rfl, rfl⟩
    | cons entry rest ih =>
      obtain ⟨a, first⟩ := made entry (by simp)
      obtain ⟨more, parsed, same⟩ := ih (fun e member => made e (by simp [member]))
      refine ⟨a :: more, ?_, by simp [same, first]⟩
      rw [parseKeys, first, read, parsed]
      rfl
  obtain ⟨found, parsed, same⟩ := listed (s.select (under stem)) (fun e member => by
    obtain ⟨κ, name, _, inside⟩ := (mem_select_under keyed).mp member
    obtain ⟨a, rfl⟩ := (covers κ).mp inside
    exact ⟨a, name⟩)
  refine ⟨found, parsed, ?_, fun a => ?_⟩
  · have sorted := pairwise_map.mpr (s.select_sorted (under stem))
    rw [← same] at sorted
    exact pairwise_map.mp sorted
  · have listed : a ∈ found ↔ (key a).bytes ∈ (s.select (under stem)).map Prod.fst := by
      rw [← same, mem_map]
      constructor
      · intro member
        exact ⟨a, member, rfl⟩
      · rintro ⟨b, member, equal⟩
        exact inj (Key.bytes_inj.mp equal) ▸ member
    rw [listed, mem_map, Option.ne_none_iff_exists']
    constructor
    · rintro ⟨⟨_, v⟩, member, rfl⟩
      exact ⟨v, (mem_select.mp member).1⟩
    · rintro ⟨v, held⟩
      exact ⟨((key a).bytes, v), mem_select.mpr ⟨held, (covers _).mpr ⟨a, rfl⟩⟩, rfl⟩

/-- A range read: the scan and the parse of its keys. -/
theorem run_scan_parse {β : Type} (stem : Bytes) (parse : Bytes → Except Err β)
    : ((scan stem).bind (fun found => Program.ofExcept (parseKeys parse found))).run s
      = (parseKeys parse (s.select (under stem)), s) := by
  show (Program.ofExcept (parseKeys parse (s.select (under stem))) : Txn (List β)).run s = _
  cases parseKeys parse (s.select (under stem)) <;> rfl

/-- `AllNodes` lists the IDs of the node records, in ID order. -/
theorem run_allNodes (keyed : WellKeyed s)
    : ∃ ids, allNodes.run s = (.ok ids, s) ∧ ids.Pairwise (· < ·)
      ∧ ∀ n, n ∈ ids ↔ cell s (.node n) ≠ none := by
  obtain ⟨ids, parsed, sorted, members⟩ := parseKeys_select nodeIDFromKey Key.node id keyed
    (fun a b => Key.node.inj) (fun κ => under_nodePrefix) nodeIDFromKey_nodeKey
  refine ⟨ids, ?_, sorted.imp (fun below => ?_), members⟩
  · rw [allNodes, bind_eq, run_scan_parse, parsed, map_id]
  · simpa [Key.bytes, Key.tag, Key.body, cons_lt_cons_iff] using below

/-- `NodesByLabel` lists the IDs that have an entry under the label, in ID order. -/
theorem run_nodesByLabel (keyed : WellKeyed s) (l : UInt32)
    : ∃ ids, (nodesByLabel l).run s = (.ok ids, s) ∧ ids.Pairwise (· < ·)
      ∧ ∀ n, n ∈ ids ↔ cell s (.label l n) ≠ none := by
  have read (n : UInt64) : Prod.snd <$> parseLabelKey (Key.label l n).bytes = .ok n := by
    rw [← Key.labelKey_eq, parseLabelKey_labelKey]
    rfl
  obtain ⟨ids, parsed, sorted, members⟩ := parseKeys_select (fun k => Prod.snd <$> parseLabelKey k)
    (Key.label l) id keyed (fun a b same => (Key.label.inj same).2) (fun κ => under_labelPrefix) read
  refine ⟨ids, ?_, sorted.imp (fun below => ?_), members⟩
  · rw [nodesByLabel, bind_eq, run_scan_parse, parsed, map_id]
  · simpa [Key.bytes, Key.tag, Key.body, cons_lt_cons_iff, append_lt_append_left] using below

/-- The nodes with a label are the ones with a label entry. -/
theorem exec_nodesByLabel {ids : List UInt64} (keyed : WellKeyed s)
    (ran : (nodesByLabel l).Exec .exact s (.ok ids) s')
    : (∀ n, n ∈ ids ↔ cell s (.label l n) ≠ none) ∧ s' = s := by
  obtain ⟨listed, done, _, members⟩ := run_nodesByLabel keyed l
  obtain ⟨same, store⟩ := Prod.mk.inj (done.symm.trans (exec_exact_iff.mp ran))
  exact ⟨Except.ok.inj same ▸ members, store.symm⟩

/-- The range of `OutEdges` and of `InEdges`: the edges of one type, or of all for type 0. -/
theorem run_edgeScan (parse : Bytes → Except Err EdgeRef) (t : UInt32) {one all : Bytes}
    (key : UInt32 × UInt64 × UInt64 → Key) (make : UInt32 × UInt64 × UInt64 → EdgeRef)
    (keyed : WellKeyed s) (inj : Function.Injective key) (distinct : Function.Injective make)
    (covers : ∀ κ : Key, under all κ.bytes = true ↔ ∃ a, κ = key a)
    (ofType : ∀ κ : Key, under one κ.bytes = true ↔ ∃ m e, κ = key (t, m, e))
    (read : ∀ a, parse (key a).bytes = .ok (make a))
    : ∃ refs, ((scan (if t ≠ 0 then one else all)).bind
        (fun found => Program.ofExcept (parseKeys parse found))).run s = (.ok refs, s)
      ∧ refs.Nodup
      ∧ ∀ ref, ref ∈ refs ↔ ∃ a, (t = 0 ∨ a.1 = t) ∧ cell s (key a) ≠ none ∧ ref = make a := by
  rw [run_scan_parse]
  have nodup {α : Type} {κ : α → Key} {found : List α}
      (sorted : found.Pairwise (fun a b => (κ a).bytes < (κ b).bytes)) : found.Nodup := by
    refine sorted.imp ?_
    rintro a b below rfl
    exact lt_irrefl _ below
  by_cases every : t = 0
  · obtain ⟨found, parsed, sorted, members⟩ := parseKeys_select parse key make keyed inj covers read
    refine ⟨found.map make, ?_, (nodup sorted).map distinct, fun ref => ?_⟩
    · rw [if_neg (not_not.mpr every), parsed]
    · simp only [mem_map, members, every, true_or, true_and, eq_comm]
  · obtain ⟨found, parsed, sorted, members⟩ := parseKeys_select parse (fun p => key (t, p))
      (fun p => make (t, p)) keyed (fun a b same => (Prod.mk.inj (inj same)).2)
      (fun κ => by rw [ofType, Prod.exists]) (fun p => read (t, p))
    refine ⟨found.map (fun p => make (t, p)), ?_,
      (nodup sorted).map (fun a b same => (Prod.mk.inj (distinct same)).2), fun ref => ?_⟩
    · rw [if_pos every, parsed]
    · simp only [mem_map, members, every, false_or]
      constructor
      · rintro ⟨p, present, rfl⟩
        exact ⟨(t, p), rfl, present, rfl⟩
      · rintro ⟨⟨_, p⟩, rfl, present, rfl⟩
        exact ⟨p, present, rfl⟩

/-- `OutEdges` lists each outgoing adjacency key of the node once. -/
theorem run_outEdges (keyed : WellKeyed s) (n : UInt64) (t : UInt32)
    : ∃ refs, (outEdges n t).run s = (.ok refs, s) ∧ refs.Nodup
      ∧ ∀ ref : EdgeRef, ref ∈ refs ↔ ref.src = n ∧ (t = 0 ∨ ref.type = t)
        ∧ cell s (.out n ref.type ref.dst ref.id) ≠ none := by
  obtain ⟨refs, ran, distinct, members⟩ := run_edgeScan outRef t
    (fun p => .out n p.1 p.2.1 p.2.2) (fun p => ⟨p.2.2, p.1, n, p.2.1⟩) keyed
    (fun a b same => by simpa [Prod.ext_iff] using same)
    (fun a b same => by simp at same; simp [Prod.ext_iff, same])
    (fun κ => (under_outPrefixAll (n := n)).trans (by simp)) (fun κ => under_outPrefix)
    (fun p => by simp [outRef, ← Key.outKey_eq])
  refine ⟨refs, ran, distinct, fun ref => ?_⟩
  rw [members]
  constructor
  · rintro ⟨p, type, present, rfl⟩
    exact ⟨rfl, type, present⟩
  · rintro ⟨rfl, type, present⟩
    exact ⟨(ref.type, ref.dst, ref.id), type, present, rfl⟩

/-- `InEdges` lists each incoming adjacency key of the node once. -/
theorem run_inEdges (keyed : WellKeyed s) (n : UInt64) (t : UInt32)
    : ∃ refs, (inEdges n t).run s = (.ok refs, s) ∧ refs.Nodup
      ∧ ∀ ref : EdgeRef, ref ∈ refs ↔ ref.dst = n ∧ (t = 0 ∨ ref.type = t)
        ∧ cell s (.inn n ref.type ref.src ref.id) ≠ none := by
  obtain ⟨refs, ran, distinct, members⟩ := run_edgeScan inRef t
    (fun p => .inn n p.1 p.2.1 p.2.2) (fun p => ⟨p.2.2, p.1, p.2.1, n⟩) keyed
    (fun a b same => by simpa [Prod.ext_iff] using same)
    (fun a b same => by simp at same; simp [Prod.ext_iff, same])
    (fun κ => (under_inPrefixAll (n := n)).trans (by simp)) (fun κ => under_inPrefix)
    (fun p => by simp [inRef, ← Key.inKey_eq])
  refine ⟨refs, ran, distinct, fun ref => ?_⟩
  rw [members]
  constructor
  · rintro ⟨p, type, present, rfl⟩
    exact ⟨rfl, type, present⟩
  · rintro ⟨rfl, type, present⟩
    exact ⟨(ref.type, ref.src, ref.id), type, present, rfl⟩

/-- Deleting a stem removes the keys under it and nothing else. -/
theorem exec_deletePrefix {u : Unit} (keyed : WellKeyed s)
    (ran : (deletePrefix stem).Exec .exact s (.ok u) s')
    : WellKeyed s'
      ∧ ∀ κ : Key, cell s' κ = if under stem κ.bytes = true then none else cell s κ := by
  simp only [deletePrefix, bind_eq, exec_bind_ok, exec_scan] at ran
  obtain ⟨found, mid, ⟨rfl, rfl⟩, erased⟩ := ran
  have after (k : Bytes) := get_each_erase erased k
  have covered (κ : Key) : κ.bytes ∈ (mid.select (under stem)).map Prod.fst
      ↔ under stem κ.bytes = true ∧ cell mid κ ≠ none := by
    rw [mem_map]
    constructor
    · rintro ⟨⟨_, v⟩, member, rfl⟩
      obtain ⟨held, inside⟩ := mem_select.mp member
      exact ⟨inside, by simp [cell, held]⟩
    · rintro ⟨inside, present⟩
      obtain ⟨v, held⟩ := Option.ne_none_iff_exists'.mp present
      exact ⟨(κ.bytes, v), mem_select.mpr ⟨held, inside⟩, rfl⟩
  refine ⟨fun k present => ?_, fun κ => ?_⟩
  · rw [after] at present
    split at present
    · exact absurd rfl present
    · exact keyed k present
  · rw [cell, after]
    by_cases inside : under stem κ.bytes = true
    · rw [if_pos inside]
      split
      · rfl
      · rename_i missing
        exact not_not.mp (fun present => missing ((covered κ).mpr ⟨inside, present⟩))
    · rw [if_neg inside, if_neg (fun member => inside ((covered κ).mp member).1), cell]

end Intreccio.Graph

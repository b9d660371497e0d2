import Intreccio.Graph.EdgeOperations

/-! Creating and dropping indexes and constraints keeps a store consistent.
All of them scan, so they are executed on the store itself.
-/

namespace Intreccio.Graph

open Kv Kv.Program Words Codec Catalog List

variable {rule : ScanRule Bytes Bytes} {cov : Coverage} {s s' : Store} {l k : UInt32}

variable {fn : UInt64 → Scalar → Txn Unit} {n : UInt64} {c : Scalar}

section Footprints

variable {K : Key → Prop}

/-- Deleting a stem erases keys under it only. -/
theorem within_deletePrefix {stem : Bytes}
    (inside : ∀ κ : Key, under stem κ.bytes = true → K κ)
    : Within K (deletePrefix stem) := by
  refine Footprint.entries_bind (fun found covered => Within.each (fun e member => ?_))
  refine footprint_erase.mpr (fun κ same => inside κ ?_)
  rw [← same]
  exact covered e member

theorem within_forEachLabelValue (called : ∀ n c, Within K (fn n c))
    : Within K (forEachLabelValue l k fn) := by
  refine .bind (.ofReads (reads_nodesByLabel l)) (fun ids => Within.each (fun n _ => ?_))
  refine .bind (.ofReads (reads_getNode n)) (fun node => ?_)
  split
  · exact called n _
  · exact within_ret _

theorem within_buildIndex (l k : UInt32) (name : Str) : Within (OfPair l k) (buildIndex l k name) := by
  refine .bind ((within_write (κ := .index l k)).mpr ⟨rfl, rfl⟩) (fun _ => ?_)
  refine within_forEachLabelValue (fun n c => ?_)
  simp only [Key.propKey_eq, bind_eq, ofExcept_ok_bind]
  exact within_write.mpr ⟨rfl, rfl⟩

theorem within_dropIndexEntries (l k : UInt32) : Within (OfPair l k) (dropIndexEntries l k) := by
  refine .bind (within_deletePrefix (fun κ inside => ?_))
    (fun _ => (within_erase (κ := .index l k)).mpr ⟨rfl, rfl⟩)
  obtain ⟨c, n, rfl⟩ := under_propIndexPrefix.mp inside
  exact ⟨rfl, rfl⟩

/-- The keys creating or dropping an index or a constraint may change. -/
def PairOrFormat (l k : UInt32) (κ : Key) : Prop := OfPair l k κ ∨ κ = .format

theorem EntryKey.ofPair (κ : Key) (entry : EntryKey l k n κ) : OfPair l k κ := by
  cases κ <;> simp_all [EntryKey, OfPair]

theorem Within.pair {α : Type} {p : Txn α} (within : Within (OfPair l k) p) : Within (PairOrFormat l k) p :=
  within.mono (fun _ => .inl)

theorem within_addUniqueConstraint (l k : UInt32) (name : Str)
    : Within (PairOrFormat l k) (addUniqueConstraint l k name) := by
  simp only [addUniqueConstraint, bind_eq]
  refine .bind (.ofReads (reads_hasIndex l k)) (fun had => ?_)
  have claimed (d : Bytes) : Within (PairOrFormat l k)
      (requireUniqueFormat.bind (fun _ => (Program.write (Key.constraint l k).bytes d).bind
        (fun _ => forEachLabelValue l k (fun n c => claimValue l k c n)))) := by
    refine .bind ((within_requireFormat _).mono (fun _ => .inr)) (fun _ => ?_)
    refine .bind (within_write.mpr (.inl ⟨rfl, rfl⟩)) (fun _ => ?_)
    exact within_forEachLabelValue (fun n c =>
      ((within_claimValue l k c n).mono EntryKey.ofPair).pair)
  split
  · exact .bind (within_buildIndex l k []).pair (fun _ => claimed _)
  · exact claimed _

theorem within_dropUniqueConstraint (l k : UInt32) : Within (OfPair l k) (dropUniqueConstraint l k) := by
  simp only [dropUniqueConstraint, bind_eq, pure_eq]
  refine .bind (.ofReads (reads_getConstraint l k)) (fun d => ?_)
  cases d with
  | none => exact within_ret _
  | some d =>
    refine .bind (within_deletePrefix (fun κ inside => ?_)) (fun _ => ?_)
    · obtain ⟨e, rfl⟩ := under_uniquePrefix.mp inside
      exact ⟨rfl, rfl⟩
    · refine .bind ((within_erase (κ := .constraint l k)).mpr ⟨rfl, rfl⟩) (fun _ => ?_)
      split
      · exact within_dropIndexEntries l k
      · exact within_ret _

/-- The keys of one relationship index. -/
def OfRelPair (t k : UInt32) : Key → Prop
  | .relIndex t' k' | .relProp t' k' _ _ => t' = t ∧ k' = k
  | _ => False

/-- The keys creating or dropping a relationship index may change. -/
def RelPairOrFormat (t k : UInt32) (κ : Key) : Prop := OfRelPair t k κ ∨ κ = .format

theorem within_buildRelIndex (t k : UInt32) (name : Str)
    : Within (RelPairOrFormat t k) (buildRelIndex t k name) := by
  simp only [buildRelIndex, bind_eq, pure_eq, scanEdgesOfType]
  refine .bind ((within_requireFormat _).mono (fun _ => .inr)) (fun _ => ?_)
  refine .bind ((within_write (κ := .relIndex t k)).mpr (.inl ⟨rfl, rfl⟩)) (fun _ => ?_)
  refine .bind (.ofReads (reads_scan _)) (fun found => Within.bind (within_ofExcept _) (fun edges => ?_))
  refine .each (fun e _ => ?_)
  split
  · simp only [Key.relPropKey_eq, ofExcept_ok_bind]
    exact within_write.mpr (.inl ⟨rfl, rfl⟩)
  · exact within_ret _

theorem within_dropRelIndexEntries (t k : UInt32) : Within (OfRelPair t k) (dropRelIndexEntries t k) := by
  refine .bind (within_deletePrefix (fun κ inside => ?_))
    (fun _ => (within_erase (κ := .relIndex t k)).mpr ⟨rfl, rfl⟩)
  obtain ⟨c, e, rfl⟩ := under_relPropIndexPrefix.mp inside
  exact ⟨rfl, rfl⟩

end Footprints

theorem Consistent.changePair (consistent : Consistent cov s) (framed : Framed (OfPair l k) s s')
    (aligned : PairAligned cov s' (Carries s) l k)
    : Consistent cov s' := by
  have node (n : UInt64) : cell s' (.node n) = cell s (.node n) := framed.frame (.node n) id
  refine ⟨⟨framed.keyed consistent.nodes.keyed, fun n => ?_, fun l' k' => ?_⟩, fun e => ?_⟩
  · exact (consistent.nodes.aligned n).congr (node n) (fun l' => framed.frame (.label l' n) id)
  · have here : PairAligned cov s' (Carries s) l' k' := by
      by_cases same : l' = l ∧ k' = k
      · obtain ⟨rfl, rfl⟩ := same
        exact aligned
      · refine (consistent.nodes.entered l' k').congr (fun κ inside => framed.frame κ ?_)
          (fun _ _ _ => Iff.rfl)
        cases κ <;> simp_all [OfPair]
    exact here.congr (fun _ _ => rfl) (fun n c _ => Carries.congr (node n))
  · refine (consistent.edges e).congr (fun κ inside => framed.frame κ ?_)
      (fun t k' => framed.frame (.relIndex t k') id) (fun n present => (node n).symm ▸ present)
    cases κ <;> simp_all [OfEdge, OfPair]

/-- The nodes of a list with their indexable values at the key. -/
def Listed (s : Store) (k : UInt32) (ids : List UInt64) (n : UInt64) (c : Scalar) : Prop :=
  n ∈ ids ∧ ∃ r, nodeAt s n = some r ∧ r.props.get k = some c.toVal

theorem listed_cons {id : UInt64} {ids : List UInt64} {r : NodeRecord}
    (record : nodeAt s id = some r)
    : Listed s k (id :: ids) n c
      ↔ (n = id ∧ r.props.get k = some c.toVal) ∨ Listed s k ids n c := by
  simp only [Listed, mem_cons]
  constructor
  · rintro ⟨rfl | member, r', found, held⟩
    · obtain rfl := Option.some.inj (record.symm.trans found)
      exact .inl ⟨rfl, held⟩
    · exact .inr ⟨member, r', found, held⟩
  · rintro (⟨rfl, held⟩ | ⟨member, rest⟩)
    · exact ⟨.inl rfl, r, record, held⟩
    · exact ⟨.inr member, rest⟩

variable {u : Unit} {visited : UInt64 → Scalar → Prop} {name : Str}

/-- The invariant rule of the loop over listed nodes: `visited` collects the nodes and values
the body was called with.
-/
theorem exec_visitListed {ids : List UInt64} {t : Store} (inv : (UInt64 → Scalar → Prop) → Store → Prop)
    (nodes : ∀ visited t, inv visited t → ∀ n, cell t (.node n) = cell s (.node n))
    (step : ∀ visited t t' n c, inv visited t → (fn n c).Exec .exact t (.ok ()) t' → inv (fun m d => visited m d ∨ (m = n ∧ d = c)) t')
    (start : inv visited t)
    (ran : (each ids (fun id => (getNode id).bind (fun node => match (node.props.get k).bind Val.scalar? with | some c => fn id c | none => ret ()))).Exec .exact t (.ok u) s')
    : inv (fun n c => visited n c ∨ Listed s k ids n c) s' := by
  induction ids generalizing t visited with
  | nil =>
    rw [exec_each_nil] at ran
    subst ran
    simpa [Listed] using start
  | cons id rest ih =>
    obtain ⟨after, first, more⟩ := exec_each_cons.mp ran
    obtain ⟨node, found, called⟩ := exec_getNode_bind first
    have record : nodeAt s id = some node.toNodeRecord :=
      (nodeAt_congr (nodes visited t start id)).symm.trans found
    simp only [listed_cons record]
    cases value : (node.props.get k).bind Val.scalar? with
    | none =>
      simp only [value, exec_ret, true_and] at called
      subst called
      have unlisted (n : UInt64) (c : Scalar)
          : ¬ (n = id ∧ node.props.get k = some c.toVal) := by
        rintro ⟨_, held⟩
        simp [held] at value
      simpa [unlisted] using ih start more
    | some c =>
      simp only [value] at called
      obtain ⟨v, held, scalar⟩ := Option.bind_eq_some_iff.mp value
      obtain rfl := Val.scalar?_eq_some.mp scalar
      have done := ih (step visited t after id c start called) more
      simpa [held, toVal_inj, or_assoc, eq_comm (a := c)] using done

/-- The invariant rule of `forEachLabelValue`: the body is called with every value the records
give.
-/
theorem exec_forEachLabelValue (keyed : WellKeyed s)
    (labelled : ∀ n, cell s (.label l n) ≠ none ↔ ∃ r, nodeAt s n = some r ∧ l ∈ r.labels)
    (inv : (UInt64 → Scalar → Prop) → Store → Prop) {before : UInt64 → Scalar → Prop}
    (nodes : ∀ visited t, inv visited t → ∀ n, cell t (.node n) = cell s (.node n))
    (step : ∀ visited t t' n c, inv visited t → (fn n c).Exec .exact t (.ok ()) t' → inv (fun m d => visited m d ∨ (m = n ∧ d = c)) t')
    (start : inv before s) (ran : (forEachLabelValue l k fn).Exec .exact s (.ok u) s')
    : inv (fun n c => before n c ∨ Carries s n l k c) s' := by
  simp only [forEachLabelValue, bind_eq, pure_eq] at ran
  obtain ⟨ids, mid, listed, ran⟩ := exec_bind_ok.mp ran
  obtain ⟨members, same⟩ := exec_nodesByLabel keyed listed
  subst mid
  have carried (n : UInt64) (c : Scalar) : Listed s k ids n c ↔ Carries s n l k c := by
    rw [Listed, members, labelled]
    constructor
    · rintro ⟨⟨r, found, member⟩, r', found', held⟩
      obtain rfl := Option.some.inj (found.symm.trans found')
      exact ⟨r, found, member, held⟩
    · rintro ⟨r, found, member, held⟩
      exact ⟨⟨r, found, member⟩, r, found, held⟩
  simpa only [carried] using exec_visitListed inv nodes step start ran

/-- Backfilling enters the values of all nodes under the pair. -/
structure Backfilled (s : Store) (l k : UInt32) (visited : UInt64 → Scalar → Prop) (t : Store)
    : Prop where
  framed : Framed (fun κ => ∃ c n, κ = .prop l k c n) s t
  entered : ∀ c n, cell t (.prop l k c n) ≠ none ↔ visited n c

theorem Backfilled.enter {t : Store} (filled : Backfilled s l k visited t)
    : Backfilled s l k (fun m d => visited m d ∨ (m = n ∧ d = c))
        (t.set (Key.prop l k c n).bytes []) := by
  refine ⟨filled.framed.trans (.set t ⟨c, n, rfl⟩ []), fun d m => ?_⟩
  rw [cell_set]
  by_cases here : d = c ∧ m = n
  · simp [here]
  · rw [if_neg (by simpa using here), filled.entered]
    tauto

theorem consistent_buildIndex (consistent : Consistent cov s)
    (ran : (buildIndex l k name).Exec .exact s (.ok u) s')
    : Consistent cov s' ∧ Indexed s' l k := by
  have framed := (within_buildIndex l k name).framed ran
  simp only [buildIndex, addNamedIndex, bind_eq, exec_write_bind, Key.indexKey_eq] at ran
  have keyed : WellKeyed (s.set (Key.index l k).bytes name) := consistent.nodes.keyed.set _ _
  have filled : Backfilled (s.set (Key.index l k).bytes name) l k
      (fun n c => cell s (.prop l k c n) ≠ none
        ∨ Carries (s.set (Key.index l k).bytes name) n l k c) s' := by
    refine exec_forEachLabelValue keyed (fun n => ?_) (Backfilled _ l k)
      (fun visited t filled n => filled.framed.frame (.node n) (by simp)) ?_ ?_ ran
    · simpa [nodeAt] using (consistent.nodes.aligned n).labels l
    · intro visited t t' n c before wrote
      rw [Key.propKey_eq] at wrote
      simp only [exec_ofExcept_bind, Except.ok.injEq, exists_eq_left', exec_write] at wrote
      subst wrote
      exact before.enter
    · exact ⟨.refl _ _, fun c n => by simp⟩
  have indexed : Indexed s' l k := by simp [Indexed, filled.framed.frame (.index l k) (by simp)]
  have old := consistent.nodes.entered l k
  refine ⟨consistent.changePair framed
    ⟨fun c n covered => ?_, fun d b covered => ?_, fun _ => indexed⟩, indexed⟩
  · -- An entry from before is one of a node that carries the value.
    have entered := old.props c n covered
    rw [filled.entered]
    simp only [Carries, nodeAt, cell_set, reduceCtorEq, if_false] at entered ⊢
    tauto
  · rw [filled.framed.frame (.unique l k d) (by simp), Constrained,
      filled.framed.frame (.constraint l k) (by simp)]
    simpa [Constrained] using old.owners d b covered

theorem consistent_dropIndexEntries (consistent : Consistent cov s) (free : ¬ Constrained s l k)
    (ran : (dropIndexEntries l k).Exec .exact s (.ok u) s')
    : Consistent cov s' := by
  have framed := (within_dropIndexEntries l k).framed ran
  simp only [dropIndexEntries, removeIndex, bind_eq, Key.indexKey_eq] at ran
  obtain ⟨_, mid, deleted, erased⟩ := exec_bind_ok.mp ran
  obtain ⟨_, cells⟩ := exec_deletePrefix consistent.nodes.keyed deleted
  rw [exec_erase] at erased
  subst erased
  have kept (κ : Key) (other : ∀ c n, κ ≠ .prop l k c n) : cell mid κ = cell s κ := by
    rw [cells, if_neg]
    rw [under_propIndexPrefix]
    rintro ⟨c, n, same⟩
    exact other c n same
  have free' : ¬ Constrained (mid.delete (Key.index l k).bytes) l k := by
    simpa [Constrained, kept] using free
  refine consistent.changePair framed ⟨fun c n _ => ?_, fun d b covered => ?_,
    fun registered => absurd registered free'⟩
  · rw [cell_delete, if_neg (by simp), cells, if_pos (under_propIndexPrefix.mpr ⟨c, n, rfl⟩)]
    simp [Indexed]
  · rw [cell_delete, if_neg (by simp), kept (.unique l k d) (by simp),
      (consistent.nodes.entered l k).owners d b covered]
    simp [free, free']

/-- Claiming gives every canonical value to the node that has it. -/
structure OwnersClaimed (cov : Coverage) (s : Store) (l k : UInt32)
    (visited : UInt64 → Scalar → Prop) (t : Store) : Prop where
  framed : Framed (fun κ => ∃ d, κ = .unique l k d) s t
  claimed
    : ∀ d b, cov.covers d → (cell t (.unique l k d) = some b
        ↔ ∃ n c, visited n c ∧ uniqueValue c = some d ∧ b = uint64Bytes n)

theorem OwnersClaimed.claim {t t' : Store}
    (before : OwnersClaimed cov s l k visited t) (step : Claimed t l k c n t')
    : OwnersClaimed cov s l k (fun m d => visited m d ∨ (m = n ∧ d = c)) t' := by
  have framed : Framed (fun κ => ∃ d, κ = .unique l k d) t t' := by
    rcases step with ⟨_, rfl⟩ | ⟨d, _, ⟨_, rfl⟩ | ⟨_, rfl⟩⟩
    · exact .refl _ _
    · exact .set t ⟨d, rfl⟩ _
    · exact .refl _ _
  refine ⟨before.framed.trans framed, fun d b covered => ?_⟩
  have law := before.claimed d
  rw [owned_or, ← law b covered, step.owner fun b held => ?_]
  obtain ⟨m, _, _, _, number⟩ := (law b covered).mp held
  exact ⟨m, number⟩

theorem catalogued_requireFormat {v : UInt32} (ran : (requireFormat v).Exec rule s (.ok u) s')
    : Catalogued s s' :=
  ((within_requireFormat v).framed ran).mono (by rintro _ rfl; trivial)

/-- Registering a constraint on an indexed pair and claiming its values. -/
theorem consistent_constrain {d : ConstraintDef} (consistent : Consistent cov s)
    (pair : d.label = l ∧ d.propKey = k) (indexed : Indexed s l k)
    (ran : (requireUniqueFormat.bind (fun _ => (addConstraint d).bind (fun _ => forEachLabelValue l k (fun n c => claimValue l k c n)))).Exec .exact s (.ok u) s')
    : Consistent cov s' := by
  obtain ⟨_, t, formatted, ran⟩ := exec_bind_ok.mp ran
  have origin := (catalogued_requireFormat formatted).consistent consistent
  rw [Indexed, ← (catalogued_requireFormat formatted).frame (.index l k) id] at indexed
  simp only [addConstraint, pair.1, pair.2, exec_write_bind, Key.constraintKey_eq] at ran
  set entry : Bytes := (if d.ownsIndex = true then 1 else 0) :: d.name
  have old := origin.nodes.entered l k
  have claimed : OwnersClaimed cov (t.set (Key.constraint l k).bytes entry) l k
      (fun n c => (Constrained t l k ∧ Carries t n l k c)
        ∨ Carries (t.set (Key.constraint l k).bytes entry) n l k c) s' := by
    refine exec_forEachLabelValue (origin.nodes.keyed.set _ _) (fun n => ?_)
      (OwnersClaimed cov _ l k)
      (fun visited t claimed n => claimed.framed.frame (.node n) (by simp)) ?_ ?_ ran
    · simpa [nodeAt] using (origin.nodes.aligned n).labels l
    · intro visited t t' n c before wrote
      exact before.claim (exec_claimValue wrote)
    · refine ⟨.refl _ _, fun e b covered => ?_⟩
      rw [cell_set, if_neg (by simp), old.owners e b covered]
      simp only [exists_and_left, and_assoc]
  have framed : Framed (OfPair l k) t s' := by
    refine (Framed.set t (κ := .constraint l k) (K := OfPair l k) ⟨rfl, rfl⟩ entry).trans
      (claimed.framed.mono ?_)
    rintro _ ⟨e, rfl⟩
    exact ⟨rfl, rfl⟩
  have constrained : Constrained s' l k := by
    simp [Constrained, claimed.framed.frame (.constraint l k) (by simp)]
  have index : cell s' (.index l k) = cell t (.index l k) := by
    simp [claimed.framed.frame (.index l k) (by simp)]
  refine origin.changePair framed ⟨fun c n covered => ?_, fun e b covered => ?_, fun _ => ?_⟩
  · rw [claimed.framed.frame (.prop l k c n) (by simp), cell_set, if_neg (by simp), Indexed, index]
    exact old.props c n covered
  · have either (n : UInt64) (c : Scalar) : ((Constrained t l k ∧ Carries t n l k c)
        ∨ Carries (t.set (Key.constraint l k).bytes entry) n l k c) ↔ Carries t n l k c := by
      simp only [Carries, nodeAt, cell_set, reduceCtorEq, if_false]
      tauto
    rw [claimed.claimed e b covered]
    simp only [constrained, true_and, either]
  · rwa [Indexed, index]

theorem consistent_addUniqueConstraint (consistent : Consistent cov s)
    (ran : (addUniqueConstraint l k name).Exec .exact s (.ok u) s')
    : Consistent cov s' := by
  simp only [addUniqueConstraint, bind_eq] at ran
  obtain ⟨had, mid, asked, ran⟩ := exec_bind_ok.mp ran
  obtain ⟨answer, same⟩ := exec_hasIndex.mp asked
  subst mid
  cases had with
  | true =>
    have indexed : Indexed s l k := by
      rw [Indexed, ← Option.isSome_iff_ne_none, ← answer]
    exact consistent_constrain consistent ⟨rfl, rfl⟩ indexed ran
  | false =>
    obtain ⟨_, t, built, ran⟩ := exec_bind_ok.mp ran
    obtain ⟨filled, indexed⟩ := consistent_buildIndex consistent built
    exact consistent_constrain filled ⟨rfl, rfl⟩ indexed ran

theorem consistent_dropUniqueConstraint (consistent : Consistent cov s)
    (ran : (dropUniqueConstraint l k).Exec .exact s (.ok u) s')
    : Consistent cov s' := by
  simp only [dropUniqueConstraint, removeConstraint, bind_eq, pure_eq, Key.constraintKey_eq] at ran
  obtain ⟨d, mid, got, ran⟩ := exec_bind_ok.mp ran
  obtain ⟨_, same⟩ := exec_getConstraint got
  subst mid
  cases d with
  | none =>
    obtain ⟨_, same⟩ := exec_ret.mp ran
    exact same ▸ consistent
  | some d =>
    simp only at ran
    obtain ⟨_, mid, deleted, ran⟩ := exec_bind_ok.mp ran
    obtain ⟨keyed, cells⟩ := exec_deletePrefix consistent.nodes.keyed deleted
    rw [exec_erase_bind] at ran
    have kept (κ : Key) (other : ∀ d, κ ≠ .unique l k d) : cell mid κ = cell s κ := by
      rw [cells, if_neg]
      rw [under_uniquePrefix]
      rintro ⟨d, same⟩
      exact other d same
    have free : ¬ Constrained (mid.delete (Key.constraint l k).bytes) l k := by
      simp [Constrained]
    have framed : Framed (OfPair l k) s (mid.delete (Key.constraint l k).bytes) := by
      refine Framed.trans ⟨fun _ => keyed, fun κ outside => kept κ ?_⟩
        (.delete mid (κ := .constraint l k) ⟨rfl, rfl⟩)
      rintro e rfl
      exact outside ⟨rfl, rfl⟩
    have dropped : Consistent cov (mid.delete (Key.constraint l k).bytes) := by
      refine consistent.changePair framed
        ⟨fun c n covered => ?_, fun e b _ => ?_, fun registered => absurd registered free⟩
      · rw [cell_delete, if_neg (by simp), kept (.prop l k c n) (by simp)]
        simpa [Indexed, kept] using (consistent.nodes.entered l k).props c n covered
      · rw [cell_delete, if_neg (by simp), cells, if_pos (under_uniquePrefix.mpr ⟨e, rfl⟩)]
        simp [free]
    split at ran
    · exact consistent_dropIndexEntries dropped free ran
    · obtain ⟨_, same⟩ := exec_ret.mp ran
      exact same ▸ dropped

variable {t : UInt32}

theorem Consistent.changeRelPair (consistent : Consistent cov s)
    (framed : Framed (OfRelPair t k) s s')
    (aligned : ∀ c e, cell s' (.relProp t k c e) ≠ none
      ↔ RelIndexed s' t k ∧ ∃ r, edgeAt s e = some r ∧ r.type = t ∧ r.props.get k = some c.toVal)
    : Consistent cov s' := by
  have edge (e : UInt64) : cell s' (.edge e) = cell s (.edge e) := framed.frame (.edge e) id
  have node (n : UInt64) : cell s' (.node n) = cell s (.node n) := framed.frame (.node n) id
  refine ⟨consistent.nodes.congr (framed.keyed consistent.nodes.keyed)
    (fun κ side => framed.frame κ ?_), fun e => ?_⟩
  · cases κ <;> simp_all [NodeSide, OfRelPair]
  · have old := consistent.edges e
    have record := edgeAt_congr (edge e)
    refine ⟨fun b present => ?_, fun r found => ?_, fun r found => ?_, fun src t' dst => ?_,
      fun dst t' src => ?_, fun t' k' c => ?_⟩
    · exact old.readable b ((edge e).symm.trans present)
    · exact old.storable r (record.symm.trans found)
    · rw [node, node]
      exact old.ends r (record.symm.trans found)
    · rw [framed.frame (.out src t' dst e) id, record]
      exact old.outs src t' dst
    · rw [framed.frame (.inn dst t' src e) id, record]
      exact old.ins dst t' src
    · rw [record]
      by_cases same : t' = t ∧ k' = k
      · obtain ⟨rfl, rfl⟩ := same
        exact aligned c e
      · rw [framed.frame (.relProp t' k' c e) same, RelIndexed, framed.frame (.relIndex t' k') same]
        exact old.rels t' k' c

theorem mem_edgesOfType {found : List (Bytes × Bytes)} {edges : List Edge}
    (h : edgesOfType t found = .ok edges) {e : Edge}
    : e ∈ edges
      ↔ ∃ entry ∈ found, decodeEdge entry.2 = .ok e.toEdgeRecord ∧ e.type = t
        ∧ edgeIDFromKey entry.1 = .ok e.id := by
  induction found generalizing edges with
  | nil =>
    obtain rfl : [] = edges := Except.ok.inj h
    simp
  | cons entry rest ih =>
    obtain ⟨key, b⟩ := entry
    simp only [edgesOfType, bind_eq_ok] at h
    obtain ⟨record, read, h⟩ := h
    split at h
    · rename_i type
      simp only [bind_eq_ok] at h
      obtain ⟨id, number, more, others, done⟩ := h
      obtain rfl : ⟨record, id⟩ :: more = edges := Except.ok.inj done
      simp only [mem_cons, ih others, exists_eq_or_imp, read, number, Except.ok.injEq]
      refine or_congr_left ⟨?_, ?_⟩
      · rintro rfl
        exact ⟨rfl, type, rfl⟩
      · rintro ⟨rfl, _, rfl⟩
        rfl
    · rename_i type
      rw [ih h]
      simp only [mem_cons, exists_eq_or_imp, read, Except.ok.injEq, iff_or_self]
      rintro ⟨rfl, here, _⟩
      exact absurd here type

theorem exec_scanEdgesOfType {fn : Edge → Txn Unit} (keyed : WellKeyed s)
    (ran : (scanEdgesOfType t fn).Exec .exact s (.ok u) s')
    : ∃ edges, (∀ e : Edge, e ∈ edges ↔ edgeAt s e.id = some e.toEdgeRecord ∧ e.type = t)
      ∧ (each edges fn).Exec .exact s (.ok u) s' := by
  simp only [scanEdgesOfType, bind_eq] at ran
  obtain ⟨found, mid, scanned, ran⟩ := exec_bind_ok.mp ran
  obtain ⟨rfl, same⟩ := exec_scan.mp scanned
  subst mid
  obtain ⟨edges, listed, ran⟩ := exec_ofExcept_bind.mp ran
  refine ⟨edges, fun e => ?_, ran⟩
  rw [mem_edgesOfType listed]
  constructor
  · rintro ⟨entry, member, read, type, number⟩
    obtain ⟨κ, key, held, inside⟩ := (mem_select_under keyed).mp member
    obtain ⟨id, rfl⟩ := under_edgePrefix.mp inside
    rw [key, ← Key.edgeKey_eq, edgeIDFromKey_edgeKey] at number
    obtain rfl : id = e.id := Except.ok.inj number
    exact ⟨by simp [edgeAt, held, read, Except.toOption], type⟩
  · rintro ⟨found, type⟩
    obtain ⟨b, held, decoded⟩ := decoded_iff.mp found
    refine ⟨((Key.edge e.id).bytes, b),
      (mem_select_under keyed).mpr ⟨_, rfl, held, under_edgePrefix.mpr ⟨_, rfl⟩⟩, decoded, type, ?_⟩
    rw [← Key.edgeKey_eq, edgeIDFromKey_edgeKey]

theorem exec_enterEdges {edges : List Edge}
    (ran : (each edges (fun e => match (e.props.get k).bind Val.scalar? with | some c => (ofExcept (relPropKey t k c.toVal e.id)).bind (fun key => write key []) | none => ret ()) : Txn Unit).Exec rule s (.ok u) s')
    : Framed (fun κ => ∃ c e, κ = .relProp t k c e) s s'
      ∧ ∀ c e, cell s' (.relProp t k c e) ≠ none
        ↔ cell s (.relProp t k c e) ≠ none
          ∨ ∃ edge ∈ edges, edge.id = e ∧ edge.props.get k = some c.toVal := by
  induction edges generalizing s with
  | nil =>
    rw [exec_each_nil] at ran
    subst ran
    exact ⟨.refl _ _, fun c e => by simp⟩
  | cons edge rest ih =>
    obtain ⟨mid, first, more⟩ := exec_each_cons.mp ran
    obtain ⟨framed, entered⟩ := ih more
    cases value : (edge.props.get k).bind Val.scalar? with
    | none =>
      simp only [value, exec_ret, true_and] at first
      subst first
      refine ⟨framed, fun c e => (entered c e).trans (or_congr_right ?_)⟩
      simp only [mem_cons, exists_eq_or_imp, iff_or_self]
      rintro ⟨_, held⟩
      simp [held] at value
    | some c₀ =>
      simp only [value, Key.relPropKey_eq, exec_ofExcept_bind, Except.ok.injEq,
        exists_eq_left', exec_write] at first
      subst first
      obtain ⟨v, held, scalar⟩ := Option.bind_eq_some_iff.mp value
      obtain rfl := Val.scalar?_eq_some.mp scalar
      refine ⟨Framed.trans (.set s ⟨c₀, edge.id, rfl⟩ []) framed, fun c e => ?_⟩
      rw [entered, cell_set]
      simp only [mem_cons, exists_eq_or_imp, held, Option.some.injEq, toVal_inj]
      by_cases here : c = c₀ ∧ e = edge.id
      · simp [here]
      · rw [if_neg (by simpa using here)]
        tauto

theorem consistent_buildRelIndex (consistent : Consistent cov s)
    (ran : (buildRelIndex t k name).Exec .exact s (.ok u) s')
    : Consistent cov s' := by
  simp only [buildRelIndex, addRelIndex, bind_eq, pure_eq, Key.relIndexKey_eq] at ran
  obtain ⟨_, mid, formatted, ran⟩ := exec_bind_ok.mp ran
  have origin := (catalogued_requireFormat formatted).consistent consistent
  rw [exec_write_bind] at ran
  obtain ⟨edges, members, ran⟩ := exec_scanEdgesOfType (origin.nodes.keyed.set _ _) ran
  obtain ⟨filled, entered⟩ := exec_enterEdges ran
  have indexed : RelIndexed s' t k := by simp [RelIndexed, filled.frame (.relIndex t k) (by simp)]
  have framed : Framed (OfRelPair t k) mid s' := by
    refine (Framed.set mid (κ := .relIndex t k) (K := OfRelPair t k) ⟨rfl, rfl⟩ name).trans
      (filled.mono ?_)
    rintro _ ⟨c, e, rfl⟩
    exact ⟨rfl, rfl⟩
  refine origin.changeRelPair framed (fun c e => ?_)
  rw [entered, cell_set, if_neg (by simp), (origin.edges e).rels]
  simp only [members, indexed, true_and, edgeAt, cell_set, reduceCtorEq, if_false]
  constructor
  · rintro (⟨_, known⟩ | ⟨edge, ⟨found, type⟩, rfl, held⟩)
    · exact known
    · exact ⟨_, found, type, held⟩
  · rintro ⟨r, found, type, held⟩
    exact .inr ⟨⟨r, e⟩, ⟨found, type⟩, rfl, held⟩

theorem consistent_dropRelIndexEntries (consistent : Consistent cov s)
    (ran : (dropRelIndexEntries t k).Exec .exact s (.ok u) s')
    : Consistent cov s' := by
  have framed := (within_dropRelIndexEntries t k).framed ran
  simp only [dropRelIndexEntries, removeRelIndex, bind_eq, Key.relIndexKey_eq] at ran
  obtain ⟨_, mid, deleted, erased⟩ := exec_bind_ok.mp ran
  obtain ⟨_, cells⟩ := exec_deletePrefix consistent.nodes.keyed deleted
  rw [exec_erase] at erased
  subst erased
  refine consistent.changeRelPair framed (fun c e => ?_)
  rw [cell_delete, if_neg (by simp), cells, if_pos (under_relPropIndexPrefix.mpr ⟨c, e, rfl⟩)]
  simp [RelIndexed]

end Intreccio.Graph

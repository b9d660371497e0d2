import Intreccio.Graph.LabelOperations

/-! `SetNodeProperties` keeps the laws of nodes, in both of its modes.
Before the final puts a node is entered with exactly the values that its old and its new
properties share; the puts then add what is new.
-/

namespace Intreccio.Graph

open Kv Kv.Program Words Codec Catalog OrderedMap List

variable {rule : ScanRule Bytes Bytes} {cov : Coverage} {s s' : Store} {bears : Bearing}
  {n : UInt64} {c : Scalar} {v : Val}

theorem normalize_toVal (c : Scalar) : normalize c.toVal = c.toVal := by
  cases c <;> rfl

theorem sameValue_toVal_left (normal : normalize v = v) : sameValue c.toVal v = true ↔ v = c.toVal := by
  simp [sameValue, normalize_toVal, normal, Val.scalar?_eq_some]

theorem sameValue_toVal_right (normal : normalize v = v) : sameValue v c.toVal = true ↔ v = c.toVal := by
  cases scalar : v.scalar? with
  | none =>
    simp only [sameValue, normal, scalar, Bool.false_eq_true, false_iff]
    rintro rfl
    simp at scalar
  | some d =>
    obtain rfl := Val.scalar?_eq_some.mp scalar
    simp [sameValue, normalize_toVal, toVal_inj, eq_comm]

/-- What is left of the values borne once the node keeps only those of `p`. -/
def Bearing.retain (bears : Bearing) (n : UInt64) (p : Props) : Bearing :=
  fun m l k c => bears m l k c ∧ (m = n → p.get k = some c.toVal)

variable {o : MapOrder} {old desired p : Props} {u : Unit} {entries : List (UInt32 × Val)}

theorem Entered.dropChanged {labels : List UInt32}
    (known : ∀ l k c, bears n l k c → l ∈ labels ∧ old.get k = some c.toVal)
    (entered : Entered cov s bears)
    (ran : (each (o.range old.entries) (fun e => if keeps desired e.1 e.2 = true then ret () else each labels (fun l => delPropEntry l e.1 e.2 n))).Exec rule s (.ok u) s')
    : Entered cov s' (fun m l k c => bears m l k c ∧ (m = n → keeps desired k c.toVal = true)) := by
  refine (entered.loop (n := n) false (fun e l k c => keeps desired e.1 e.2 = false
    ∧ l ∈ labels ∧ k = e.1 ∧ c.toVal = e.2) ?_ ran).congr (fun _ _ _ _ => rfl)
    (fun m l k c _ => and_congr_right (fun borne => ?_))
  · rintro ⟨k₀, v₀⟩ member fewer t t' less before step
    have held : old.get k₀ = some v₀ := get_eq_some_iff.mpr (MapOrder.mem_range.mp member)
    by_cases kept : keeps desired k₀ v₀ = true
    · rw [if_pos kept, exec_ret] at step
      obtain ⟨_, rfl⟩ := step
      exact before.congr (fun _ _ _ _ => rfl) (fun m l k c _ => by simp [kept])
    · rw [if_neg kept] at step
      refine (before.removeKey (fun l _ c borne => ?_) step).congr (fun _ _ _ _ => rfl)
        (fun m l k c _ => by simp [kept])
      exact Option.some.inj ((known l k₀ c (less rfl _ _ _ _ borne)).2.symm.trans held)
  · constructor
    · rintro all ⟨rfl, ⟨k₀, v₀⟩, _, dropped, _, rfl, rfl⟩
      simp [all rfl] at dropped
    · rintro removed rfl
      obtain ⟨member, held⟩ := known l k c borne
      by_contra dropped
      exact removed ⟨rfl, (k, c.toVal),
        MapOrder.mem_range.mpr (get_eq_some_iff.mp held), by simpa using dropped,
        member, rfl, rfl⟩

/-- The properties after one entry of the merge. -/
def merged (p : Props) (k : UInt32) (v : Val) : Props :=
  if isNull v then p.delete k else p.set k v

theorem get_merged (p : Props) (k : UInt32) (v : Val) (k' : UInt32)
    : (merged p k v).get k'
      = if k' = k then (if isNull v then none else some v) else p.get k' := by
  simp only [merged]
  split <;> simp [get_set, get_delete, *]

/-- One entry of the merge: at its key the node keeps its value only if it is the new one. -/
theorem retain_merged {k k' : UInt32} {m : UInt64} {Q : Prop}
    (solid : isNull c.toVal = false) (away : k' ≠ k → ((m = n → p.get k' = some c.toVal) ↔ Q))
    (here : k' = k → ((m = n → v = c.toVal) ↔ Q))
    : (m = n → (merged p k v).get k' = some c.toVal) ↔ Q := by
  rw [get_merged]
  split
  next key =>
    rw [← here key]
    refine imp_congr_right (fun _ => ?_)
    split
    next null =>
      have differs : v ≠ c.toVal := by
        rintro rfl
        simp [solid] at null
      simp [differs]
    next => rw [Option.some.injEq]
  next key => exact away key

/-- The merge removes the values that change and overlays the map. -/
theorem Entered.merge {labels : List UInt32} {q : Props}
    (known : ∀ l k c, bears n l k c → l ∈ labels ∧ old.get k = some c.toVal)
    (solid : ∀ m l k c, bears m l k c → isNull c.toVal = false)
    (fresh : (entries.map Prod.fst).Nodup) (normal : ∀ e ∈ entries, normalize e.2 = e.2)
    (untouched : ∀ e ∈ entries, p.get e.1 = old.get e.1)
    (entered : Entered cov s (bears.retain n p))
    (ran : (mergeEntries n labels entries p).Exec rule s (.ok q) s')
    : Entered cov s' (bears.retain n q)
      ∧ q = entries.foldl (fun acc e => merged acc e.1 e.2) p := by
  induction entries generalizing s p with
  | nil =>
    obtain ⟨rfl, rfl⟩ := exec_ret.mp ran
    exact ⟨entered, rfl⟩
  | cons entry rest ih =>
    obtain ⟨k, v⟩ := entry
    obtain ⟨absent, restFresh⟩ := nodup_cons.mp fresh
    have value : normalize v = v := normal (k, v) (by simp)
    have here : p.get k = old.get k := untouched (k, v) (by simp)
    have later : ∀ e ∈ rest, (merged p k v).get e.1 = old.get e.1 := by
      intro e member
      have other : e.1 ≠ k := fun same => absent (mem_map.mpr ⟨e, member, same⟩)
      rw [get_merged, if_neg other]
      exact untouched e (by simp [member])
    -- The step retains what both maps have, at this key and at every other.
    suffices moved : ∃ mid, Entered cov mid (bears.retain n (merged p k v))
        ∧ (mergeEntries n labels rest (merged p k v)).Exec rule mid (.ok q) s' by
      obtain ⟨mid, edited, more⟩ := moved
      exact ih restFresh (fun e member => normal e (by simp [member])) later edited more
    simp only [mergeEntries, bind_eq] at ran
    cases had : p.get k with
    | none =>
      simp only [had] at ran
      refine ⟨s, entered.congr (fun _ _ _ _ => rfl) (fun m l k' c _ => and_congr_right fun borne =>
        retain_merged (solid m l k' c borne) (fun _ => Iff.rfl) ?_), ran⟩
      rintro rfl
      refine imp_congr_right (fun mine => ?_)
      subst mine
      have held := (known l k' c borne).2
      simp [← here, had] at held
    | some w =>
      simp only [had] at ran
      have stored : old.get k = some w := here.symm.trans had
      have mine {l : UInt32} {c : Scalar} (borne : bears n l k c) : w = c.toVal :=
        Option.some.inj (stored.symm.trans (known l k c borne).2)
      cases same : sameValue w v with
      | true =>
        simp only [same, Bool.not_true, Bool.false_eq_true, if_false] at ran
        refine ⟨s, entered.congr (fun _ _ _ _ => rfl) (fun m l k' c _ => and_congr_right fun borne =>
          retain_merged (solid m l k' c borne) (fun _ => Iff.rfl) ?_), ran⟩
        rintro rfl
        refine imp_congr_right ?_
        rintro rfl
        obtain rfl := mine borne
        simp [had, (sameValue_toVal_left value).mp same]
      | false =>
        simp only [same, Bool.not_false, if_true] at ran
        obtain ⟨_, mid, removed, more⟩ := exec_bind_ok.mp ran
        have cleared := entered.removeKey (fun l _ c borne => (mine borne.1).symm) removed
        refine ⟨mid, cleared.congr (fun _ _ _ _ => rfl) (fun m l k' c _ => ?_), more⟩
        rw [Bearing.retain, Bearing.retain, and_assoc]
        refine and_congr_right fun borne => retain_merged (solid m l k' c borne) (fun key => by simp [key]) ?_
        rintro rfl
        by_cases own : m = n
        · subst own
          obtain rfl := mine borne
          have changed : v ≠ c.toVal := fun is => by
            simp [(sameValue_toVal_left value).mpr is] at same
          simp [changed, (known l k' c borne).1]
        · simp [own]

/-- The overlay takes each listed value, and drops a key listed with null. -/
theorem get_foldl_merged (fresh : (entries.map Prod.fst).Nodup)
    (p : Props) (k : UInt32)
    : (entries.foldl (fun acc e => merged acc e.1 e.2) p).get k
      = match OrderedMap.find k entries with
        | some v => if isNull v then none else some v
        | none => p.get k := by
  induction entries generalizing p with
  | nil => rfl
  | cons entry rest ih =>
    obtain ⟨absent, restFresh⟩ := nodup_cons.mp fresh
    rw [foldl_cons, ih restFresh]
    by_cases here : k = entry.1
    · have missing : OrderedMap.find k rest = none := find_eq_none
        (fun e member same => absent (mem_map.mpr ⟨e, member, same.trans here⟩))
      rw [missing]
      simp [OrderedMap.find, get_merged, here]
    · simp only [OrderedMap.find, here, if_false]
      cases OrderedMap.find k rest with
      | some v => rfl
      | none => simp [get_merged, here]

/-- Over properties with other keys a null has nothing to remove. -/
theorem foldl_nonNull (fresh : (entries.map Prod.fst).Nodup)
    (apart : ∀ e ∈ entries, p.get e.1 = none)
    : entries.foldl (fun m e => if isNull e.2 then m else m.set e.1 e.2) p
      = entries.foldl (fun acc e => merged acc e.1 e.2) p := by
  induction entries generalizing p with
  | nil => rfl
  | cons e rest ih =>
    obtain ⟨absent, restFresh⟩ := nodup_cons.mp fresh
    have same : (if isNull e.2 then p else p.set e.1 e.2) = merged p e.1 e.2 := by
      rw [merged, delete_of_get_none p (apart e (by simp))]
    rw [foldl_cons, foldl_cons, same]
    refine ih restFresh (fun e' member => ?_)
    rw [get_merged, if_neg fun same => absent (mem_map.mpr ⟨e', member, same⟩)]
    exact apart e' (by simp [member])

/-- What the new properties hold: the given entries that are not null and, when merging, the
old ones at every other key.
-/
def overlay (replace : Bool) (old desired : Props) (k : UInt32) : Option Val :=
  match desired.get k with
  | some v => if isNull v then none else some v
  | none => if replace then none else old.get k

theorem fresh_range (o : MapOrder) (p : Props) : ((o.range p.entries).map Prod.fst).Nodup :=
  ((o.range_perm p.entries).map Prod.fst).nodup_iff.mpr (keys_nodup p.sorted)

theorem find_range (o : MapOrder) (p : Props) (k : UInt32) : OrderedMap.find k (o.range p.entries) = p.get k :=
  find_perm (o.range_perm p.entries) (keys_nodup p.sorted) k

theorem get_overlaid (o : MapOrder) (old desired : Props) (k : UInt32)
    : ((o.range desired.entries).foldl (fun acc e => merged acc e.1 e.2) old).get k
      = overlay false old desired k := by
  rw [get_foldl_merged (fresh_range o desired), find_range]
  rfl

theorem get_replaced (o : MapOrder) (old desired : Props) (k : UInt32)
    : (nonNull (o.range desired.entries)).get k = overlay true old desired k := by
  rw [nonNull, foldl_nonNull (fresh_range o desired) (by simp), get_overlaid]
  rfl

/-- A value that is not null is kept exactly when the new properties have it. -/
theorem keeps_iff (normal : ∀ k v, desired.get k = some v → normalize v = v)
    {k : UInt32} (solid : isNull c.toVal = false)
    : keeps desired k c.toVal = true ↔ overlay true old desired k = some c.toVal := by
  cases found : desired.get k with
  | none => simp [keeps, overlay, found]
  | some v =>
    simp only [keeps, overlay, found, sameValue_toVal_right (normal k v found)]
    constructor
    · rintro rfl
      simp [solid]
    · intro equal
      split at equal
      · cases equal
      · exact Option.some.inj equal

variable {replace : Bool} {r : NodeRecord}

/-- The new properties are normal values that Go can hold. -/
theorem Recordable.overlay (good : Recordable r) {updated : Props}
    (given : ∀ k v, desired.get k = some v → representable v = true ∧ normalize v = v)
    (result : ∀ k, updated.get k = Graph.overlay replace r.props desired k)
    : Recordable ⟨r.labels, updated⟩ := by
  refine Solid.recordable (fun k v held => ?_) good.distinct
  rw [result, Graph.overlay] at held
  split at held
  · rename_i w found
    split at held
    · cases held
    · rename_i notNull
      obtain rfl := Option.some.inj held
      exact ⟨(given k w found).1, (given k w found).2, by rintro rfl; exact notNull rfl⟩
  · split at held
    · cases held
    · exact good.solid k v held

/-- The first loop of `SetNodeProperties`: the entries of values that change are removed, and
the new map is made.
-/
def dropStale (o : MapOrder) (n : UInt64) (r : NodeRecord) (desired : Props) (replace : Bool)
    : Txn Props :=
  if replace then
    (each ((o.sub 1).range r.props.entries) (fun e =>
      if keeps desired e.1 e.2 = true then ret ()
      else each r.labels (fun l => delPropEntry l e.1 e.2 n))).bind
      (fun _ => ret (nonNull ((o.sub 2).range desired.entries)))
  else mergeEntries n r.labels ((o.sub 3).range desired.entries) r.props

theorem within_dropStale : Within (AnyEntry n) (dropStale o n r desired replace) := by
  rw [dropStale]
  split
  · refine .bind (Within.each (fun e _ => ?_)) (fun _ => within_ret _)
    split
    · exact within_ret _
    · exact .each (fun l _ => within_editAny false l e.1 e.2 n)
  · exact within_mergeAny n _ _ _

variable {props : OrderedMap Str Val}

/-- The parts of `SetNodeProperties`. -/
theorem exec_setNodeProperties
    (ran : (setNodeProperties o n props replace).Exec rule s (.ok u) s')
    : ∃ (r : NodeRecord) (desired : Props) (base : Store) (updated : Props) (dropped mid : Store)
        (o₁ : MapOrder),
      nodeAt s n = some r
      ∧ (internEntries false (o₁.range props.entries) .empty).Exec rule s (.ok desired) base
      ∧ (dropStale o n r desired replace).Exec rule base (.ok updated) dropped
      ∧ (each ((o.sub 4).range updated.entries) (fun e =>
          each r.labels (fun l => putPropEntry l e.1 e.2 n))).Exec rule dropped (.ok ()) mid
      ∧ (putNodeRecord n ⟨r.labels, updated⟩).Exec rule mid (.ok ()) s' := by
  simp only [setNodeProperties, bind_eq, pure_eq] at ran
  obtain ⟨node, found, ran⟩ := exec_getNode_bind ran
  obtain ⟨desired, base, interned, ran⟩ := exec_bind_ok.mp ran
  cases replace with
  | true =>
    simp only [if_true] at ran
    obtain ⟨_, dropped, removed, ran⟩ := exec_bind_ok.mp ran
    rw [exec_ret_bind] at ran
    obtain ⟨_, mid, entered, written⟩ := exec_bind_ok.mp ran
    exact ⟨_, desired, base, _, dropped, mid, _, found, interned,
      exec_bind_ok.mpr ⟨(), dropped, removed, exec_ret.mpr ⟨rfl, rfl⟩⟩, entered, written⟩
  | false =>
    simp only [Bool.false_eq_true, if_false] at ran
    obtain ⟨updated, dropped, prepared, ran⟩ := exec_bind_ok.mp ran
    obtain ⟨_, mid, entered, written⟩ := exec_bind_ok.mp ran
    exact ⟨_, desired, base, updated, dropped, mid, _, found, interned, prepared, entered, written⟩

/-- The first loop leaves the shared values and makes the overlay. -/
theorem Entered.dropStale {updated : Props} (found : nodeAt s n = some r)
    (given : ∀ k v, desired.get k = some v → normalize v = v)
    (solid : ∀ m l k c, Carries s m l k c → isNull c.toVal = false)
    (entered : Entered cov s (Carries s))
    (ran : (dropStale o n r desired replace).Exec rule s (.ok updated) s')
    : Entered cov s' (Bearing.retain (Carries s) n updated)
      ∧ ∀ k, updated.get k = overlay replace r.props desired k := by
  have known : ∀ l k c, Carries s n l k c → l ∈ r.labels ∧ r.props.get k = some c.toVal :=
    fun l k c => (carries_iff found).mp
  cases replace with
  | true =>
    simp only [Graph.dropStale, if_true] at ran
    obtain ⟨_, mid, removed, ran⟩ := exec_bind_ok.mp ran
    obtain ⟨rfl, rfl⟩ := exec_ret.mp ran
    refine ⟨(entered.dropChanged known removed).congr (fun _ _ _ _ => rfl)
      (fun m l k c _ => and_congr_right (fun borne => imp_congr_right (fun _ => ?_))),
      get_replaced _ r.props desired⟩
    rw [get_replaced _ r.props, keeps_iff given (solid m l k c borne)]
  | false =>
    simp only [Graph.dropStale, Bool.false_eq_true, if_false] at ran
    have listed : ∀ e ∈ (o.sub 3).range desired.entries, normalize e.2 = e.2 :=
      fun e member => given e.1 e.2
        (get_eq_some_iff.mpr (MapOrder.mem_range.mp member))
    have begun : Entered cov s (Bearing.retain (Carries s) n r.props) :=
      entered.congr (fun _ _ _ _ => rfl) (fun m l k c _ => and_iff_left_of_imp (by
        rintro borne rfl
        exact (known l k c borne).2))
    obtain ⟨edited, overlaid⟩ := begun.merge known solid (fresh_range _ desired) listed
      (fun _ _ => rfl) ran
    exact ⟨edited, fun k => by rw [overlaid, get_overlaid]⟩

theorem nodeLaws_setNodeProperties (laws : NodeLaws cov s) (valid : ValidProps props)
    (ran : (setNodeProperties o n props replace).Exec rule s (.ok u) s')
    : NodeLaws cov s'
      ∧ ∃ (r : NodeRecord) (desired updated : Props) (base : Store) (o₁ : MapOrder),
        nodeAt s n = some r
        ∧ (internEntries false (o₁.range props.entries) .empty).Exec rule s (.ok desired) base
        ∧ Framed (NodeKey n) base s'
        ∧ (∀ k, updated.get k = overlay replace r.props desired k)
        ∧ nodeAt s' n = some (recorded ⟨r.labels, updated⟩) := by
  have framed := ((within_setNodeProperties o n props replace).framed ran).ofNodeDict
  obtain ⟨r, desired, base, updated, dropped, mid, o₁, found, interned, removed, entered, written⟩ :=
    exec_setNodeProperties ran
  obtain ⟨named, origins, _⟩ := interned_internEntries interned
  have given : ∀ k v, desired.get k = some v → representable v = true ∧ normalize v = v := by
    intro k v held
    rcases origins k v held with before | ⟨e, member, _, _, rfl⟩
    · simp at before
    · exact ⟨representable_normalize (valid e (MapOrder.mem_range.mp member)),
        normalize_normalize e.2⟩
  have catalogued := named.framed.ofDict
  have origin := catalogued.nodeLaws laws
  have record : nodeAt base n = some r := catalogued.nodeAt.trans found
  have good := (origin.aligned n).recordable record
  have solid : ∀ m l k c, Carries base m l k c → isNull c.toVal = false := by
    rintro m l k c ⟨r', found', _, held⟩
    cases c with
    | null => exact absurd held (((origin.aligned m).normal r' found').present k)
    | _ => rfl
  obtain ⟨shared, result⟩ := origin.entered.dropStale record (fun k v held => (given k v held).2)
    solid removed
  have better := good.overlay given result
  have edited := shared.loop (n := n) true
    (fun e l k c => l ∈ r.labels ∧ k = e.1 ∧ c.toVal = e.2)
    (fun e _ bears t t' _ before step => by
      refine (before.loop (n := n) true (fun a l k c => l = a ∧ k = e.1 ∧ c.toVal = e.2)
        (fun a _ bears t t' _ before put => before.put put) step).congr (fun _ _ _ _ => rfl)
        (fun m l k c _ => by simp)) entered
  have kept : Framed (AnyEntry n) base mid := (within_dropStale.framed removed).trans
    (Within.framed (Within.each (fun e _ => Within.each
      (fun l _ => within_editAny true l e.1 e.2 n))) entered)
  refine (laws.record framed better edited written
    (fun l => by rw [kept.frame _ id, (origin.aligned n).label_iff record]) (fun l k c _ => ?_)
    (fun m l k c other => ?_)).imp_right fun stored => ⟨r, desired, updated, base, o₁, found, interned,
      (kept.mono AnyEntry.nodeKey).trans ((within_putNodeRecord n _).framed written), result, stored⟩
  · simp only [edits_true, Bearing.retain, carries_iff record, true_and, true_implies, exists_property]
    tauto
  · simp only [edits_true, Bearing.retain, other, false_and, or_false, false_implies, and_true]
    exact Carries.congr (catalogued.frame _ id)

theorem consistent_setNodeProperties (consistent : Consistent cov s)
    (valid : ValidProps props) (ran : (setNodeProperties o n props replace).Exec rule s (.ok u) s')
    : Consistent cov s' := by
  obtain ⟨laws, _, _, _, _, _, _, _, _, _, stored⟩ :=
    nodeLaws_setNodeProperties consistent.nodes valid ran
  exact consistent.edit laws ((within_setNodeProperties o n props replace).framed ran).ofNodeDict
    (.inl (cell_of_nodeAt (by simp [stored])))

end Intreccio.Graph

import Mathlib.Algebra.BigOperators.Group.List.Basic
import Mathlib.Data.List.Basic
import Mathlib.Data.List.Induction
import Mathlib.Data.List.Nodup
import Mathlib.Data.Fintype.Card
import Mathlib.Data.Nat.Find

/-! Walks over labelled steps: their composition and reversal, distances, and the trails that grow
from a node layer by layer.
-/

namespace Walks

open List

variable {ν ε : Type} {step : ν → ε → ν → Prop} {a b c m : ν} {e : ε} {hops more : List (ε × ν)}

/-- The hops lead from `a` to `b`. A hop is a label and the node that is reached. -/
def Walk (step : ν → ε → ν → Prop) : ν → List (ε × ν) → ν → Prop
  | a, [], b => a = b
  | a, hop :: rest, b => step a hop.1 hop.2 ∧ Walk step hop.2 rest b

@[simp] theorem walk_nil : Walk step a [] b ↔ a = b := Iff.rfl

@[simp] theorem walk_cons {hop : ε × ν}
    : Walk step a (hop :: more) b ↔ step a hop.1 hop.2 ∧ Walk step hop.2 more b :=
  Iff.rfl

theorem walk_append : Walk step a (hops ++ more) b ↔ ∃ m, Walk step a hops m ∧ Walk step m more b := by
  induction hops generalizing a with
  | nil => simp
  | cons hop rest ih =>
    simp only [cons_append, walk_cons, ih]
    constructor
    · rintro ⟨first, m, left, right⟩
      exact ⟨m, ⟨first, left⟩, right⟩
    · rintro ⟨m, ⟨first, left⟩, right⟩
      exact ⟨first, m, left, right⟩

theorem walk_snoc : Walk step a (hops ++ [(e, c)]) b ↔ ∃ m, Walk step a hops m ∧ step m e c ∧ c = b := by
  simp [walk_append]

theorem Walk.end_unique (left : Walk step a hops b) (right : Walk step a hops c) : b = c := by
  induction hops generalizing a with
  | nil => exact left.symm.trans right
  | cons hop rest ih => exact ih left.2 right.2

/-- The nodes of a walk follow from its labels. -/
theorem Walk.labels_unique {hops' : List (ε × ν)}
    (determined : ∀ x e y y', step x e y → step x e y' → y = y')
    (left : Walk step a hops b) (right : Walk step a hops' c)
    (same : hops.map Prod.fst = hops'.map Prod.fst)
    : hops = hops' := by
  induction hops generalizing a hops' with
  | nil => simpa using same
  | cons hop rest ih =>
    cases hops' with
    | nil => simp at same
    | cons hop' rest' =>
      obtain ⟨label, labels⟩ := List.cons.inj same
      have reached : hop.2 = hop'.2 := determined a hop.1 _ _ left.1 (label ▸ right.1)
      rw [ih left.2 (reached ▸ right.2) labels, Prod.ext label reached]

/-- The hops of the way back: the labels in reverse, each with the node before it. -/
def back (a : ν) : List (ε × ν) → List (ε × ν)
  | [] => []
  | hop :: rest => back hop.2 rest ++ [(hop.1, a)]

@[simp] theorem length_back (a : ν) (hops : List (ε × ν)) : (back a hops).length = hops.length := by
  induction hops generalizing a with
  | nil => rfl
  | cons hop rest ih => simp [back, ih]

theorem labels_back (a : ν) (hops : List (ε × ν))
    : (back a hops).map Prod.fst = (hops.map Prod.fst).reverse := by
  induction hops generalizing a with
  | nil => rfl
  | cons hop rest ih => simp [back, ih]

theorem Walk.back (walk : Walk step a hops b) : Walk (fun x e y => step y e x) b (back a hops) a := by
  induction hops generalizing a with
  | nil => exact walk.symm
  | cons hop rest ih => exact walk_append.mpr ⟨hop.2, ih walk.2, walk.1, rfl⟩

theorem back_snoc (a : ν) (hops : List (ε × ν)) (hop : ε × ν) (walk : Walk step a hops b)
    : Walks.back a (hops ++ [hop]) = (hop.1, b) :: Walks.back a hops := by
  induction hops generalizing a with
  | nil => simp [Walks.back, show a = b from walk]
  | cons first rest ih => simp [Walks.back, ih first.2 walk.2]

theorem back_back (walk : Walk step a hops b) : Walks.back b (Walks.back a hops) = hops := by
  induction hops generalizing a with
  | nil => rfl
  | cons hop rest ih =>
    rw [Walks.back, back_snoc b _ _ walk.2.back, ih walk.2]

/-- The shortest walks from `a` to `b` have `d` hops. -/
structure Far (step : ν → ε → ν → Prop) (a : ν) (d : Nat) (b : ν) : Prop where
  reached : ∃ hops, Walk step a hops b ∧ hops.length = d
  least : ∀ hops, Walk step a hops b → d ≤ hops.length

theorem Far.unique {d d' : Nat} (left : Far step a d b) (right : Far step a d' b) : d = d' := by
  obtain ⟨hops, walk, rfl⟩ := left.reached
  obtain ⟨hops', walk', rfl⟩ := right.reached
  exact le_antisymm (left.least hops' walk') (right.least hops walk)

theorem far_zero : Far step a 0 b ↔ a = b := by
  constructor
  · rintro ⟨⟨hops, walk, none'⟩, _⟩
    rw [length_eq_zero_iff.mp none'] at walk
    exact walk
  · rintro rfl
    exact ⟨⟨[], rfl, rfl⟩, fun _ _ => Nat.zero_le _⟩

theorem Walk.far (walk : Walk step a hops b) : ∃ d, d ≤ hops.length ∧ Far step a d b := by
  classical
  have some : ∃ d hops, Walk step a hops b ∧ hops.length = d := ⟨_, hops, walk, rfl⟩
  refine ⟨Nat.find some, Nat.find_le ⟨hops, walk, rfl⟩, Nat.find_spec some, fun hops' walk' => ?_⟩
  exact Nat.find_le ⟨hops', walk', rfl⟩

variable {d : Nat}

/-- Where a shortest walk is cut, both parts are shortest. -/
theorem Far.split (far : Far step a d b) (hops more : List (ε × ν))
    (walk : Walk step a (hops ++ more) b) (shortest : (hops ++ more).length = d)
    : ∃ m, Walk step a hops m ∧ Walk step m more b ∧ Far step a hops.length m
      ∧ Far step m more.length b := by
  obtain ⟨m, left, right⟩ := walk_append.mp walk
  rw [length_append] at shortest
  refine ⟨m, left, right, ⟨⟨hops, left, rfl⟩, fun other walk' => ?_⟩, ⟨more, right, rfl⟩,
    fun other walk' => ?_⟩
  · have bound := far.least _ (walk_append.mpr ⟨m, walk', right⟩)
    rw [length_append] at bound
    omega
  · have bound := far.least _ (walk_append.mpr ⟨m, left, walk'⟩)
    rw [length_append] at bound
    omega

theorem Far.reverse (far : Far step a d b) : Far (fun x e y => step y e x) b d a := by
  obtain ⟨hops, walk, rfl⟩ := far.reached
  refine ⟨⟨back a hops, walk.back, length_back a hops⟩, fun hops' walk' => ?_⟩
  have bound := far.least _ walk'.back
  rwa [length_back] at bound

/-- A node one step further is at most one hop further away. -/
theorem Far.hop (far : Far step a d m) (taken : step m e b) : ∃ d', d' ≤ d + 1 ∧ Far step a d' b := by
  obtain ⟨hops, walk, rfl⟩ := far.reached
  simpa using (walk_snoc.mpr ⟨m, walk, taken, rfl⟩ : Walk step a (hops ++ [(e, b)]) b).far

/-- The last hop of a shortest walk starts one hop nearer. -/
theorem Far.before (far : Far step a (d + 1) b) : ∃ m e, Far step a d m ∧ step m e b := by
  obtain ⟨hops, walk, length⟩ := far.reached
  obtain ⟨rest, hop, rfl⟩ := eq_nil_or_concat hops |>.resolve_left (by rintro rfl; simp at length)
  obtain ⟨m, _, last, near, _⟩ := far.split rest [hop] (by simpa using walk)
    (by simpa using length)
  obtain ⟨taken, rfl⟩ := last
  exact ⟨m, hop.1, by simpa using (by simpa using length : rest.length = d) ▸ near, taken⟩

/-- Every smaller distance occurs on the way. -/
theorem Far.between {d i : Nat} (far : Far step a d b) (within : i ≤ d)
    : ∃ m, Far step a i m ∧ Far step m (d - i) b := by
  obtain ⟨hops, walk, rfl⟩ := far.reached
  have cut : hops.take i ++ hops.drop i = hops := take_append_drop i hops
  obtain ⟨m, _, _, left, right⟩ := far.split (hops.take i) (hops.drop i) (by rwa [cut]) (by rw [cut])
  rw [length_take, Nat.min_eq_left within] at left
  rw [length_drop] at right
  exact ⟨m, left, right⟩

/-- A distance is smaller than the number of nodes. -/
theorem Far.lt_of_numbered {d size : Nat} {number : ν → Fin size} (numbered : Function.Injective number)
    (far : Far step a d b)
    : d < size := by
  have each (i : Fin (d + 1)) : ∃ m, Far step a i m := by
    obtain ⟨m, near, _⟩ := far.between (Nat.le_of_lt_succ i.2)
    exact ⟨m, near⟩
  choose node at' using each
  have distinct : Function.Injective node := fun i j same => Fin.ext ((at' i).unique (same ▸ at' j))
  have bound := Fintype.card_le_of_injective (number ∘ node) (numbered.comp distinct)
  rw [Fintype.card_fin, Fintype.card_fin] at bound
  omega

/-- A shortest walk does not come back to its start, so no label whose ends are given occurs twice. -/
theorem Far.labels_nodup (ends : ∀ x e y x' y', step x e y → step x' e y' → x = x' ∨ x = y')
    (far : Far step a d b) (walk : Walk step a hops b) (shortest : hops.length = d)
    : (hops.map Prod.fst).Nodup := by
  induction hops generalizing a d with
  | nil => exact nodup_nil
  | cons hop rest ih =>
    obtain ⟨m, ⟨taken, rfl⟩, _, _, further⟩ := far.split [hop] rest walk shortest
    refine nodup_cons.mpr ⟨fun again => ?_, ih further walk.2 rfl⟩
    obtain ⟨⟨e, y⟩, member, same⟩ := mem_map.mp again
    obtain rfl : e = hop.1 := same
    obtain ⟨before, after, rfl⟩ := append_of_mem member
    obtain ⟨x, _, later⟩ := walk_append.mp walk.2
    simp only [length_cons, length_append] at shortest
    obtain rfl | rfl := ends _ _ _ _ _ taken later.1
    · have bound := far.least _ later
      rw [length_cons] at bound
      omega
    · have bound := far.least _ later.2
      omega

/-- Two balls around the ends that do not touch: the ends are further apart than the radii. -/
theorem apart {j k : Nat}
    (disjoint : ∀ m i l, i ≤ j → l ≤ k → Far step a i m → Far step m l b → False)
    (walk : Walk step a hops b)
    : j + k < hops.length := by
  obtain ⟨d, short, far⟩ := walk.far
  obtain ⟨shortest, path, rfl⟩ := far.reached
  by_contra near
  have cut : shortest.take j ++ shortest.drop j = shortest := take_append_drop j shortest
  obtain ⟨m, _, _, left, right⟩ := far.split (shortest.take j) (shortest.drop j)
    (by rwa [cut]) (by rw [cut])
  refine disjoint m _ _ ?_ ?_ left right
  · exact length_take_le j shortest
  · rw [length_drop]
    omega

/-- The list holds the walks of `d` hops, each once. -/
structure AllWalks (step : ν → ε → ν → Prop) (a : ν) (d : Nat) (b : ν) (l : List (List (ε × ν))) : Prop where
  once : l.Nodup
  mem : ∀ hops, hops ∈ l ↔ Walk step a hops b ∧ hops.length = d

theorem AllWalks.nil (step : ν → ε → ν → Prop) (a : ν) : AllWalks step a 0 a [[]] := by
  refine ⟨nodup_singleton [], fun hops => ?_⟩
  rw [mem_singleton, length_eq_zero_iff]
  exact ⟨fun same => ⟨same ▸ rfl, same⟩, fun found => found.2⟩

/-- The shortest walks to a node are those to the nodes before it, with one more hop. -/
theorem AllWalks.snoc {ι : Type} {entries : List ι} {prev : ι → ν} {label : ι → ε}
    {l : ι → List (List (ε × ν))} (far : Far step a (d + 1) b) (once : entries.Nodup)
    (named : ∀ i j, prev i = prev j → label i = label j → i = j)
    (enter : ∀ m e, (∃ i ∈ entries, prev i = m ∧ label i = e) ↔ Far step a d m ∧ step m e b)
    (each : ∀ i ∈ entries, AllWalks step a d (prev i) (l i))
    : AllWalks step a (d + 1) b (entries.flatMap (fun i => (l i).map (· ++ [(label i, b)]))) := by
  constructor
  · refine nodup_flatMap.mpr ⟨fun i member => ?_, once.imp_of_mem fun {i j} member member' other => ?_⟩
    · exact (each i member).once.map fun _ _ same => append_cancel_right same
    · rintro _ first second
      obtain ⟨hops, found, rfl⟩ := mem_map.mp first
      obtain ⟨hops', found', same⟩ := mem_map.mp second
      obtain ⟨rfl, last⟩ := append_inj' same rfl
      have labels : label j = label i := (Prod.mk.inj (List.cons.inj last).1).1
      have walk := (((each i member).mem _).mp found).1
      have walk' := (((each j member').mem _).mp found').1
      exact other (named i j (walk.end_unique walk') labels.symm)
  · intro hops
    simp only [mem_flatMap, mem_map]
    constructor
    · rintro ⟨i, member, before, found, rfl⟩
      obtain ⟨walk, rfl⟩ := ((each i member).mem before).mp found
      have taken := ((enter (prev i) (label i)).mp ⟨i, member, rfl, rfl⟩).2
      exact ⟨walk_snoc.mpr ⟨prev i, walk, taken, rfl⟩, by simp⟩
    · rintro ⟨walk, length⟩
      obtain ⟨before, ⟨e, c⟩, rfl⟩ :=
        eq_nil_or_concat hops |>.resolve_left (by rintro rfl; simp at length)
      rw [concat_eq_append] at walk length
      obtain ⟨m, first, ⟨taken, rfl⟩, near, _⟩ := far.split before [(e, c)] walk length
      have short : before.length = d := by simpa using length
      obtain ⟨i, member, rfl, rfl⟩ := (enter m e).mpr ⟨short ▸ near, taken⟩
      exact ⟨i, member, before, ((each i member).mem before).mpr ⟨first, short⟩, by simp⟩

/-- The shortest walks are joined from their halves: the second one is found from its end. -/
theorem AllWalks.join {j k : Nat} {mids : List ν} {l r : ν → List (List (ε × ν))} (far : Far step a (j + k) b)
    (once : mids.Nodup) (mid : ∀ m, m ∈ mids ↔ Far step a j m ∧ Far step m k b)
    (left : ∀ m ∈ mids, AllWalks step a j m (l m))
    (right : ∀ m ∈ mids, AllWalks (fun x e y => step y e x) b k m (r m))
    : AllWalks step a (j + k) b
        (mids.flatMap (fun m => (l m).flatMap (fun h => (r m).map (fun t => h ++ back b t)))) := by
  have parts {m : ν} {h t : List (ε × ν)} (member : m ∈ mids) (first : h ∈ l m) (second : t ∈ r m)
      : (Walk step a h m ∧ h.length = j) ∧ Walk step m (back b t) b ∧ t.length = k ∧ back m (back b t) = t := by
    obtain ⟨walk, length⟩ := ((right m member).mem t).mp second
    exact ⟨((left m member).mem h).mp first, walk.back, length, back_back walk⟩
  constructor
  · refine nodup_flatMap.mpr ⟨fun m member => nodup_flatMap.mpr ⟨fun h first => ?_, ?_⟩, ?_⟩
    · refine List.Nodup.map_on ?_ (right m member).once
      intro t second t' second' same
      rw [← (parts member first second).2.2.2, ← (parts member first second').2.2.2,
        append_cancel_left same]
    · refine (left m member).once.imp_of_mem fun {h h'} first first' other => ?_
      intro _ found found'
      obtain ⟨t, second, rfl⟩ := mem_map.mp found
      obtain ⟨t', second', same⟩ := mem_map.mp found'
      have lengths : h'.length = h.length :=
        (parts member first' second').1.2.trans (parts member first second).1.2.symm
      exact other (append_inj same lengths).1.symm
    · refine once.imp_of_mem fun {m m'} member member' other => ?_
      intro _ found found'
      obtain ⟨h, first, found⟩ := mem_flatMap.mp found
      obtain ⟨t, second, rfl⟩ := mem_map.mp found
      obtain ⟨h', first', found'⟩ := mem_flatMap.mp found'
      obtain ⟨t', second', same⟩ := mem_map.mp found'
      obtain ⟨⟨walk, length⟩, _⟩ := parts member first second
      obtain ⟨⟨walk', length'⟩, _⟩ := parts member' first' second'
      obtain rfl := (append_inj same (length'.trans length.symm)).1
      exact other (walk.end_unique walk')
  · intro hops
    simp only [mem_flatMap, mem_map]
    constructor
    · rintro ⟨m, member, h, first, t, second, rfl⟩
      obtain ⟨⟨walk, length⟩, walk', length', _⟩ := parts member first second
      exact ⟨walk_append.mpr ⟨m, walk, walk'⟩, by simp [length, length']⟩
    · rintro ⟨walk, length⟩
      have cut : hops.take j ++ hops.drop j = hops := take_append_drop j hops
      obtain ⟨m, first, second, near, rest⟩ :=
        far.split (hops.take j) (hops.drop j) (by rwa [cut]) (by rwa [cut])
      have short : (hops.take j).length = j := by
        rw [length_take]
        omega
      have long : (hops.drop j).length = k := by
        rw [length_drop]
        omega
      have member : m ∈ mids := (mid m).mpr ⟨short ▸ near, long ▸ rest⟩
      refine ⟨m, member, hops.take j, ((left m member).mem _).mpr ⟨first, short⟩, back m (hops.drop j),
        ((right m member).mem _).mpr ⟨second.back, by rw [length_back, long]⟩, ?_⟩
      rw [back_back second, cut]

theorem nodup_snoc {α : Type} {l : List α} {x : α} : (l ++ [x]).Nodup ↔ l.Nodup ∧ x ∉ l := by
  rw [← concat_eq_append, nodup_concat, and_comm]

theorem count_flatMap_of {α β : Type} [BEq α] [LawfulBEq α] [BEq β] {l : List α} {f : α → List β} {x : α}
    {y : β} (only : ∀ z ∈ l, z ≠ x → (f z).count y = 0)
    : (l.flatMap f).count y = l.count x * (f x).count y := by
  induction l with
  | nil => simp
  | cons z rest ih =>
    rw [flatMap_cons, List.count_append, ih fun z' member => only z' (mem_cons_of_mem z member)]
    by_cases here : z = x
    · rw [here, count_cons_self, Nat.add_mul, Nat.one_mul, Nat.add_comm]
    · rw [only z mem_cons_self here, count_cons_of_ne here, Nat.zero_add]

section

variable [DecidableEq ε] (next : ν → List (ε × ν))

/-- A step that `next` lists. -/
def Listed (a : ν) (e : ε) (b : ν) : Prop := (e, b) ∈ next a

/-- The trails that are one hop longer. A trail is the node it reaches and its labels, of which
none occurs twice.
-/
def longer (t : ν × List ε) : List (ν × List ε) :=
  ((next t.1).filter (fun hop => hop.1 ∉ t.2)).map (fun hop => (hop.2, t.2 ++ [hop.1]))

/-- The trails from `a` with a given number of hops, one for each way to take them. -/
def trails (a : ν) : Nat → List (ν × List ε)
  | 0 => [(a, [])]
  | k + 1 => (trails a k).flatMap (longer next)

variable {next}

theorem mem_longer {t u : ν × List ε}
    : u ∈ longer next t ↔ ∃ e, Listed next t.1 e u.1 ∧ e ∉ t.2 ∧ u.2 = t.2 ++ [e] := by
  rcases u with ⟨b, labels⟩
  constructor
  · intro member
    obtain ⟨hop, kept, same⟩ := mem_map.mp member
    obtain ⟨listed, fresh⟩ := mem_filter.mp kept
    obtain ⟨rfl, rfl⟩ := Prod.mk.inj same
    exact ⟨hop.1, listed, by simpa using fresh, rfl⟩
  · rintro ⟨e, listed, fresh, rfl⟩
    exact mem_map.mpr ⟨(e, b), mem_filter.mpr ⟨listed, by simpa using fresh⟩, rfl⟩

/-- The trails of a length are the walks of that length without a repeated label. -/
theorem mem_trails {k : Nat} {t : ν × List ε}
    : t ∈ trails next a k
      ↔ ∃ hops, Walk (Listed next) a hops t.1 ∧ hops.map Prod.fst = t.2 ∧ t.2.Nodup ∧ hops.length = k := by
  induction k generalizing t with
  | zero =>
    constructor
    · intro member
      obtain rfl : t = (a, []) := mem_singleton.mp member
      exact ⟨[], rfl, rfl, nodup_nil, rfl⟩
    · rintro ⟨hops, walk, labels, _, none'⟩
      obtain rfl := length_eq_zero_iff.mp none'
      exact mem_singleton.mpr (Prod.ext walk.symm labels.symm)
  | succ k ih =>
    simp only [trails, mem_flatMap, mem_longer, ih]
    constructor
    · rintro ⟨u, ⟨hops, walk, labels, distinct, length⟩, e, listed, fresh, grown⟩
      refine ⟨hops ++ [(e, t.1)], walk_snoc.mpr ⟨u.1, walk, listed, rfl⟩, ?_, ?_, by simp [length]⟩
      · simp [labels, grown]
      · rw [grown]
        exact nodup_snoc.mpr ⟨distinct, fresh⟩
    · rintro ⟨hops, walk, labels, distinct, length⟩
      obtain ⟨rest, ⟨e, c⟩, rfl⟩ :=
        eq_nil_or_concat hops |>.resolve_left (by rintro rfl; simp at length)
      rw [concat_eq_append] at walk labels length
      obtain ⟨m, before, listed, rfl⟩ := walk_snoc.mp walk
      rw [map_append] at labels
      obtain ⟨once, fresh⟩ := nodup_snoc.mp (labels ▸ distinct)
      exact ⟨(m, rest.map Prod.fst), ⟨rest, before, rfl, once, by simpa using length⟩, e, listed, fresh,
        labels.symm⟩

theorem trails_eq_nil {k l : Nat} (none' : trails next a k = []) (later : k ≤ l) : trails next a l = [] := by
  induction later with
  | refl => exact none'
  | step _ ih => rw [trails, ih, flatMap_nil]

/-- How often `next` lists each hop of a walk. -/
def weights [DecidableEq ν] (next : ν → List (ε × ν)) : ν → List (ε × ν) → List Nat
  | _, [] => []
  | a, hop :: rest => (next a).count hop :: weights next hop.2 rest

variable [DecidableEq ν]

theorem weights_snoc {hop : ε × ν} (walk : Walk step a hops m)
    : weights next a (hops ++ [hop]) = weights next a hops ++ [(next m).count hop] := by
  induction hops generalizing a with
  | nil => simp [weights, show a = m from walk]
  | cons first rest ih => simp [weights, ih walk.2]

theorem count_longer {t : ν × List ε} {labels : List ε}
    : (longer next t).count (b, labels ++ [e])
      = if t.2 = labels ∧ e ∉ labels then (next t.1).count (e, b) else 0 := by
  rw [longer, List.count, countP_map, countP_filter]
  by_cases same : t.2 = labels ∧ e ∉ labels
  · obtain ⟨rfl, fresh⟩ := same
    rw [if_pos ⟨rfl, fresh⟩, List.count]
    refine countP_congr fun other _ => ?_
    constructor
    · intro found
      simp only [Function.comp_apply, Bool.and_eq_true, beq_iff_eq, Prod.mk.injEq,
        append_cancel_left_eq, List.cons.injEq] at found
      simpa [Prod.ext_iff] using And.intro found.1.2.1 found.1.1
    · intro found
      obtain rfl := eq_of_beq found
      simpa using fresh
  · rw [if_neg same, countP_eq_zero]
    intro other _ found
    simp only [Function.comp_apply, Bool.and_eq_true, beq_iff_eq, Prod.mk.injEq, decide_eq_true_eq] at found
    obtain ⟨⟨_, grown⟩, fresh⟩ := found
    obtain ⟨rfl, last⟩ := append_inj' grown rfl
    exact same ⟨rfl, (List.cons.inj last).1 ▸ fresh⟩

/-- A trail occurs once for each way to choose its hops from the lists of `next`. -/
theorem count_trails (determined : ∀ x e y y', Listed next x e y → Listed next x e y' → y = y')
    (walk : Walk (Listed next) a hops b) (distinct : (hops.map Prod.fst).Nodup)
    : (trails next a hops.length).count (b, hops.map Prod.fst) = (weights next a hops).prod := by
  induction hops using List.reverseRecOn generalizing b with
  | nil =>
    obtain rfl : a = b := walk
    simp [trails, weights]
  | append_singleton rest hop ih =>
    obtain ⟨e, c⟩ := hop
    obtain ⟨m, before, listed, rfl⟩ := walk_snoc.mp walk
    rw [map_append] at distinct ⊢
    obtain ⟨once, fresh⟩ := nodup_snoc.mp distinct
    rw [weights_snoc before, prod_append, prod_singleton, ← ih before once, length_append]
    -- only the trail with the labels before the last can become the trail
    change ((trails next a rest.length).flatMap (longer next)).count (c, rest.map Prod.fst ++ [e]) = _
    rw [count_flatMap_of (x := (m, rest.map Prod.fst)), count_longer, if_pos ⟨rfl, fresh⟩]
    intro t member other
    rw [count_longer]
    refine if_neg fun ⟨same, _⟩ => other ?_
    obtain ⟨hops', walk', labels, _, _⟩ := mem_trails.mp member
    obtain rfl := Walk.labels_unique determined walk' before (labels.trans same)
    exact Prod.ext (walk'.end_unique before) same

end

end Walks

import Mathlib.Data.List.Basic

/-! The stable sort of Go's `sort.SliceStable`: insertion sort in blocks, then in-place merges
of neighbouring blocks. The comparison is a computation of its own and need not be an order,
so the comparisons that are made, and their sequence, are part of the algorithm.
-/

namespace Kv.StableSort

open List

variable {m : Type → Type} [Monad m] {α : Type}

/-- Move `x` down a block that is listed from its last element on. -/
def insertBack (less : α → α → m Bool) (x : α) : List α → m (List α)
  | [] => return [x]
  | y :: rest => do
      if ← less x y then
        let rest ← insertBack less x rest
        return y :: rest
      else return x :: y :: rest

/-- Insertion sort of a block; `done` is the part that is sorted, from its last element on. -/
def insertAll (less : α → α → m Bool) (done : List α) : List α → m (List α)
  | [] => return done.reverse
  | x :: rest => do
      let done ← insertBack less x done
      insertAll less done rest

/-- The blocks of `size` elements, the last one possibly shorter. -/
def blocks (size : Nat) : Nat → List α → List (List α)
  | 0, _ => []
  | fuel + 1, l => if l.isEmpty then [] else l.take size :: blocks size fuel (l.drop size)

/-- The first index from `lo` to `hi` at which `advance` fails, if it never holds again. -/
def search (advance : Nat → m Bool) : Nat → Nat → Nat → m Nat
  | 0, lo, _ => return lo
  | fuel + 1, lo, hi => do
      if lo < hi then
        let h := (lo + hi) / 2
        if ← advance h then search advance fuel (h + 1) hi else search advance fuel lo h
      else return lo

def lessAt (less : α → α → m Bool) (l : List α) (i j : Nat) : m Bool :=
  match l[i]?, l[j]? with
  | some x, some y => less x y
  | _, _ => return false

/-- Merge two neighbouring sorted blocks by a rotation around their middle. -/
def symMerge (less : α → α → m Bool) : Nat → List α → List α → m (List α)
  | 0, xs, ys => return xs ++ ys
  | fuel + 1, xs, ys => do
      let all := xs ++ ys
      let first := xs.length
      let len := all.length
      if first = 1 then
        let i ← search (fun h => lessAt less all h 0) len 1 len
        return (all.take i).drop 1 ++ xs ++ all.drop i
      else if len - first = 1 then
        let i ← search (fun h => do return !(← lessAt less all first h)) len 0 first
        return xs.take i ++ ys ++ xs.drop i
      else
        let mid := len / 2
        let n := mid + first
        let (lo, hi) := if mid < first then (n - len, mid) else (0, first)
        let start ← search (fun h => do return !(← lessAt less all (n - 1 - h) h)) len lo hi
        let stop := n - start
        let all := if start < first ∧ first < stop then
            all.take start ++ (all.take stop).drop first ++ (all.take first).drop start ++ all.drop stop
          else all
        let left := all.take mid
        let right := all.drop mid
        let left ← (if 0 < start ∧ start < mid then
            symMerge less fuel (left.take start) (left.drop start)
          else pure left)
        let right ← (if mid < stop ∧ stop < len then
            symMerge less fuel (right.take (stop - mid)) (right.drop (stop - mid))
          else pure right)
        return left ++ right

/-- Merge the blocks in pairs. -/
def mergePairs (less : α → α → m Bool) : List (List α) → m (List (List α))
  | xs :: ys :: rest => do
      let merged ← symMerge less (xs.length + ys.length) xs ys
      let more ← mergePairs less rest
      return merged :: more
  | l => return l

def mergeAll (less : α → α → m Bool) : Nat → List (List α) → m (List α)
  | 0, l => return l.flatten
  | fuel + 1, l => do
      if l.length ≤ 1 then return l.flatten
      let l ← mergePairs less l
      mergeAll less fuel l

def sortBlocks (less : α → α → m Bool) : List (List α) → m (List (List α))
  | [] => return []
  | b :: rest => do
      let b ← insertAll less [] b
      let more ← sortBlocks less rest
      return b :: more

def sliceStable (less : α → α → m Bool) (l : List α) : m (List α) := do
  let sorted ← sortBlocks less (blocks 20 l.length l)
  mergeAll less sorted.length sorted

/-- The list with two neighbouring segments exchanged. -/
def rotated (all : List α) (first start stop : Nat) : List α :=
  if start < first ∧ first < stop then
    all.take start ++ (all.take stop).drop first ++ (all.take first).drop start ++ all.drop stop
  else all

/-- The merge from the point on where its rotation is found. -/
def mergeFrom (less : α → α → m Bool) (fuel : Nat) (xs ys : List α) (start : Nat) : m (List α) := do
  let all := xs ++ ys
  let first := xs.length
  let len := all.length
  let mid := len / 2
  let stop := mid + first - start
  let left := (rotated all first start stop).take mid
  let right := (rotated all first start stop).drop mid
  let left ← (if 0 < start ∧ start < mid then
      symMerge less fuel (left.take start) (left.drop start)
    else pure left)
  let right ← (if mid < stop ∧ stop < len then
      symMerge less fuel (right.take (stop - mid)) (right.drop (stop - mid))
    else pure right)
  return left ++ right

def searchBounds (len first : Nat) : Nat × Nat :=
  if len / 2 < first then (len / 2 + first - len, len / 2) else (0, first)

theorem symMerge_succ (less : α → α → m Bool) (fuel : Nat) (xs ys : List α)
    : symMerge less (fuel + 1) xs ys
      = if xs.length = 1 then do
          let i ← search (fun h => lessAt less (xs ++ ys) h 0) (xs ++ ys).length 1 (xs ++ ys).length
          return ((xs ++ ys).take i).drop 1 ++ xs ++ (xs ++ ys).drop i
        else if (xs ++ ys).length - xs.length = 1 then do
          let i ← search (fun h => do return !(← lessAt less (xs ++ ys) xs.length h)) (xs ++ ys).length 0
            xs.length
          return xs.take i ++ ys ++ xs.drop i
        else
          search (fun h => do return !(← lessAt less (xs ++ ys) ((xs ++ ys).length / 2 + xs.length - 1 - h) h))
              (xs ++ ys).length (searchBounds (xs ++ ys).length xs.length).1
              (searchBounds (xs ++ ys).length xs.length).2
            >>= mergeFrom less fuel xs ys :=
  rfl

section Relation

-- Two runs of the sort, of a list and of the images of its elements, make the same comparisons.
variable {n : Type → Type} [Monad n] {R : {β γ : Type} → m β → n γ → (β → γ → Prop) → Prop}
  (ret : ∀ {β γ : Type} {Q : β → γ → Prop} (b : β) (c : γ), Q b c → R (pure b : m β) (pure c : n γ) Q)
  (seq : ∀ {β γ β' γ' : Type} {P : β → γ → Prop} {Q : β' → γ' → Prop} {p : m β} {q : n γ} {f : β → m β'}
    {g : γ → n γ'}, R p q P → (∀ b c, P b c → R (f b) (g c) Q) → R (p >>= f) (q >>= g) Q)
  {β : Type} {f : β → α} {less : α → α → m Bool} {g : β → β → n Bool}
  (each : ∀ x y, R (less (f x) (f y)) (g x y) Eq)

include ret seq

theorem search_related {advance : Nat → m Bool} {advance' : Nat → n Bool}
    (each : ∀ i, R (advance i) (advance' i) Eq) (fuel lo hi : Nat)
    : R (search advance fuel lo hi) (search advance' fuel lo hi) Eq := by
  induction fuel generalizing lo hi with
  | zero => exact ret _ _ rfl
  | succ fuel ih =>
    unfold search
    split
    · refine seq (each _) (fun b c same => ?_)
      subst same
      cases b with
      | true => exact ih _ _
      | false => exact ih _ _
    · exact ret _ _ rfl

theorem negated_related {p : m Bool} {q : n Bool} (same : R p q Eq)
    : R (do return !(← p)) (do return !(← q)) Eq :=
  seq same (fun _ _ same => ret _ _ (same ▸ rfl))

include each

theorem insertBack_related (x : β) (l : List β)
    : R (insertBack less (f x) (l.map f)) (insertBack g x l) (· = ·.map f) := by
  induction l with
  | nil => exact ret _ _ rfl
  | cons y rest ih =>
    refine seq (each x y) (fun b c same => ?_)
    subst same
    cases b with
    | true => exact seq ih (fun _ _ same => ret _ _ (same ▸ rfl))
    | false => exact ret _ _ rfl

theorem insertAll_related (done l : List β)
    : R (insertAll less (done.map f) (l.map f)) (insertAll g done l) (· = ·.map f) := by
  induction l generalizing done with
  | nil => exact ret _ _ map_reverse.symm
  | cons x rest ih =>
    refine seq (insertBack_related ret seq each x done) (fun _ out same => ?_)
    subst same
    exact ih _

omit seq in
theorem lessAt_related (l : List β) (i j : Nat) : R (lessAt less (l.map f) i j) (lessAt g l i j) Eq := by
  unfold lessAt
  rw [getElem?_map, getElem?_map]
  cases l[i]? with
  | none => exact ret _ _ rfl
  | some x =>
    cases l[j]? with
    | none => exact ret _ _ rfl
    | some y => exact each x y

omit ret seq each [Monad m] [Monad n] in
theorem rotated_map (all : List β) (first start stop : Nat)
    : rotated (all.map f) first start stop = (rotated all first start stop).map f := by
  unfold rotated
  split
  · simp only [map_append, map_take, map_drop]
  · rfl

theorem symMerge_related (fuel : Nat) (xs ys : List β)
    : R (symMerge less fuel (xs.map f) (ys.map f)) (symMerge g fuel xs ys) (· = ·.map f) := by
  have compare := lessAt_related ret each
  induction fuel generalizing xs ys with
  | zero => exact ret _ _ map_append.symm
  | succ fuel ih =>
    have merged {c : Prop} [Decidable c] {k : Nat} {l : List β}
        : R (if c then symMerge less fuel ((l.map f).take k) ((l.map f).drop k) else pure (l.map f))
            (if c then symMerge g fuel (l.take k) (l.drop k) else pure l) (· = ·.map f) := by
      split
      · rw [← map_take, ← map_drop]
        exact ih _ _
      · exact ret _ _ rfl
    have finished (start : Nat)
        : R (mergeFrom less fuel (xs.map f) (ys.map f) start) (mergeFrom g fuel xs ys start) (· = ·.map f) := by
      unfold mergeFrom
      simp only [← map_append, rotated_map, length_map]
      generalize rotated (xs ++ ys) xs.length start _ = all
      generalize (xs ++ ys).length / 2 = mid
      have left : (all.map f).take mid = (all.take mid).map f := map_take.symm
      have right : (all.map f).drop mid = (all.drop mid).map f := map_drop.symm
      rw [left, right]
      refine seq merged (fun _ left same => ?_)
      subst same
      refine seq merged (fun _ right same => ?_)
      subst same
      exact ret _ _ map_append.symm
    rw [symMerge_succ, symMerge_succ]
    simp only [← map_append, length_map]
    split
    · refine seq (search_related ret seq (fun h => compare (xs ++ ys) h 0) _ _ _) (fun _ i same => ?_)
      subst same
      refine ret _ _ ?_
      simp only [← map_take, ← map_drop, ← map_append]
    split
    · refine seq (search_related ret seq (fun h => negated_related ret seq (compare (xs ++ ys) _ h)) _ _ _)
        (fun _ i same => ?_)
      subst same
      refine ret _ _ ?_
      simp only [← map_take, ← map_drop, ← map_append]
    · refine seq (search_related ret seq (fun h => negated_related ret seq (compare (xs ++ ys) _ h)) _ _ _)
        (fun _ start same => ?_)
      subst same
      exact finished _

theorem mergePairs_related (l : List (List β))
    : R (mergePairs less (l.map (List.map f))) (mergePairs g l) (· = ·.map (List.map f)) := by
  fun_induction mergePairs g l with
  | case1 xs ys rest ih =>
    have merged := symMerge_related ret seq each (xs.length + ys.length) xs ys
    simp only [map_cons, mergePairs, length_map]
    refine seq merged (fun _ merged same => ?_)
    subst same
    refine seq ih (fun _ more same => ?_)
    subst same
    exact ret _ _ rfl
  | case2 l short =>
    obtain _ | ⟨xs, _ | ⟨ys, rest⟩⟩ := l
    · exact ret _ _ rfl
    · exact ret _ _ rfl
    · exact absurd rfl (short xs ys rest)

theorem mergeAll_related (fuel : Nat) (l : List (List β))
    : R (mergeAll less fuel (l.map (List.map f))) (mergeAll g fuel l) (· = ·.map f) := by
  induction fuel generalizing l with
  | zero => exact ret _ _ map_flatten.symm
  | succ fuel ih =>
    unfold mergeAll
    rw [length_map]
    split
    · exact ret _ _ map_flatten.symm
    · refine seq (mergePairs_related ret seq each l) (fun _ merged same => ?_)
      subst same
      exact ih _

theorem sortBlocks_related (l : List (List β))
    : R (sortBlocks less (l.map (List.map f))) (sortBlocks g l) (· = ·.map (List.map f)) := by
  induction l with
  | nil => exact ret _ _ rfl
  | cons b rest ih =>
    refine seq (insertAll_related ret seq each [] b) (fun _ sorted same => ?_)
    subst same
    refine seq ih (fun _ more same => ?_)
    subst same
    exact ret _ _ rfl

omit ret seq each [Monad m] [Monad n] in
theorem blocks_map (size fuel : Nat) (l : List β)
    : blocks size fuel (l.map f) = (blocks size fuel l).map (List.map f) := by
  induction fuel generalizing l with
  | zero => rfl
  | succ fuel ih =>
    simp only [blocks, isEmpty_map, ← map_take, ← map_drop, ih]
    split <;> rfl

/-- Where the comparisons answer alike, so do the sorts. -/
theorem sliceStable_related (l : List β)
    : R (sliceStable less (l.map f)) (sliceStable g l) (· = ·.map f) := by
  unfold sliceStable
  rw [length_map, blocks_map]
  refine seq (sortBlocks_related ret seq each _) (fun _ sorted same => ?_)
  subst same
  rw [length_map]
  exact mergeAll_related ret seq each _ _

end Relation

/-- Computations of which nothing is known. -/
def Silent (_ : Type) : Type := Unit

instance : Monad Silent where
  pure _ := ()
  bind _ _ := ()

/-- What holds of all elements holds of all elements of the sorted list. -/
theorem sliceStable_contents {Ensures : {β : Type} → m β → (β → Prop) → Prop} {less : α → α → m Bool}
    (ret : ∀ {β : Type} {Q : β → Prop} (b : β), Q b → Ensures (pure b : m β) Q)
    (seq : ∀ {β γ : Type} {P : β → Prop} {Q : γ → Prop} {p : m β} {f : β → m γ},
      Ensures p P → (∀ b, P b → Ensures (f b) Q) → Ensures (p >>= f) Q)
    (each : ∀ x y, Ensures (less x y) (fun b => ∃ c, b = c)) {Kept : α → Prop} {l : List α} (kept : ∀ y ∈ l, Kept y)
    : Ensures (sliceStable less l) (fun out => ∃ inside : List {y // Kept y}, out = inside.map Subtype.val) := by
  have related := sliceStable_related (n := Silent) (R := fun p _ Q => Ensures p (fun b => ∃ c, Q b c))
    (fun b c holds => ret b ⟨c, holds⟩) (fun first rest => seq first (fun b ⟨c, holds⟩ => rest b c holds))
    (f := (Subtype.val : {y // Kept y} → α)) (g := fun _ _ => ()) (fun x y => each x.1 y.1)
    (l.attachWith Kept kept)
  rwa [attachWith_map_subtype_val] at related

end Kv.StableSort

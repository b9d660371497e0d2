import Intreccio.Foundation.StableSort
import Mathlib.Algebra.Group.Nat.Defs
import Mathlib.Data.List.Chain

/-! What the stable sort does with a comparison that is a function of the two elements but need not
be an order. Every merge splits its two blocks at places where the comparison was made, and an
insertion is a merge with one element, so the results of the sort are described by these splits.
-/

namespace Kv.StableSort

open List

variable {m : Type → Type} [Monad m] {α : Type}

/-- The sort by a comparison that is a function of the two elements. -/
def sortBy (lt : α → α → Bool) (l : List α) : List α := Id.run (sliceStable (m := Id) lt l)

/-- Where each comparison answers as a function of its arguments, so does the sort. -/
theorem sliceStable_simulates {Ensures : {β : Type} → m β → (β → Prop) → Prop} {less : α → α → m Bool}
    (ret : ∀ {β : Type} {Q : β → Prop} (b : β), Q b → Ensures (pure b : m β) Q)
    (seq : ∀ {β γ : Type} {P : β → Prop} {Q : γ → Prop} {p : m β} {f : β → m γ},
      Ensures p P → (∀ b, P b → Ensures (f b) Q) → Ensures (p >>= f) Q)
    {β : Type} {f : β → α} {lt : β → β → Bool} (each : ∀ x y, Ensures (less (f x) (f y)) (· = lt x y)) (l : List β)
    : Ensures (sliceStable less (l.map f)) (· = (sortBy lt l).map f) :=
  sliceStable_related (n := Id) (R := fun p c Q => Ensures p (Q · c)) (fun b _ holds => ret b holds)
    (fun first rest => seq first (rest · _)) each l

/-- `out` merges `xs` and `ys` by splitting both: what follows a split on one side is not less than
what precedes it on the other side for `ys`, and greater for `xs`.
-/
inductive Merges (lt : α → α → Bool) : List α → List α → List α → Prop
  | left (xs : List α) : Merges lt xs [] xs
  | right (ys : List α) : Merges lt [] ys ys
  | split {xs xs' ys ys' out out' : List α} (first : Merges lt xs ys out) (second : Merges lt xs' ys' out')
      (stays : ∀ x ∈ xs.getLast?, ∀ y ∈ ys'.head?, lt y x = false)
      (passes : ∀ y ∈ ys.getLast?, ∀ x ∈ xs'.head?, lt y x = true)
      : Merges lt (xs ++ xs') (ys ++ ys') (out ++ out')

/-- What the sort may make of a list. -/
inductive Arranges (lt : α → α → Bool) : List α → List α → Prop
  | nil : Arranges lt [] []
  | one (x : α) : Arranges lt [x] [x]
  | merge {l l' xs ys out : List α} (first : Arranges lt l xs) (second : Arranges lt l' ys)
      (merges : Merges lt xs ys out)
      : Arranges lt (l ++ l') out

section Algorithm

variable {lt : α → α → Bool}

/-- The index lies in its bounds, and the condition changes there unless it is one of them. -/
structure Boundary (advances : Nat → Bool) (lo hi i : Nat) : Prop where
  above : lo ≤ i
  below : i ≤ hi
  last : lo < i → advances (i - 1) = true
  stops : i < hi → advances i = false

theorem Boundary.single (advances : Nat → Bool) (lo : Nat) : Boundary advances lo lo lo :=
  ⟨Nat.le_refl _, Nat.le_refl _, fun less => absurd less (Nat.lt_irrefl _),
    fun less => absurd less (Nat.lt_irrefl _)⟩

theorem search_succ (advances : Nat → Bool) (fuel lo hi : Nat)
    : search (m := Id) advances (fuel + 1) lo hi
      = if lo < hi then
          if advances ((lo + hi) / 2) then search (m := Id) advances fuel ((lo + hi) / 2 + 1) hi
          else search (m := Id) advances fuel lo ((lo + hi) / 2)
        else lo :=
  rfl

theorem search_boundary {advances : Nat → Bool} {fuel lo hi : Nat} (enough : hi - lo ≤ fuel) (ordered : lo ≤ hi)
    : Boundary advances lo hi (search (m := Id) advances fuel lo hi) := by
  induction fuel generalizing lo hi with
  | zero =>
    obtain rfl : lo = hi := by omega
    exact .single advances lo
  | succ fuel ih =>
    rw [search_succ]
    split
    next wide =>
      split
      next more =>
        have found : Boundary advances ((lo + hi) / 2 + 1) hi _ := ih (by omega) (by omega)
        refine ⟨Nat.le_trans (by omega) found.above, found.below, fun _ => ?_, found.stops⟩
        obtain same | further := Nat.eq_or_lt_of_le found.above
        · rw [← same]
          exact more
        · exact found.last further
      next less =>
        have found : Boundary advances lo ((lo + hi) / 2) _ := ih (by omega) (by omega)
        refine ⟨found.above, Nat.le_trans found.below (by omega), found.last, fun _ => ?_⟩
        obtain same | before := Nat.eq_or_lt_of_le found.below
        · rw [same]
          simpa using less
        · exact found.stops before
    next narrow =>
      obtain rfl : lo = hi := by omega
      exact .single advances lo

theorem lessAt_append_eq {xs ys : List α} {i j : Nat} {x y : α} (right : ys[i]? = some y) (left : xs[j]? = some x)
    : lessAt (m := Id) lt (xs ++ ys) (xs.length + i) j = lt y x := by
  have inside : j < xs.length := (List.getElem?_eq_some_iff.mp left).1
  unfold lessAt
  rw [getElem?_append_right (Nat.le_add_right _ _), Nat.add_sub_cancel_left, right,
    getElem?_append_left inside, left]

theorem getElem?_of_last_take {l : List α} {i : Nat} {x : α} (inside : i ≤ l.length)
    (last : x ∈ (l.take i).getLast?)
    : 0 < i ∧ l[i - 1]? = some x := by
  rw [Option.mem_def, getLast?_take] at last
  split at last
  · cases last
  next some' =>
    have bound : i - 1 < l.length := by omega
    rw [getElem?_eq_getElem bound, Option.some_or] at last
    exact ⟨Nat.pos_of_ne_zero some', by rw [getElem?_eq_getElem bound, last]⟩

/-- A merge that splits its blocks at the given places. -/
theorem Merges.split_at {xs ys out out' : List α} {i j : Nat} (left : i ≤ xs.length) (right : j ≤ ys.length)
    (first : Merges lt (xs.take i) (ys.take j) out) (second : Merges lt (xs.drop i) (ys.drop j) out')
    (stays : ∀ x y, 0 < i → xs[i - 1]? = some x → ys[j]? = some y → lt y x = false)
    (passes : ∀ x y, 0 < j → xs[i]? = some x → ys[j - 1]? = some y → lt y x = true)
    : Merges lt xs ys (out ++ out') := by
  have parts := Merges.split first second (fun x last y head => ?_) (fun y last x head => ?_)
  · rwa [take_append_drop, take_append_drop] at parts
  · obtain ⟨some', before⟩ := getElem?_of_last_take left last
    rw [head?_drop] at head
    exact stays x y some' before head
  · obtain ⟨some', before⟩ := getElem?_of_last_take right last
    rw [head?_drop] at head
    exact passes x y some' head before

/-- One element goes where the comparison with its neighbours says. -/
theorem Merges.left_one {x : α} {ys : List α} {j : Nat} (inside : j ≤ ys.length)
    (stays : ∀ y, ys[j]? = some y → lt y x = false)
    (passes : ∀ y, 0 < j → ys[j - 1]? = some y → lt y x = true)
    : Merges lt [x] ys (ys.take j ++ [x] ++ ys.drop j) := by
  have rest : Merges lt [x] (ys.drop j) ([x] ++ ys.drop j) := by
    refine Merges.split (.left [x]) (.right (ys.drop j)) (fun a last y head => ?_) (fun _ => nofun)
    cases last
    rw [head?_drop] at head
    exact stays y head
  rw [append_assoc]
  refine Merges.split_at (i := 0) (Nat.zero_le _) inside (.right _) rest (fun _ _ less => by omega) ?_
  intro a y some' here before
  cases here
  exact passes y some' before

theorem Merges.right_one {xs : List α} {y : α} {i : Nat} (inside : i ≤ xs.length)
    (stays : ∀ x, 0 < i → xs[i - 1]? = some x → lt y x = false)
    (passes : ∀ x, xs[i]? = some x → lt y x = true)
    : Merges lt xs [y] (xs.take i ++ [y] ++ xs.drop i) := by
  have start : Merges lt (xs.take i) [y] (xs.take i ++ [y]) := by
    have parts : Merges lt (xs.take i ++ []) ([] ++ [y]) (xs.take i ++ [y]) := by
      refine .split (.left _) (.right _) (fun x last b head => ?_) (fun _ => nofun)
      cases head
      obtain ⟨some', before⟩ := getElem?_of_last_take inside last
      exact stays x some' before
    rwa [append_nil] at parts
  refine Merges.split_at (j := 1) inside (Nat.le_refl _) start (.left _) (fun _ _ _ _ head => by cases head) ?_
  intro x b _ here same
  cases same
  exact passes x here

theorem rotated_eq {xs ys : List α} {start stop : Nat} (first : start ≤ xs.length) (last : xs.length ≤ stop)
    : rotated (xs ++ ys) xs.length start stop
      = xs.take start ++ ys.take (stop - xs.length) ++ (xs.drop start ++ ys.drop (stop - xs.length)) := by
  have before : (xs ++ ys).take start = xs.take start := take_append_of_le_length first
  have mid : ((xs ++ ys).take stop).drop xs.length = ys.take (stop - xs.length) := by
    rw [take_append, take_of_length_le last, drop_left]
  have mid' : ((xs ++ ys).take xs.length).drop start = xs.drop start := by rw [take_left]
  have after : (xs ++ ys).drop stop = ys.drop (stop - xs.length) := by
    rw [drop_append, drop_of_length_le last, nil_append]
  unfold rotated
  split
  · rw [before, mid, mid', after]
    simp only [append_assoc]
  · obtain rfl | rfl : start = xs.length ∨ stop = xs.length := by omega
    · simp
    · rw [Nat.sub_self, take_zero, drop_zero, append_nil, ← append_assoc,
        take_append_drop]

/-- What the search for a rotation finds: the places where the two blocks are split. -/
theorem rotation_spec {xs ys : List α} {start : Nat}
    (found : Boundary (fun h => !lessAt (m := Id) lt (xs ++ ys) ((xs ++ ys).length / 2 + xs.length - 1 - h) h)
      (searchBounds (xs ++ ys).length xs.length).1 (searchBounds (xs ++ ys).length xs.length).2 start)
    : ∃ j, start ≤ xs.length ∧ j ≤ ys.length ∧ start + j = (xs ++ ys).length / 2
      ∧ (∀ x y, 0 < start → xs[start - 1]? = some x → ys[j]? = some y → lt y x = false)
      ∧ ∀ x y, 0 < j → xs[start]? = some x → ys[j - 1]? = some y → lt y x = true := by
  obtain ⟨above, below, last, stops⟩ := found
  simp only [length_append] at above below last stops ⊢
  -- the bounds of the search are places at which one of the two sides of a split is empty
  have bounds : start ≤ xs.length ∧ start ≤ (xs.length + ys.length) / 2
      ∧ (xs.length + ys.length) / 2 - start ≤ ys.length
      ∧ (0 < start → (xs.length + ys.length) / 2 - start < ys.length
        → (searchBounds (xs.length + ys.length) xs.length).1 < start)
      ∧ (start < (xs.length + ys.length) / 2 → start < xs.length
        → start < (searchBounds (xs.length + ys.length) xs.length).2) := by
    rcases Nat.lt_or_ge ((xs.length + ys.length) / 2) xs.length with wide | narrow
    · rw [searchBounds, if_pos wide] at above below ⊢
      dsimp only at above below ⊢
      omega
    · rw [searchBounds, if_neg (Nat.not_lt.mpr narrow)] at above below ⊢
      dsimp only at above below ⊢
      omega
  obtain ⟨inLeft, inHalf, inRight, notFirst, notLast⟩ := bounds
  refine ⟨(xs.length + ys.length) / 2 - start, inLeft, inRight, by omega, fun x y some' left right => ?_,
    fun x y some' left right => ?_⟩
  · have more := last (notFirst some' (List.getElem?_eq_some_iff.mp right).1)
    have here : (xs.length + ys.length) / 2 + xs.length - 1 - (start - 1)
        = xs.length + ((xs.length + ys.length) / 2 - start) := by omega
    rw [here, lessAt_append_eq right left] at more
    simpa using more
  · have stop := stops (notLast (by omega) (List.getElem?_eq_some_iff.mp left).1)
    have here : (xs.length + ys.length) / 2 + xs.length - 1 - start
        = xs.length + ((xs.length + ys.length) / 2 - start - 1) := by omega
    rw [here, lessAt_append_eq right left] at stop
    simpa using stop

theorem searchBounds_ordered (len first : Nat) (inside : first ≤ len)
    : (searchBounds len first).1 ≤ (searchBounds len first).2 ∧ (searchBounds len first).2 ≤ len := by
  unfold searchBounds
  split <;> dsimp only <;> omega

/-- The merge after a rotation, from merges of the two halves. -/
theorem mergeFrom_merges {fuel : Nat} {xs ys : List α} {start j : Nat}
    (halves : ∀ {xs' ys' : List α}, xs'.length + ys'.length < xs.length + ys.length
      → Merges lt xs' ys' (symMerge (m := Id) lt fuel xs' ys'))
    (left : start ≤ xs.length) (right : j ≤ ys.length) (half : start + j = (xs.length + ys.length) / 2)
    (stays : ∀ x y, 0 < start → xs[start - 1]? = some x → ys[j]? = some y → lt y x = false)
    (passes : ∀ x y, 0 < j → xs[start]? = some x → ys[j - 1]? = some y → lt y x = true)
    : Merges lt xs ys (mergeFrom (m := Id) lt fuel xs ys start) := by
  have stop : (xs.length + ys.length) / 2 + xs.length - start = xs.length + j := by omega
  have size : (xs.take start ++ ys.take j).length = (xs.length + ys.length) / 2 := by
    rw [length_append, length_take_of_le left, length_take_of_le right, half]
  have before : ((xs.take start ++ ys.take j) ++ (xs.drop start ++ ys.drop j)).take ((xs.length + ys.length) / 2)
      = xs.take start ++ ys.take j := take_left' size
  have after : ((xs.take start ++ ys.take j) ++ (xs.drop start ++ ys.drop j)).drop ((xs.length + ys.length) / 2)
      = xs.drop start ++ ys.drop j := drop_left' size
  have first : Merges lt (xs.take start) (ys.take j)
      (if 0 < start ∧ start < (xs.length + ys.length) / 2 then
        symMerge (m := Id) lt fuel ((xs.take start ++ ys.take j).take start) ((xs.take start ++ ys.take j).drop start)
      else xs.take start ++ ys.take j) := by
    have split : (xs.take start).length = start := length_take_of_le left
    split
    · rw [take_left' split, drop_left' split]
      refine halves ?_
      rw [length_take_of_le left, length_take_of_le right]
      omega
    next edge =>
      obtain rfl | rfl : start = 0 ∨ j = 0 := by omega
      · exact .right _
      · rw [take_zero, append_nil]
        exact .left _
  have second : Merges lt (xs.drop start) (ys.drop j)
      (if (xs.length + ys.length) / 2 < xs.length + j ∧ xs.length + j < xs.length + ys.length then
        symMerge (m := Id) lt fuel
          ((xs.drop start ++ ys.drop j).take (xs.length + j - (xs.length + ys.length) / 2))
          ((xs.drop start ++ ys.drop j).drop (xs.length + j - (xs.length + ys.length) / 2))
      else xs.drop start ++ ys.drop j) := by
    have split : (xs.drop start).length = xs.length + j - (xs.length + ys.length) / 2 := by
      rw [length_drop]
      omega
    split
    · rw [take_left' split, drop_left' split]
      refine halves ?_
      rw [length_drop, length_drop]
      omega
    next edge =>
      obtain whole | whole : xs.drop start = [] ∨ ys.drop j = [] := by
        rw [drop_eq_nil_iff, drop_eq_nil_iff]
        omega
      · rw [whole]
        exact .right _
      · rw [whole, append_nil]
        exact .left _
  have parts := Merges.split_at left right first second stays passes
  unfold mergeFrom
  dsimp only
  rw [length_append, stop, rotated_eq left (Nat.le_add_right _ _), Nat.add_sub_cancel_left, before, after]
  exact parts

theorem symMerge_left_one (x : α) (ys : List α)
    : let i := search (m := Id) (fun h => lessAt (m := Id) lt ([x] ++ ys) h 0) ([x] ++ ys).length 1
        ([x] ++ ys).length
      Merges lt [x] ys ((([x] ++ ys).take i).drop 1 ++ [x] ++ ([x] ++ ys).drop i) := by
  have found : Boundary (fun h => lessAt (m := Id) lt ([x] ++ ys) h 0) 1 ([x] ++ ys).length
      (search (m := Id) (fun h => lessAt (m := Id) lt ([x] ++ ys) h 0) ([x] ++ ys).length 1 ([x] ++ ys).length) :=
    search_boundary (by omega) (by simp)
  obtain ⟨i, same⟩ : ∃ i : Nat, search (m := Id) (fun h => lessAt (m := Id) lt ([x] ++ ys) h 0)
    ([x] ++ ys).length 1 ([x] ++ ys).length = i := ⟨_, rfl⟩
  rw [same] at found ⊢
  obtain ⟨above, below, last, stops⟩ := found
  obtain ⟨j, rfl⟩ : ∃ j, i = j + 1 := ⟨i - 1, by omega⟩
  refine Merges.left_one (j := j) ?_ (fun y here => ?_) (fun y some' before => ?_)
  · simpa using below
  · have inside := (List.getElem?_eq_some_iff.mp here).1
    have stop := stops (by rw [length_append, length_singleton]; omega)
    rwa [Nat.add_comm, ← length_singleton (a := x), lessAt_append_eq here rfl] at stop
  · have more := last (by omega)
    have place : j + 1 - 1 = [x].length + (j - 1) := by simp; omega
    rwa [place, lessAt_append_eq before rfl] at more

theorem symMerge_right_one (xs : List α) (y : α)
    : let i := search (m := Id) (fun h => !lessAt (m := Id) lt (xs ++ [y]) xs.length h) (xs ++ [y]).length 0 xs.length
      Merges lt xs [y] (xs.take i ++ [y] ++ xs.drop i) := by
  have found : Boundary (fun h => !lessAt (m := Id) lt (xs ++ [y]) xs.length h) 0 xs.length
      (search (m := Id) (fun h => !lessAt (m := Id) lt (xs ++ [y]) xs.length h) (xs ++ [y]).length 0 xs.length) :=
    search_boundary (by simp) (Nat.zero_le _)
  dsimp only
  generalize search (m := Id) _ _ _ _ = i at found ⊢
  obtain ⟨above, below, last, stops⟩ := found
  have compare {j : Nat} {x : α} (here : xs[j]? = some x) : lessAt (m := Id) lt (xs ++ [y]) xs.length j = lt y x :=
    lessAt_append_eq (i := 0) rfl here
  refine Merges.right_one below (fun x some' before => ?_) (fun x here => ?_)
  · have more := last some'
    rw [compare before] at more
    simpa using more
  · have stop := stops (List.getElem?_eq_some_iff.mp here).1
    rw [compare here] at stop
    simpa using stop

/-- Every merge of the algorithm is a merge by splits, whatever the comparison. -/
theorem symMerge_merges {fuel : Nat} {xs ys : List α} (enough : xs.length + ys.length ≤ fuel)
    : Merges lt xs ys (symMerge (m := Id) lt fuel xs ys) := by
  induction fuel generalizing xs ys with
  | zero =>
    obtain rfl : xs = [] := length_eq_zero_iff.mp (by omega)
    exact .right ys
  | succ fuel ih =>
    rw [symMerge_succ]
    split
    next single =>
      obtain ⟨x, rfl⟩ := length_eq_one_iff.mp single
      exact symMerge_left_one x ys
    next several =>
      split
      next single =>
        obtain ⟨y, rfl⟩ : ∃ y, ys = [y] := length_eq_one_iff.mp (by simpa using single)
        exact symMerge_right_one xs y
      next many =>
        have found : Boundary (fun h =>
              !lessAt (m := Id) lt (xs ++ ys) ((xs ++ ys).length / 2 + xs.length - 1 - h) h)
            (searchBounds (xs ++ ys).length xs.length).1 (searchBounds (xs ++ ys).length xs.length).2
            (search (m := Id) (fun h =>
              !lessAt (m := Id) lt (xs ++ ys) ((xs ++ ys).length / 2 + xs.length - 1 - h) h) (xs ++ ys).length
              (searchBounds (xs ++ ys).length xs.length).1 (searchBounds (xs ++ ys).length xs.length).2) := by
          have ordered := searchBounds_ordered (xs ++ ys).length xs.length (by simp)
          exact search_boundary (by omega) ordered.1
        change Merges lt xs ys (mergeFrom (m := Id) lt fuel xs ys (search (m := Id) _ _ _ _))
        generalize search (m := Id) _ _ _ _ = start at found ⊢
        obtain ⟨j, left, right, half, stays, passes⟩ := rotation_spec found
        rw [length_append] at half
        exact mergeFrom_merges (fun smaller => ih (by omega)) left right half stays passes

theorem insertBack_cons (x y : α) (rest : List α)
    : insertBack (m := Id) lt x (y :: rest)
      = if lt x y then y :: insertBack (m := Id) lt x rest else x :: y :: rest := by
  change (if lt x y = true then _ else _) = _
  split <;> rfl

/-- An insertion from the back is a merge with one element. -/
theorem insertBack_merges (x : α) (done : List α)
    : Merges lt done.reverse [x] (insertBack (m := Id) lt x done).reverse := by
  induction done with
  | nil => exact .right [x]
  | cons y rest ih =>
    rw [insertBack_cons, reverse_cons]
    split
    next before =>
      rw [reverse_cons]
      have parts : Merges lt (rest.reverse ++ [y]) ([x] ++ []) _ :=
        .split ih (.left [y]) (fun _ _ _ => nofun) (fun a last b head => by cases last; cases head; exact before)
      exact parts
    next after =>
      rw [reverse_cons, reverse_cons]
      have parts : Merges lt (rest.reverse ++ [y] ++ []) ([] ++ [x]) (rest.reverse ++ [y] ++ [x]) := by
        refine .split (.left _) (.right _) (fun a last b head => ?_) (fun _ => nofun)
        rw [getLast?_concat] at last
        cases last
        cases head
        simpa using after
      rwa [append_nil] at parts

theorem insertAll_arranges {earlier done : List α} (before : Arranges lt earlier done.reverse) (l : List α)
    : Arranges lt (earlier ++ l) (insertAll (m := Id) lt done l) := by
  induction l generalizing earlier done with
  | nil => rwa [append_nil]
  | cons x rest ih =>
    have next := ih (Arranges.merge before (.one x) (insertBack_merges x done))
    rwa [append_assoc] at next

/-- The blocks arrange those of another list. -/
abbrev ArrangesEach (lt : α → α → Bool) : List (List α) → List (List α) → Prop := List.Forall₂ (Arranges lt)

theorem sortBlocks_arranges (l : List (List α)) : ArrangesEach lt l (sortBlocks (m := Id) lt l) := by
  induction l with
  | nil => exact .nil
  | cons b rest ih =>
    have start : Arranges lt [] ([] : List α).reverse := .nil
    exact .cons (insertAll_arranges start b) ih

/-- Merging in pairs arranges the pairs, and there are fewer of them. -/
theorem mergePairs_arranges {l sorted : List (List α)} (arranged : ArrangesEach lt l sorted)
    : ∃ l', l'.flatten = l.flatten ∧ ArrangesEach lt l' (mergePairs (m := Id) lt sorted)
      ∧ (2 ≤ l.length → l'.length < l.length) ∧ l'.length ≤ l.length := by
  fun_induction mergePairs (m := Id) lt sorted generalizing l with
  | case1 xs ys rest ih =>
    obtain ⟨b, l', first, others, rfl⟩ := forall₂_cons_right_iff.mp arranged
    obtain ⟨b', l', second, remaining, rfl⟩ := forall₂_cons_right_iff.mp others
    obtain ⟨more, same, paired, _, fewer⟩ := ih remaining
    have merged := Arranges.merge first second (symMerge_merges (Nat.le_refl _))
    refine ⟨(b ++ b') :: more, ?_, .cons merged paired, fun _ => ?_, ?_⟩
    · simp [same]
    · simp only [length_cons]
      omega
    · simp only [length_cons]
      omega
  | case2 sorted short =>
    refine ⟨l, rfl, arranged, fun two => ?_, Nat.le_refl _⟩
    cases arranged with
    | nil => simp at two
    | cons first arranged =>
      cases arranged with
      | nil => simp at two
      | cons second others => exact absurd rfl (short _ _ _)

theorem ArrangesEach.single {l sorted : List (List α)} (arranged : ArrangesEach lt l sorted)
    (fewer : sorted.length ≤ 1)
    : Arranges lt l.flatten sorted.flatten := by
  cases arranged with
  | nil => exact .nil
  | cons first others =>
    cases others with
    | nil => simpa using first
    | cons _ _ => simp at fewer

theorem mergeAll_arranges {fuel : Nat} {l sorted : List (List α)} (enough : l.length ≤ fuel)
    (arranged : ArrangesEach lt l sorted)
    : Arranges lt l.flatten (mergeAll (m := Id) lt fuel sorted) := by
  have same := arranged.length_eq
  induction fuel generalizing l sorted with
  | zero => exact arranged.single (by omega)
  | succ fuel ih =>
    change Arranges lt l.flatten (if sorted.length ≤ 1 then sorted.flatten
      else mergeAll (m := Id) lt fuel (mergePairs (m := Id) lt sorted))
    split
    next few => exact arranged.single few
    next many =>
      obtain ⟨l', flat, paired, fewer, _⟩ := mergePairs_arranges arranged
      rw [← flat]
      exact ih (by omega) paired paired.length_eq

theorem flatten_blocks {size fuel : Nat} {l : List α} (enough : l.length ≤ fuel) (some' : 0 < size)
    : (blocks size fuel l).flatten = l := by
  induction fuel generalizing l with
  | zero =>
    obtain rfl := length_eq_zero_iff.mp (Nat.le_zero.mp enough)
    rfl
  | succ fuel ih =>
    unfold blocks
    split
    next empty => rw [List.isEmpty_iff.mp empty, flatten_nil]
    next nonempty =>
      have shorter : (l.drop size).length ≤ fuel := by
        rw [length_drop]
        omega
      rw [flatten_cons, ih shorter, take_append_drop]

/-- The sort arranges the list, whatever the comparison. -/
theorem sortBy_arranges (lt : α → α → Bool) (l : List α) : Arranges lt l (sortBy lt l) := by
  have sorted : ArrangesEach lt _ _ := sortBlocks_arranges (blocks 20 l.length l)
  have merged := mergeAll_arranges (Nat.le_of_eq sorted.length_eq) sorted
  rwa [flatten_blocks (Nat.le_refl _) (by decide)] at merged

end Algorithm

section Order

variable {lt : α → α → Bool} {l xs ys out : List α}

theorem Merges.perm (merges : Merges lt xs ys out) : out.Perm (xs ++ ys) := by
  induction merges with
  | left xs => rw [append_nil]
  | right ys => exact .refl _
  | @split xs xs' ys ys' out out' _ _ _ _ ih ih' =>
    calc (out ++ out').Perm ((xs ++ ys) ++ (xs' ++ ys')) := ih.append ih'
      _ = xs ++ (ys ++ xs') ++ ys' := by simp only [append_assoc]
      _ |>.Perm (xs ++ (xs' ++ ys) ++ ys') := (perm_append_comm.append_left xs).append_right ys'
      _ = xs ++ xs' ++ (ys ++ ys') := by simp only [append_assoc]

theorem Arranges.perm (arranges : Arranges lt l out) : out.Perm l := by
  induction arranges with
  | nil | one x => exact .refl _
  | merge _ _ merges ih ih' => exact merges.perm.trans (ih.append ih')

/-- `y` may come right after `x`. -/
def Follows (lt : α → α → Bool) (x y : α) : Prop := lt y x = false

/-- `y` may come after `x`, with others between them. -/
abbrev Leads (lt : α → α → Bool) : α → α → Prop := Relation.ReflTransGen (Follows lt)

/-- There are elements that put `v` before `u`: one that may come after `v` is less than one after which
`u` may come.
-/
def Overtakes (lt : α → α → Bool) (v u : α) : Prop := ∃ a b, Leads lt v a ∧ lt a b = true ∧ Leads lt b u

theorem Merges.empty (merges : Merges lt xs ys []) : xs = [] ∧ ys = [] :=
  append_eq_nil_iff.mp merges.perm.nil_eq.symm

/-- The ends of a merge are ends of its parts. -/
theorem Merges.head_or (merges : Merges lt xs ys out) {x : α} (first : out.head? = some x)
    : xs.head? = some x ∨ ys.head? = some x := by
  induction merges with
  | left xs => exact .inl first
  | right ys => exact .inr first
  | @split xs xs' ys ys' out out' before _ _ _ ih ih' =>
    rw [head?_append] at first ⊢
    rw [head?_append]
    cases start : out.head? with
    | some a =>
      rw [start, Option.some_or] at first
      obtain here | here := ih (start.trans first)
      · exact .inl (by rw [here, Option.some_or])
      · exact .inr (by rw [here, Option.some_or])
    | none =>
      obtain rfl := head?_eq_none_iff.mp start
      obtain ⟨rfl, rfl⟩ := before.empty
      exact ih' first

theorem Merges.last_or (merges : Merges lt xs ys out) {x : α} (last : out.getLast? = some x)
    : xs.getLast? = some x ∨ ys.getLast? = some x := by
  induction merges with
  | left xs => exact .inl last
  | right ys => exact .inr last
  | @split xs xs' ys ys' out out' _ after _ _ ih ih' =>
    rw [getLast?_append] at last ⊢
    rw [getLast?_append]
    cases stop : out'.getLast? with
    | some a =>
      rw [stop, Option.some_or] at last
      obtain here | here := ih' (stop.trans last)
      · exact .inl (by rw [here, Option.some_or])
      · exact .inr (by rw [here, Option.some_or])
    | none =>
      obtain rfl := getLast?_eq_none_iff.mp stop
      obtain ⟨rfl, rfl⟩ := after.empty
      rw [stop, Option.none_or] at last
      exact ih last

/-- In what the sort makes of a list no element is less than the one before it. -/
theorem Merges.chain (asymm : ∀ x y, lt x y = true → lt y x = false) (merges : Merges lt xs ys out)
    (left : xs.IsChain (Follows lt)) (right : ys.IsChain (Follows lt))
    : out.IsChain (Follows lt) := by
  induction merges with
  | left xs => exact left
  | right ys => exact right
  | split first second stays passes ih ih' =>
    obtain ⟨leftFirst, leftSecond, leftJoin⟩ := isChain_append.mp left
    obtain ⟨rightFirst, rightSecond, rightJoin⟩ := isChain_append.mp right
    refine isChain_append.mpr ⟨ih leftFirst rightFirst, ih' leftSecond rightSecond, fun a last b head => ?_⟩
    obtain fromLeft | fromRight := first.last_or last
    · obtain toLeft | toRight := second.head_or head
      · exact leftJoin a fromLeft b toLeft
      · exact stays a fromLeft b toRight
    · obtain toLeft | toRight := second.head_or head
      · exact asymm a b (passes a fromRight b toLeft)
      · exact rightJoin a fromRight b toRight

theorem leads_of_chain (chain : l.IsChain (Follows lt)) : l.Pairwise (Leads lt) :=
  List.IsChain.pairwise (chain.imp fun _ _ next => .single next)

theorem leads_last (chain : l.IsChain (Follows lt)) {x y : α} (member : x ∈ l) (last : l.getLast? = some y)
    : Leads lt x y := by
  obtain ⟨start, rfl⟩ := getLast?_eq_some_iff.mp last
  obtain earlier | same := mem_append.mp member
  · exact (pairwise_append.mp (leads_of_chain chain)).2.2 x earlier y mem_cons_self
  · rw [mem_singleton.mp same]

theorem leads_head (chain : l.IsChain (Follows lt)) {x y : α} (member : x ∈ l) (head : l.head? = some y)
    : Leads lt y x := by
  obtain ⟨rest, rfl⟩ := head?_eq_some_iff.mp head
  obtain rfl | later := mem_cons.mp member
  · exact .refl
  · exact (pairwise_cons.mp (leads_of_chain chain)).1 x later

/-- Lists with one and the same element commute. -/
theorem append_comm_of_eq (same : ∀ u v, u ∈ xs → v ∈ ys → u = v) : xs ++ ys = ys ++ xs := by
  cases xs with
  | nil => rw [append_nil, nil_append]
  | cons u xs =>
    cases ys with
    | nil => rw [append_nil, nil_append]
    | cons v ys =>
      have left : u :: xs = List.replicate (u :: xs).length v :=
        eq_replicate_of_mem fun w member => same w v member mem_cons_self
      have right : v :: ys = List.replicate (v :: ys).length v :=
        eq_replicate_of_mem fun w member =>
          (same u w mem_cons_self member).symm.trans (same u v mem_cons_self mem_cons_self)
      rw [left, right, replicate_append_replicate, replicate_append_replicate, Nat.add_comm]

/-- Elements that do not overtake each other keep their order. -/
theorem Merges.filter {p : α → Bool} (apart : ∀ u v, p u = true → p v = true → u ≠ v → ¬ Overtakes lt v u)
    (merges : Merges lt xs ys out) (left : xs.IsChain (Follows lt)) (right : ys.IsChain (Follows lt))
    : out.filter p = xs.filter p ++ ys.filter p := by
  induction merges with
  | left xs => rw [filter_nil, append_nil]
  | right ys => rfl
  | @split xs xs' ys ys' out out' first second stays passes ih ih' =>
    obtain ⟨leftFirst, leftSecond, _⟩ := isChain_append.mp left
    obtain ⟨rightFirst, rightSecond, _⟩ := isChain_append.mp right
    have same (u v : α) (inLeft : u ∈ xs'.filter p) (inRight : v ∈ ys.filter p) : u = v := by
      by_contra other
      obtain ⟨inLeft, good⟩ := mem_filter.mp inLeft
      obtain ⟨inRight, good'⟩ := mem_filter.mp inRight
      obtain ⟨a, last⟩ : ∃ a, ys.getLast? = some a := ⟨_, getLast?_eq_some_getLast (ne_nil_of_mem inRight)⟩
      obtain ⟨b, head⟩ : ∃ b, xs'.head? = some b := ⟨_, head?_eq_some_head (ne_nil_of_mem inLeft)⟩
      exact apart u v good good' other ⟨a, b, leads_last rightFirst inRight last, passes a last b head,
        leads_head leftSecond inLeft head⟩
    have swap := append_comm_of_eq same
    rw [filter_append, filter_append, filter_append, ih leftFirst rightFirst,
      ih' leftSecond rightSecond]
    simp only [append_assoc]
    rw [← append_assoc (ys.filter p), ← swap, append_assoc]

theorem Arranges.chain (asymm : ∀ x y, lt x y = true → lt y x = false) (arranges : Arranges lt l out)
    : out.IsChain (Follows lt) := by
  induction arranges with
  | nil => exact .nil
  | one x => exact .singleton x
  | merge _ _ merges ih ih' => exact merges.chain asymm ih ih'

theorem Arranges.filter {p : α → Bool} (asymm : ∀ x y, lt x y = true → lt y x = false)
    (apart : ∀ u v, p u = true → p v = true → u ≠ v → ¬ Overtakes lt v u) (arranges : Arranges lt l out)
    : out.filter p = l.filter p := by
  induction arranges with
  | nil | one x => rfl
  | merge first second merges ih ih' =>
    rw [merges.filter apart (first.chain asymm) (second.chain asymm), ih, ih', filter_append]

/-- Where what is less than another is less than a third or the third less than the other, the elements that
may follow an element are those that may come right after it.
-/
theorem follows_of_leads (cotrans : ∀ x y z, lt x z = true → lt x y = true ∨ lt y z = true)
    (irrefl : ∀ x, lt x x = false) {x y : α} (leads : Leads lt x y)
    : Follows lt x y := by
  induction leads with
  | refl => exact irrefl x
  | @tail y z _ follows ih =>
    refine Bool.eq_false_iff.mpr fun less => ?_
    rcases cotrans z y x less with less | less
    · exact Bool.false_ne_true (follows.symm.trans less)
    · exact Bool.false_ne_true (ih.symm.trans less)

theorem less_of_overtakes (cotrans : ∀ x y z, lt x z = true → lt x y = true ∨ lt y z = true)
    (irrefl : ∀ x, lt x x = false) {u v : α} (overtakes : Overtakes lt v u)
    : lt v u = true := by
  obtain ⟨a, b, toFirst, less, toSecond⟩ := overtakes
  have first : lt a v = false := follows_of_leads cotrans irrefl toFirst
  have second : lt u b = false := follows_of_leads cotrans irrefl toSecond
  rcases cotrans a v b less with less | less
  · exact absurd (first.symm.trans less) Bool.false_ne_true
  · rcases cotrans v u b less with less | less
    · exact less
    · exact absurd (second.symm.trans less) Bool.false_ne_true

end Order

section Images

variable {lt : α → α → Bool}

/-- The images of elements are sorted as the elements are when their images are compared. -/
theorem sortBy_map {β : Type} (f : β → α) (l : List β)
    : sortBy lt (l.map f) = (sortBy (fun x y => lt (f x) (f y)) l).map f :=
  sliceStable_simulates (m := Id) (fun _ holds => holds) (fun first rest => rest _ first) (fun _ _ => rfl) l

/-- Only the comparison of elements of the list matters. -/
theorem sortBy_congr {lt' : α → α → Bool} {l : List α} (agree : ∀ x ∈ l, ∀ y ∈ l, lt x y = lt' x y)
    : sortBy lt l = sortBy lt' l := by
  have same : (fun x y : {x // x ∈ l} => lt x.1 y.1) = fun x y => lt' x.1 y.1 :=
    funext fun x => funext fun y => agree x.1 x.2 y.1 y.2
  rw [← attach_map_subtype_val l, sortBy_map, sortBy_map, same]

end Images

end Kv.StableSort

import Intreccio.Foundation.SortBy

/-! Every route that the comparison leaves open is taken by the sort of some list.
Long runs of equal elements around the borders of the blocks keep a merge from rotating, or make it
exchange its two halves, whatever the comparison says of elements that are far apart.
-/

namespace Kv.StableSort

open List

variable {α : Type} {lt : α → α → Bool}

/-- The merges of `2 ^ t` blocks form a full tree. -/
inductive MergeTree (lt : α → α → Bool) : Nat → List (List α) → List α → Prop
  | block (b : List α) : MergeTree lt 0 [b] b
  | node {t : Nat} {bs bs' : List (List α)} {xs ys : List α} (left : MergeTree lt t bs xs)
      (right : MergeTree lt t bs' ys)
      : MergeTree lt (t + 1) (bs ++ bs') (symMerge (m := Id) lt (xs.length + ys.length) xs ys)

variable {bs : List (List α)} {t : Nat}

theorem MergeTree.length {out : List α} (tree : MergeTree lt t bs out) : bs.length = 2 ^ t := by
  induction tree with
  | block b => rfl
  | node _ _ ih ih' => rw [length_append, ih, ih', Nat.pow_succ, Nat.mul_two]

theorem mergePairs_append (even : bs.length = 2 * t) (bs' : List (List α))
    : mergePairs (m := Id) lt (bs ++ bs')
      = (mergePairs (m := Id) lt bs).run ++ (mergePairs (m := Id) lt bs').run := by
  induction t generalizing bs with
  | zero =>
    obtain rfl := length_eq_zero_iff.mp even
    rfl
  | succ t ih =>
    obtain _ | ⟨xs, _ | ⟨ys, rest⟩⟩ := bs
    · simp at even
    · simp at even
      omega
    · have fewer : rest.length = 2 * t := by simp at even; omega
      exact congrArg (symMerge (m := Id) lt _ xs ys :: ·) (ih fewer)

/-- One round of merges takes off the lowest level of the tree. -/
theorem MergeTree.pairs {out : List α} (tree : MergeTree lt (t + 1) bs out)
    : MergeTree lt t (mergePairs (m := Id) lt bs) out := by
  induction t generalizing bs out with
  | zero =>
    cases tree with
    | node left right =>
      cases left
      cases right
      exact .block _
  | succ t ih =>
    cases tree with
    | node left right =>
      rw [mergePairs_append (t := 2 ^ t) (by rw [left.length, Nat.pow_succ, Nat.mul_comm])]
      exact .node (ih left) (ih right)

theorem MergeTree.mergeAll {out : List α} (tree : MergeTree lt t bs out) {fuel : Nat}
    (enough : t ≤ fuel)
    : mergeAll (m := Id) lt fuel bs = out := by
  induction t generalizing bs fuel with
  | zero =>
    cases tree
    cases fuel <;> simp [StableSort.mergeAll] <;> rfl
  | succ t ih =>
    obtain ⟨fuel, rfl⟩ : ∃ f, fuel = f + 1 := ⟨fuel - 1, by omega⟩
    have several : ¬ bs.length ≤ 1 := by
      rw [tree.length]
      have := Nat.one_lt_two_pow (n := t + 1) (by omega)
      omega
    change (if bs.length ≤ 1 then bs.flatten else _ : List α) = _
    rw [if_neg several]
    exact ih tree.pairs (by omega)

theorem blocks_nil (size fuel : Nat) : blocks size fuel ([] : List α) = [] := by
  cases fuel <;> rfl

variable {l : List α}

theorem blocks_congr {size f g : Nat} (some' : 0 < size) (enough : l.length ≤ f)
    (enough' : l.length ≤ g)
    : blocks size f l = blocks size g l := by
  induction f generalizing g l with
  | zero =>
    obtain rfl := length_eq_zero_iff.mp (Nat.le_zero.mp enough)
    rw [blocks_nil, blocks_nil]
  | succ f ih =>
    cases g with
    | zero =>
      obtain rfl := length_eq_zero_iff.mp (Nat.le_zero.mp enough')
      rfl
    | succ g =>
      have shorter : l ≠ [] → (l.drop size).length < l.length := by
        intro nonempty
        have := length_pos_iff.mpr nonempty
        rw [length_drop]
        omega
      unfold blocks
      split
      · rfl
      next nonempty =>
        have less := shorter (by simpa using nonempty)
        exact congrArg (l.take size :: ·) (ih (by omega) (by omega))

theorem blocks_cons {size : Nat} (some' : 0 < size) (nonempty : l ≠ [])
    : blocks size l.length l = l.take size :: blocks size (l.drop size).length (l.drop size) := by
  have positive := length_pos_iff.mpr nonempty
  obtain ⟨n, length⟩ : ∃ n, l.length = n + 1 := ⟨l.length - 1, by omega⟩
  rw [length]
  conv => lhs; unfold blocks
  rw [if_neg (by simpa using nonempty)]
  refine congrArg (l.take size :: ·) (blocks_congr some' ?_ (Nat.le_refl _))
  rw [length_drop]
  omega

theorem blocks_append {size q : Nat} (some' : 0 < size) (full : l.length = size * q) (l' : List α)
    : blocks size (l ++ l').length (l ++ l') = blocks size l.length l ++ blocks size l'.length l' := by
  induction q generalizing l with
  | zero =>
    obtain rfl := length_eq_zero_iff.mp full
    rfl
  | succ q ih =>
    rw [Nat.mul_succ] at full
    have nonempty : l ≠ [] := length_pos_iff.mp (by omega)
    have first : size ≤ l.length := by omega
    rw [blocks_cons some' (append_ne_nil_of_left_ne_nil nonempty l'), blocks_cons some' nonempty,
      take_append_of_le_length first, drop_append_of_le_length first,
      ih (by rw [length_drop]; omega)]
    rfl

theorem sortBlocks_append (bs bs' : List (List α))
    : sortBlocks (m := Id) lt (bs ++ bs')
      = (sortBlocks (m := Id) lt bs).run ++ (sortBlocks (m := Id) lt bs').run := by
  induction bs with
  | nil => rfl
  | cons b rest ih => exact congrArg (insertAll (m := Id) lt [] b :: ·) ih

/-- The sort of `2 ^ t` full blocks. -/
inductive SortsTo (lt : α → α → Bool) : Nat → List α → List α → Prop
  | block {b : List α} (full : b.length = 20) : SortsTo lt 0 b (insertAll (m := Id) lt [] b)
  | node {t : Nat} {l l' xs ys : List α} (left : SortsTo lt t l xs) (right : SortsTo lt t l' ys)
      : SortsTo lt (t + 1) (l ++ l') (symMerge (m := Id) lt (xs.length + ys.length) xs ys)

theorem SortsTo.length {l out : List α} (sorts : SortsTo lt t l out) : l.length = 20 * 2 ^ t := by
  induction sorts with
  | block full => exact full
  | node _ _ ih ih' => 
      rw [length_append, ih, ih', Nat.pow_succ]
      omega

theorem SortsTo.tree {l out : List α} (sorts : SortsTo lt t l out)
    : MergeTree lt t (sortBlocks (m := Id) lt (blocks 20 l.length l)) out := by
  induction sorts with
  | @block b full =>
    have single : blocks 20 b.length b = [b] := by
      rw [blocks_cons (by decide) (length_pos_iff.mp (by omega)), take_of_length_le (by omega),
        drop_of_length_le (by omega)]
      rfl
    rw [single]
    exact .block _
  | node left right ih ih' =>
    rw [blocks_append (by decide) left.length, sortBlocks_append]
    exact .node ih ih'

theorem SortsTo.eq {l out : List α} (sorts : SortsTo lt t l out) : sortBy lt l = out := by
  have tree := sorts.tree
  exact tree.mergeAll (by rw [tree.length]; exact Nat.lt_two_pow_self.le)

/-- A search that finds its condition from its first probe on ends at the upper bound. -/
theorem search_all {advances : Nat → Bool} {fuel lo hi h : Nat} (enough : hi - lo ≤ fuel)
    (ordered : lo ≤ hi)
    (probe : lo < hi → h ≤ (lo + hi) / 2) (all : ∀ i, h ≤ i → i < hi → advances i = true)
    : search (m := Id) advances fuel lo hi = hi := by
  induction fuel generalizing lo with
  | zero =>
    obtain rfl : lo = hi := by omega
    rfl
  | succ fuel ih =>
    rw [search_succ]
    split
    next wide =>
      rw [if_pos (all _ (probe wide) (by omega))]
      exact ih (by omega) (by omega) (by have := probe wide; omega)
    next narrow => exact Nat.le_antisymm ordered (Nat.not_lt.mp narrow)

/-- A search that misses its condition up to its first probe ends at the lower bound. -/
theorem search_none {advances : Nat → Bool} {fuel lo hi h : Nat} (enough : hi - lo ≤ fuel)
    (ordered : lo ≤ hi)
    (probe : lo < hi → (lo + hi) / 2 ≤ h) (all : ∀ i, lo ≤ i → i ≤ h → advances i = false)
    : search (m := Id) advances fuel lo hi = lo := by
  induction fuel generalizing hi with
  | zero => rfl
  | succ fuel ih =>
    rw [search_succ]
    split
    next wide =>
      rw [if_neg (by rw [all _ (by omega) (probe wide)]; exact Bool.false_ne_true)]
      exact ih (by omega) (by omega) (by have := probe wide; omega)
    next narrow => rfl

variable {xs ys : List α}

/-- Where the search for a rotation of two blocks of one length ends at a bound, the merge leaves the
blocks or exchanges them.
-/
theorem symMerge_halves {n start : Nat} (left : xs.length = n) (right : ys.length = n) (several : 2 ≤ n)
    (found : search (m := Id) (fun h => !lessAt (m := Id) lt (xs ++ ys) (n + n - 1 - h) h) (n + n) 0 n = start)
    (edge : start = 0 ∨ start = n)
    : symMerge (m := Id) lt (xs.length + ys.length) xs ys = if start = 0 then ys ++ xs else xs ++ ys := by
  have whole : (xs ++ ys).length = n + n := by rw [length_append, left, right]
  have half : (n + n) / 2 = n := by omega
  have bounds : searchBounds (n + n) n = (0, n) := by rw [searchBounds, if_neg (by omega)]
  obtain ⟨fuel, length⟩ : ∃ fuel, xs.length + ys.length = fuel + 1 := ⟨n + n - 1, by omega⟩
  rw [length, symMerge_succ, if_neg (by omega), if_neg (by rw [whole]; omega), whole, left, bounds, half]
  change mergeFrom (m := Id) lt fuel xs ys
    (search (m := Id) (fun h => !lessAt (m := Id) lt (xs ++ ys) (n + n - 1 - h) h) (n + n) 0 n) = _
  rw [found]
  unfold mergeFrom
  dsimp only
  rw [whole, half, left]
  obtain rfl | rfl := edge
  · have swapped : rotated (xs ++ ys) n 0 (n + n - 0) = ys ++ xs := by
      have rotation : rotated (xs ++ ys) xs.length 0 (n + n) = _ := rotated_eq (Nat.zero_le _) (by omega)
      rw [left, Nat.add_sub_cancel, take_of_length_le (Nat.le_of_eq right),
        drop_of_length_le (Nat.le_of_eq right)] at rotation
      simpa using rotation
    rw [swapped, if_neg (by omega), if_neg (by omega), if_pos rfl]
    exact take_append_drop _ _
  · have kept : rotated (xs ++ ys) start start (start + start - start) = xs ++ ys := by
      rw [rotated, if_neg (by omega)]
    rw [kept, if_neg (by omega), if_neg (by omega), if_neg (by omega)]
    exact take_append_drop _ _

/-- A merge keeps two blocks where every probe from the middle on meets elements that may follow each other. -/
theorem symMerge_keeps {h : Nat} (left : xs.length = h + h) (right : ys.length = h + h)
    (several : 1 ≤ h)
    (meet : ∀ i, i < h → ∃ u v, xs[h + h - 1 - i]? = some u ∧ ys[i]? = some v ∧ Follows lt u v)
    : symMerge (m := Id) lt (xs.length + ys.length) xs ys = xs ++ ys := by
  have found : search (m := Id) (fun i => !lessAt (m := Id) lt (xs ++ ys) (h + h + (h + h) - 1 - i) i)
      (h + h + (h + h)) 0 (h + h) = h + h := by
    refine search_all (h := h) (by omega) (by omega) (by omega) (fun i above below => ?_)
    obtain ⟨u, v, last, first, follows⟩ := meet (h + h - 1 - i) (by omega)
    have place : h + h + (h + h) - 1 - i = xs.length + (h + h - 1 - i) := by omega
    have back : h + h - 1 - (h + h - 1 - i) = i := by omega
    rw [back] at last
    rw [place, lessAt_append_eq first last, follows]
    rfl
  rw [symMerge_halves left right (by omega) found (.inr rfl), if_neg (by omega)]

/-- A merge exchanges two blocks where every probe up to the middle meets elements in the other order. -/
theorem symMerge_exchanges {h : Nat} (left : xs.length = h + h) (right : ys.length = h + h)
    (several : 1 ≤ h)
    (pass : ∀ i, i ≤ h → ∃ u v, xs[i]? = some u ∧ ys[h + h - 1 - i]? = some v ∧ lt v u = true)
    : symMerge (m := Id) lt (xs.length + ys.length) xs ys = ys ++ xs := by
  have found : search (m := Id) (fun i => !lessAt (m := Id) lt (xs ++ ys) (h + h + (h + h) - 1 - i) i)
      (h + h + (h + h)) 0 (h + h) = 0 := by
    refine search_none (h := h) (by omega) (by omega) (by omega) (fun i _ below => ?_)
    obtain ⟨u, v, first, last, less⟩ := pass i below
    have place : h + h + (h + h) - 1 - i = xs.length + (h + h - 1 - i) := by omega
    rw [place, lessAt_append_eq last first, less]
    rfl
  rw [symMerge_halves left right (by omega) found (.inl rfl), if_pos rfl]

/-- Half of a list that is sorted in `t` rounds of merges, of one element. -/
def half (t : Nat) (x : α) : List α := List.replicate (10 * 2 ^ t) x

theorem length_half (t : Nat) (x : α) : (half t x).length = 10 * 2 ^ t := length_replicate

theorem half_succ (t : Nat) (x : α) : half (t + 1) x = half t x ++ half t x := by
  rw [half, half, replicate_append_replicate, Nat.pow_succ]
  congr 1
  omega

theorem getLast?_half (t : Nat) (x : α) : (half t x).getLast? = some x := by
  have positive := Nat.two_pow_pos t
  rw [half, getLast?_replicate, if_neg (by omega)]

theorem head?_half (t : Nat) (x : α) : (half t x).head? = some x := by
  have positive := Nat.two_pow_pos t
  rw [half, head?_replicate, if_neg (by omega)]

theorem forall_half {R : α → α → Prop} {x y : α} (related : R x y) (u : α) (left : u ∈ half t x) (v : α)
    (right : v ∈ half t y)
    : R u v := by
  rwa [eq_of_mem_replicate left, eq_of_mem_replicate right]

theorem SortsTo.length_out {l out : List α} (sorts : SortsTo lt t l out) : out.length = 20 * 2 ^ t := by
  rw [← sorts.eq, (sortBy_arranges lt l).perm.length_eq, sorts.length]

/-- Halves that may follow each other stay. -/
theorem SortsTo.keeps {h : Nat} {l l' x x' y y' : List α} (left : SortsTo lt t l (x ++ x'))
    (right : SortsTo lt t l' (y ++ y')) (lengthLeft : x.length = h) (lengthLeft' : x'.length = h)
    (lengthRight : y.length = h) (lengthRight' : y'.length = h) (meet : ∀ u ∈ x', ∀ v ∈ y, Follows lt u v)
    : SortsTo lt (t + 1) (l ++ l') ((x ++ x') ++ (y ++ y')) := by
  have positive := Nat.two_pow_pos t
  have whole := left.length_out
  rw [length_append] at whole
  have node := SortsTo.node left right
  rwa [symMerge_keeps (h := h) (by rw [length_append]; omega) (by rw [length_append]; omega)
    (by omega) (fun i inside => ?_)] at node
  have inLeft : h - 1 - i < x'.length := by omega
  have inRight : i < y.length := by omega
  refine ⟨x'[h - 1 - i], y[i], ?_, ?_, meet _ (getElem_mem _) _ (getElem_mem _)⟩
  · rw [getElem?_append_right (by omega), ← getElem?_eq_getElem]
    congr 1
    omega
  · rw [getElem?_append_left inRight, getElem?_eq_getElem]

/-- Halves that belong in the other order are exchanged. -/
theorem SortsTo.exchanges {h : Nat} {l l' x x' y y' : List α} {u v : α} (left : SortsTo lt t l (x ++ x'))
    (right : SortsTo lt t l' (y ++ y')) (lengthLeft : x.length = h) (lengthLeft' : x'.length = h)
    (lengthRight : y.length = h) (lengthRight' : y'.length = h) (first : x'.head? = some u)
    (last : y.getLast? = some v) (middle : lt v u = true) (pass : ∀ u ∈ x, ∀ v ∈ y', lt v u = true)
    : SortsTo lt (t + 1) (l ++ l') ((y ++ y') ++ (x ++ x')) := by
  have positive := Nat.two_pow_pos t
  have whole := left.length_out
  rw [length_append] at whole
  have node := SortsTo.node left right
  rwa [symMerge_exchanges (h := h) (by rw [length_append]; omega) (by rw [length_append]; omega)
    (by omega) (fun i inside => ?_)] at node
  rcases Nat.lt_or_eq_of_le inside with before | rfl
  · have inLeft : i < x.length := by omega
    have inRight : h - 1 - i < y'.length := by omega
    refine ⟨x[i], y'[h - 1 - i], ?_, ?_, pass _ (getElem_mem _) _ (getElem_mem _)⟩
    · rw [getElem?_append_left inLeft, getElem?_eq_getElem]
    · rw [getElem?_append_right (by omega), ← getElem?_eq_getElem]
      congr 1
      omega
  · refine ⟨u, v, ?_, ?_, middle⟩
    · rw [getElem?_append_right (by omega), lengthLeft, Nat.sub_self, ← head?_eq_getElem?, first]
    · rw [getElem?_append_left (by omega), ← last, getLast?_eq_getElem?, lengthRight]
      congr 1
      omega

section Chains

variable (irrefl : ∀ x, lt x x = false)

include irrefl

theorem sortsTo_half (x : α) (t : Nat) : SortsTo lt t (half t x ++ half t x) (half t x ++ half t x) := by
  induction t with
  | zero =>
    have start : Arranges lt [] ([] : List α).reverse := .nil
    have sorted := (insertAll_arranges start (List.replicate 20 x)).perm
    rw [nil_append, perm_replicate] at sorted
    have block : SortsTo lt 0 (List.replicate 20 x) _ := .block length_replicate
    rwa [sorted] at block
  | succ t ih =>
    have node := ih.keeps ih (length_half t x) (length_half t x) (length_half t x) (length_half t x)
      (forall_half (irrefl x))
    rwa [← half_succ] at node

/-- A list of elements of a chain that the sort keeps and whose first half is one run. -/
theorem exists_kept_from {x : α} {rest : List α} (chain : (x :: rest).IsChain (Follows lt)) (t : Nat)
    : ∃ l, SortsTo lt (t + rest.length) (half (t + rest.length) x ++ l) (half (t + rest.length) x ++ l)
      ∧ l.length = 10 * 2 ^ (t + rest.length) ∧ l.getLast? = (x :: rest).getLast? ∧ ∀ z ∈ l, z ∈ x :: rest := by
  induction rest generalizing x with
  | nil =>
    exact ⟨half t x, sortsTo_half irrefl x t, length_half t x, getLast?_half t x,
      fun z member => eq_of_mem_replicate member ▸ mem_cons_self⟩
  | cons y rest ih =>
    obtain ⟨follows, chain⟩ := isChain_cons_cons.mp chain
    obtain ⟨l, sorts, length, last, members⟩ := ih chain
    have node := (sortsTo_half irrefl x _).keeps sorts (length_half _ x) (length_half _ x) (length_half _ y)
      length (forall_half follows)
    rw [← half_succ, Nat.add_assoc] at node
    refine ⟨half (t + rest.length) y ++ l, node, ?_, ?_, fun z member => ?_⟩
    · rw [length_append, length_half, length, length_cons, ← Nat.add_assoc, Nat.pow_succ]
      omega
    · rw [getLast?_append, last, getLast?_cons_cons, getLast?_cons, Option.some_or]
    · refine mem_cons_of_mem x ((mem_append.mp member).elim (fun run => ?_) (members z))
      exact eq_of_mem_replicate run ▸ mem_cons_self

/-- A list of elements of a chain that the sort keeps and whose second half is one run. -/
theorem exists_kept_to {x : α} {rest : List α} (chain : (rest ++ [x]).IsChain (Follows lt)) (t : Nat)
    : ∃ l, SortsTo lt (t + rest.length) (l ++ half (t + rest.length) x) (l ++ half (t + rest.length) x)
      ∧ l.length = 10 * 2 ^ (t + rest.length) ∧ l.head? = (rest ++ [x]).head? ∧ ∀ z ∈ l, z ∈ rest ++ [x] := by
  induction rest using List.reverseRecOn generalizing x with
  | nil =>
    exact ⟨half t x, sortsTo_half irrefl x t, length_half t x, head?_half t x,
      fun z member => eq_of_mem_replicate member ▸ mem_cons_self⟩
  | append_singleton rest y ih =>
    obtain ⟨chain, _, join⟩ := isChain_append.mp chain
    obtain ⟨l, sorts, length, head, members⟩ := ih chain
    have follows : Follows lt y x := join y getLast?_concat x rfl
    have node := sorts.keeps (sortsTo_half irrefl x _) length (length_half _ y) (length_half _ x)
      (length_half _ x) (forall_half follows)
    rw [← half_succ, Nat.add_assoc, ← length_singleton (a := y), ← length_append] at node
    refine ⟨l ++ half (t + rest.length) y, node, ?_, ?_, fun z member => ?_⟩
    · rw [length_append, length_half, length, length_append, ← Nat.add_assoc, length_singleton,
        Nat.pow_succ]
      omega
    · obtain ⟨z, front⟩ : ∃ z, (rest ++ [y]).head? = some z := by
        cases rest <;> exact ⟨_, rfl⟩
      rw [head?_append, head, front, Option.some_or, head?_append, front, Option.some_or]
    · refine mem_append_left [x] ((mem_append.mp member).elim (members z) (fun run => ?_))
      exact eq_of_mem_replicate run ▸ mem_append_right rest mem_cons_self

/-- Two chains whose far ends belong in the other order make a list whose halves the sort exchanges. -/
theorem exists_exchanged {a b : α} {before after : List α} (first : (b :: after).IsChain (Follows lt))
    (second : (before ++ [a]).IsChain (Follows lt)) (less : lt a b = true)
    : ∃ xs ys, sortBy lt (xs ++ ys) = ys ++ xs ∧ xs.getLast? = (b :: after).getLast?
      ∧ ys.head? = (before ++ [a]).head? ∧ (∀ z ∈ xs, z ∈ b :: after) ∧ ∀ z ∈ ys, z ∈ before ++ [a] := by
  obtain ⟨l, sorts, length, last, members⟩ := exists_kept_from irrefl first before.length
  obtain ⟨l', sorts', length', head, members'⟩ := exists_kept_to irrefl second after.length
  rw [Nat.add_comm] at sorts' length'
  generalize before.length + after.length = t at sorts sorts' length length'
  have left := (sortsTo_half irrefl b t).keeps sorts (length_half t b) (length_half t b) (length_half t b)
    length (forall_half (irrefl b))
  have right := sorts'.keeps (sortsTo_half irrefl a t) length' (length_half t a) (length_half t a)
    (length_half t a) (forall_half (irrefl a))
  have node := left.exchanges right (h := 10 * 2 ^ t + 10 * 2 ^ t) (u := b) (v := a)
    (by rw [length_append, length_half]) (by rw [length_append, length_half, length])
    (by rw [length_append, length_half, length']) (by rw [length_append, length_half])
    (by rw [head?_append, head?_half, Option.some_or])
    (by rw [getLast?_append, getLast?_half, Option.some_or]) less
    (by rw [← half_succ, ← half_succ]; exact forall_half less)
  refine ⟨_, _, node.eq, ?_, ?_, fun z member => ?_, fun z member => ?_⟩
  · rw [← append_assoc, getLast?_append, last, getLast?_cons, Option.some_or]
  · obtain ⟨z, start⟩ : ∃ z, (before ++ [a]).head? = some z := by
      cases before <;> exact ⟨_, rfl⟩
    rw [append_assoc, head?_append, head, start, Option.some_or]
  · simp only [mem_append, ← or_assoc, or_self] at member
    exact member.elim (fun run => eq_of_mem_replicate run ▸ mem_cons_self) (members z)
  · simp only [mem_append, or_assoc, or_self] at member
    exact member.elim (members' z) (fun run => eq_of_mem_replicate run ▸ mem_append_right _ mem_cons_self)

end Chains

theorem exists_chain {x y : α} (leads : Leads lt x y)
    : ∃ rest, (x :: rest).IsChain (Follows lt) ∧ (x :: rest).getLast? = some y := by
  obtain ⟨rest, chain, last⟩ := exists_isChain_cons_of_relationReflTransGen leads
  exact ⟨rest, chain, last ▸ getLast?_eq_some_getLast _⟩

/-- A way to an element that meets it only at its end. -/
theorem exists_chain_first {x y : α} (leads : Leads lt x y)
    : ∃ l, (l ++ [y]).IsChain (Follows lt) ∧ (l ++ [y]).head? = some x ∧ y ∉ l := by
  induction leads using Relation.ReflTransGen.head_induction_on with
  | refl => exact ⟨[], .singleton y, rfl, not_mem_nil⟩
  | @head x z follows _ ih =>
    obtain ⟨l, chain, head, fresh⟩ := ih
    by_cases same : y = x
    · subst same
      exact ⟨[], .singleton y, rfl, not_mem_nil⟩
    · refine ⟨x :: l, isChain_cons.mpr ⟨fun w next => ?_, chain⟩, rfl, ?_⟩
      · have first : w ∈ (l ++ [y]).head? := next
        rw [head] at first
        cases first
        exact follows
      · exact fun member => (mem_cons.mp member).elim same fresh

/-- Lists whose filtered concatenations agree begin with the same element, where one has only that element. -/
theorem eq_of_filter_append_comm {p : α → Bool} {u v : α}
    (comm : (ys ++ xs).filter p = (xs ++ ys).filter p) (good : p u = true) (good' : p v = true)
    (only : ∀ z, p z = true → z = u ∨ z = v) (member : u ∈ xs) (head : ys.head? = some v)
    (fresh : v ∉ xs)
    : u = v := by
  obtain ⟨rest, rfl⟩ := head?_eq_some_iff.mp head
  have kept : u ∈ xs.filter p := mem_filter.mpr ⟨member, good⟩
  obtain ⟨w, more, first⟩ := exists_cons_of_ne_nil (ne_nil_of_mem kept)
  obtain ⟨within, fine⟩ := mem_filter.mp (first ▸ mem_cons_self : w ∈ xs.filter p)
  rw [filter_append, filter_append, filter_cons_of_pos good', first] at comm
  have same : v = w := (List.cons.inj comm).1
  exact ((only w fine).resolve_right (fun eq => fresh (eq ▸ within))).symm.trans same.symm

section Characterisations

variable (asymm : ∀ x y, lt x y = true → lt y x = false)

include asymm

theorem irrefl_of_asymm (x : α) : lt x x = false := by
  by_contra self
  have less : lt x x = true := by simpa using self
  rw [asymm x x less] at less
  cases less

/-- Two ways, one up to an element and one from another, make the sort change the order of the two. -/
theorem not_stable_of_chains {p : α → Bool} {u v a b : α} {first second : List α} (other : u ≠ v)
    (good : p u = true) (good' : p v = true) (only : ∀ z, p z = true → z = u ∨ z = v)
    (chain : first.IsChain (Follows lt)) (start : first.head? = some b) (last : first.getLast? = some u)
    (chain' : second.IsChain (Follows lt)) (head : second.head? = some v) (final : second.getLast? = some a)
    (less : lt a b = true) (apart : v ∉ first ∨ u ∉ second)
    : ∃ l, (sortBy lt l).filter p ≠ l.filter p := by
  obtain ⟨after, rfl⟩ := head?_eq_some_iff.mp start
  obtain ⟨before, rfl⟩ := getLast?_eq_some_iff.mp final
  obtain ⟨xs, ys, sorted, last', head', members, members'⟩ :=
    exists_exchanged (irrefl_of_asymm asymm) chain chain' less
  refine ⟨xs ++ ys, fun comm => other ?_⟩
  rw [sorted] at comm
  rw [last] at last'
  rw [head] at head'
  obtain fresh | fresh := apart
  · exact eq_of_filter_append_comm comm good good' only (mem_of_getLast? last') head'
      (fun member => fresh (members v member))
  · -- read from the end, the two lists change places
    have back : (xs.reverse ++ ys.reverse).filter p = (ys.reverse ++ xs.reverse).filter p := by
      rw [← reverse_append, ← reverse_append, filter_reverse, filter_reverse, comm]
    refine (eq_of_filter_append_comm back good' good (fun z fine => (only z fine).symm) ?_ ?_ ?_).symm
    · exact mem_reverse.mpr (mem_of_head? head')
    · rw [head?_reverse, last']
    · exact fun member => fresh (members' u (mem_reverse.mp member))

/-- The sort puts certain pairs in order in every list exactly when nothing leads the other way. -/
theorem sortBy_ordered_iff {Ordered : α → α → Prop} (less : ∀ x y, Ordered x y → lt x y = true)
    : (∀ l, (sortBy lt l).Pairwise (fun x y => ¬ Ordered y x)) ↔ ∀ x y, Ordered x y → ¬ Leads lt y x := by
  have irrefl := irrefl_of_asymm asymm
  constructor
  · intro ordered x y before leads
    obtain ⟨rest, chain, last⟩ := exists_chain leads
    obtain ⟨start, same⟩ := getLast?_eq_some_iff.mp last
    obtain ⟨xs, ys, sorted, lastLeft, headRight, _, _⟩ :=
      exists_exchanged irrefl chain (same ▸ chain) (less x y before)
    have all := ordered (xs ++ ys)
    rw [sorted] at all
    have late : x ∈ xs := mem_of_getLast? (lastLeft.trans last)
    have early : y ∈ ys := mem_of_head? (headRight.trans (same ▸ rfl))
    exact (pairwise_append.mp all).2.2 y early x late before
  · intro apart l
    have chain := (sortBy_arranges lt l).chain asymm
    exact (leads_of_chain chain).imp (fun leads before => apart _ _ before leads)

/-- The sort keeps the order of equal elements in every list exactly when none overtakes another. -/
theorem sortBy_stable_iff {Equal : α → α → Prop} (symm : ∀ x y, Equal x y → Equal y x)
    (self : ∀ x y, Equal x y → Equal x x)
    : (∀ (l : List α) (p : α → Bool), (∀ x y, p x = true → p y = true → Equal x y)
        → (sortBy lt l).filter p = l.filter p)
      ↔ ∀ x y, Equal x y → x ≠ y → ¬ Overtakes lt y x := by
  constructor
  · rintro stable x y equal other ⟨a, b, toFirst, less, toSecond⟩
    classical
    let p : α → Bool := fun z => decide (z = x ∨ z = y)
    have only (z : α) (good : p z = true) : z = x ∨ z = y := of_decide_eq_true good
    have goodLeft : p x = true := decide_eq_true (.inl rfl)
    have goodRight : p y = true := decide_eq_true (.inr rfl)
    have keeps (l : List α) : (sortBy lt l).filter p = l.filter p := by
      refine stable l p (fun u v good good' => ?_)
      have back := symm x y equal
      obtain rfl | rfl := only u good
      · obtain rfl | rfl := only v good'
        · exact self _ _ equal
        · exact equal
      · obtain rfl | rfl := only v good'
        · exact back
        · exact self _ _ back
    obtain ⟨late, chain, head, fresh⟩ := exists_chain_first toSecond
    obtain ⟨rest, chain', last⟩ := exists_chain toFirst
    have final : (late ++ [x]).getLast? = some x := getLast?_concat
    have unstable (apart : y ∉ late ++ [x] ∨ x ∉ y :: rest) : False := by
      obtain ⟨l, differs⟩ := not_stable_of_chains asymm other goodLeft goodRight only
        chain head final chain' rfl last less apart
      exact differs (keeps l)
    by_cases meets : y ∈ late ++ [x]
    · by_cases meets' : x ∈ y :: rest
      · -- each way meets the other element: the first is cut after it, the second before it
        have within : y ∈ late := (mem_append.mp meets).resolve_right
          (fun member => other (mem_singleton.mp member).symm)
        obtain ⟨early, tail, rfl⟩ := append_of_mem within
        obtain ⟨lead, ahead, cut⟩ := append_of_mem meets'
        have left : (early ++ [y]).IsChain (Follows lt) := by
          have whole : ((early ++ [y]) ++ (tail ++ [x])).IsChain (Follows lt) := by simpa using chain
          exact whole.left_of_append
        have right : (x :: ahead).IsChain (Follows lt) := (cut ▸ chain').right_of_append
        have headLeft : (early ++ [y]).head? = some b := by
          cases early <;> simpa using head
        have lastRight : (x :: ahead).getLast? = some a := by
          rw [cut, getLast?_append] at last
          simpa using last
        have fresh' : x ∉ early ++ [y] := by
          intro member
          rcases mem_append.mp member with member | member
          · exact fresh (mem_append_left _ member)
          · exact other (mem_singleton.mp member)
        obtain ⟨l, differs⟩ := not_stable_of_chains asymm (Ne.symm other) goodRight goodLeft
          (fun z fine => (only z fine).symm) left headLeft getLast?_concat right rfl lastRight less
          (.inl fresh')
        exact differs (keeps l)
      · exact unstable (.inr meets')
    · exact unstable (.inl meets)
  · intro apart l p equal
    exact (sortBy_arranges lt l).filter asymm
      (fun u v good good' other => apart u v (equal u v good good') other)

end Characterisations

end Kv.StableSort

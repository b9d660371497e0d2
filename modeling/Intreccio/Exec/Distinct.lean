import Mathlib
import Intreccio.Exec.Denotation
import Intreccio.Foundation.Firsts
import Intreccio.Foundation.Joined

/-! DISTINCT (`project.next` and `rowKey` in `internal/exec/exec.go`).
Rows are told apart by the texts of their columns, joined with blanks. A text does not show what type a value
has, and a blank in it looks like the end of the column. So rows with different values can have the same text.
-/

namespace Intreccio.Exec

open Kv Words Ast Plan List

/-- The rows that DISTINCT keeps. -/
def distinctRows (items : List ProjItem) (l : List Row) : List Row := distinctFrom true (rowKey · items) [] l

/-- The values of the columns. -/
def valuesIn (items : List ProjItem) (r : Row) : List Val := items.map (fun it => cell r it.column)

/-- All columns have the same values. -/
def Identical (items : List ProjItem) (r r' : Row) : Prop := ∀ it ∈ items, cell r it.column = cell r' it.column

/-- Some column has values that the query equality finds different. -/
def Differ (items : List ProjItem) (r r' : Row) : Prop :=
  ∃ it ∈ items, equality (cell r it.column) (cell r' it.column) = some false

/-- Of identical rows only the first one stays, and no row is dropped that differs from every row that is
kept.
-/
structure MergesEqual (items : List ProjItem) (l : List Row) : Prop where
  identical
    : ∀ before r after, l = before ++ r :: after → (∃ r' ∈ before, Identical items r r')
      → distinctRows items (before ++ [r]) = distinctRows items before
  dropped
    : ∀ before r after, l = before ++ r :: after
      → distinctRows items (before ++ [r]) = distinctRows items before
      → ∃ kept ∈ distinctRows items l, ¬ Differ items r kept

/-- The byte between the texts of two columns. -/
def blank : UInt8 := 32

/-- The values that have a text of their own among themselves. -/
def Rigid : Val → Prop
  | .null | .bool _ | .int _ => True
  | _ => False

section

variable {v w : Val}

theorem lit_injective {a b : String} (same : lit a = lit b) : a = b :=
  String.toByteArray_inj.mp (ByteArray.ext (Array.toList_inj.mp same))

/-- The text of an integer starts with a digit or a minus sign. -/
theorem text_ne_word {i : Int} {c : Char} {l : List Char} (letter : c.isDigit = false) (sign : c ≠ '-')
    : toString i ≠ String.ofList (c :: l) := by
  intro same
  have chars := congrArg String.toList same
  rw [Int.toString_eq_repr, Int.repr_eq_if, String.toList_ofList] at chars
  split at chars
  · rw [Nat.toList_repr] at chars
    have digit := Nat.isDigit_of_mem_toDigits (by decide) (by decide) (chars ▸ List.mem_cons_self)
    rw [letter] at digit
    cases digit
  · rw [String.toList_append] at chars
    exact sign (List.cons.inj chars).1.symm

theorem text_ne_bool {i : Int} {b : Bool} : toString i ≠ toString b := by
  cases b with
  | true => exact text_ne_word (c := 't') (l := ['r', 'u', 'e']) rfl (by decide)
  | false => exact text_ne_word (c := 'f') (l := ['a', 'l', 's', 'e']) rfl (by decide)

/-- Nulls, booleans and integers print alike only if they are the same, by cases. -/
theorem eq_of_sprint (rigid : Rigid v) (rigid' : Rigid w) (same : sprint v = sprint w) : v = w := by
  have nil (i : Int) : toString i ≠ "<nil>" := text_ne_word (c := '<') (l := ['n', 'i', 'l', '>']) rfl (by decide)
  cases v with
  | null =>
    cases w with
    | null => rfl
    | bool b => cases b <;> exact absurd same (by decide)
    | int i => exact absurd (lit_injective same).symm (nil _)
    | _ => exact rigid'.elim
  | bool b =>
    cases w with
    | null => cases b <;> exact absurd same (by decide)
    | bool b' => cases b <;> cases b' <;> first | rfl | exact absurd same (by decide)
    | int i => exact absurd (lit_injective same).symm text_ne_bool
    | _ => exact rigid'.elim
  | int i =>
    cases w with
    | null => exact absurd (lit_injective same) (nil _)
    | bool b => exact absurd (lit_injective same) text_ne_bool
    | int j => rw [Int64.toInt_inj.mp (Int.repr_injective (lit_injective same))]
    | _ => exact rigid'.elim
  | _ => exact rigid.elim

end

section

variable {items : List ProjItem} {l : List Row} {r : Row}

theorem spaced_eq (l : List Str) : spaced l = joinedBy blank l := by
  fun_induction spaced l with
  | case1 | case2 => rfl
  | case3 s rest more ih =>
    rw [ih, joinedBy_cons (fun none' => more (by simp [none']) ), append_assoc]
    rfl

theorem sprintItems_eq (l : List Val) : sprintItems l = l.map sprint := by
  induction l with
  | nil => rfl
  | cons v rest ih => rw [sprintItems, map_cons, ih]

/-- Rows have one text exactly when their columns collide. -/
theorem rowKey_eq_iff {r' : Row}
    : rowKey r items = rowKey r' items ↔ Collide sprint blank (valuesIn items r) (valuesIn items r') := by
  rw [← joinedBy_eq_iff (by simp [valuesIn]), ← spaced_eq, ← spaced_eq, ← sprintItems_eq, ← sprintItems_eq]
  change lit "[" ++ spaced _ ++ lit "]" = lit "[" ++ spaced _ ++ lit "]" ↔ _
  rw [append_left_inj, append_right_inj]
  rfl

theorem distinctFrom_true (key : Row → Str) (seen : List Str) (l : List Row)
    : distinctFrom true key seen l = firsts key seen l := by
  induction l generalizing seen with
  | nil => rfl
  | cons b rest ih => by_cases known : key b ∈ seen <;> simp [distinctFrom, firsts, known, ih]

theorem distinctRows_eq (items : List ProjItem) (l : List Row)
    : distinctRows items l = firsts (rowKey · items) [] l :=
  distinctFrom_true _ _ _

/-- A row stays unless an earlier one has its text. -/
theorem distinctRows_snoc
    : distinctRows items (l ++ [r])
      = distinctRows items l ++ if rowKey r items ∈ l.map (rowKey · items) then [] else [r] := by
  rw [distinctRows_eq, distinctRows_eq, firsts_snoc]
  simp

theorem dropped_iff
    : distinctRows items (l ++ [r]) = distinctRows items l ↔ ∃ r' ∈ l, rowKey r' items = rowKey r items := by
  rw [distinctRows_snoc, ← mem_map]
  split
  next known => simp [known]
  next fresh => simp [fresh]

theorem exists_kept (member : r ∈ l) : ∃ kept ∈ distinctRows items l, rowKey kept items = rowKey r items := by
  rw [distinctRows_eq]
  exact (exists_first _ [] member).resolve_left not_mem_nil

theorem distinctRows_sub (member : r ∈ distinctRows items l) : r ∈ l := by
  rw [distinctRows_eq] at member
  exact (firsts_sublist _ _ _).subset member

theorem Identical.rowKey {r' : Row} (same : Identical items r r') : rowKey r items = Exec.rowKey r' items := by
  rw [Exec.rowKey, Exec.rowKey, map_congr_left same]

/-- DISTINCT is right on all lists of rows from a set exactly when no two rows of the set differ and collide in
their texts. In a column where they do not overhang each other their values are then the same, or one of them
is neither a null nor a boolean nor an integer.
-/
theorem mergesEqual_iff_collide (items : List ProjItem) (S : Set Row)
    : ((∀ l, (∀ r ∈ l, r ∈ S) → MergesEqual items l)
        ↔ ∀ r ∈ S, ∀ r' ∈ S, Differ items r r' → ¬ Collide sprint blank (valuesIn items r) (valuesIn items r'))
      ∧ ∀ v w, sprint v = sprint w → v = w ∨ ¬ Rigid v ∨ ¬ Rigid w := by
  refine ⟨⟨?_, ?_⟩, fun v w same => ?_⟩
  · intro right r inside r' inside' differ collide
    -- the second of two rows with one text is dropped, and only the first one is kept
    have merges := right [r', r] (by simp [inside, inside'])
    have gone : distinctRows items ([r'] ++ [r]) = distinctRows items [r'] :=
      dropped_iff.mpr ⟨r', List.mem_singleton.mpr rfl, (rowKey_eq_iff.mpr collide).symm⟩
    obtain ⟨kept, member, agrees⟩ := merges.dropped [r'] r [] rfl gone
    rw [show [r', r] = [r'] ++ [r] from rfl, gone] at member
    obtain rfl : kept = r' := List.mem_singleton.mp member
    exact agrees differ
  · intro told l inside
    refine ⟨?_, ?_⟩
    · rintro before r after rfl ⟨r', member, same⟩
      exact dropped_iff.mpr ⟨r', member, same.rowKey.symm⟩
    · rintro before r after rfl gone
      have here : r ∈ before ++ r :: after := List.mem_append_right _ List.mem_cons_self
      obtain ⟨kept, found, same⟩ := exists_kept here
      exact ⟨kept, found, fun differ => told r (inside r here) kept (inside kept (distinctRows_sub found)) differ
        (rowKey_eq_iff.mp same.symm)⟩
  · by_cases rigid : Rigid v ∧ Rigid w
    · exact .inl (eq_of_sprint rigid.1 rigid.2 same)
    · exact .inr (not_and_or.mp rigid)

end

/-- The projection of one variable. -/
def columnX : List ProjItem := [⟨.var (lit "x"), lit "x"⟩]

/-- The integer 1 and the string `1` have the same text. -/
theorem not_mergesEqual_string : ¬ ∀ items l, MergesEqual items l := by
  intro always
  have gone
      : distinctRows columnX ([rowX (.int 1)] ++ [rowX (.str (lit "1"))])
        = distinctRows columnX [rowX (.int 1)] :=
    dropped_iff.mpr ⟨_, List.mem_singleton.mpr rfl, by decide⟩
  obtain ⟨kept, member, agrees⟩ :=
    (always columnX [rowX (.int 1), rowX (.str (lit "1"))]).dropped _ _ [] rfl gone
  rw [show [rowX (.int 1), rowX (.str (lit "1"))] = [rowX (.int 1)] ++ [rowX (.str (lit "1"))] from rfl, gone]
    at member
  obtain rfl : kept = rowX (.int 1) := List.mem_singleton.mp member
  exact agrees ⟨_, List.mem_singleton.mpr rfl, by decide⟩

end Intreccio.Exec

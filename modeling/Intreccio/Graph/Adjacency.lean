import Intreccio.Graph.EntryRemoval
import Intreccio.Graph.ShortestPaths

/-! What the adjacency keys of a node list, when they agree with the records of the relationships. -/

namespace Intreccio.Graph

open Kv Kv.Program Words Codec List

/-- The adjacency keys are those of the recorded relationships. -/
structure Adjacent (s : Store) : Prop where
  keyed : WellKeyed s
  outs
    : ∀ e src t dst, cell s (.out src t dst e) ≠ none
        ↔ ∃ r, edgeAt s e = some r ∧ r.src = src ∧ r.type = t ∧ r.dst = dst
  ins
    : ∀ e dst t src, cell s (.inn dst t src e) ≠ none
        ↔ ∃ r, edgeAt s e = some r ∧ r.src = src ∧ r.type = t ∧ r.dst = dst

theorem Consistent.adjacent {cov : Coverage} {s : Store} (consistent : Consistent cov s) : Adjacent s :=
  ⟨consistent.nodes.keyed, fun e => (consistent.edges e).outs, fun e => (consistent.edges e).ins⟩

/-- The reference is that of a recorded relationship. -/
def OnRecord (s : Store) (ref : EdgeRef) : Prop :=
  ∃ r, edgeAt s ref.id = some r ∧ r.src = ref.src ∧ r.type = ref.type ∧ r.dst = ref.dst

/-- Whether the scan for type `t` lists a relationship of the type: 0 stands for every type. -/
def typeMatches (t type : UInt32) : Bool := t = 0 || type = t

section

variable {s : Store} {types : List UInt32} {ends : EdgeRef → Prop} {refs : List EdgeRef} {ref ref' : EdgeRef}

theorem OnRecord.unique (left : OnRecord s ref) (right : OnRecord s ref') (same : ref.id = ref'.id)
    : ref = ref' := by
  obtain ⟨r, found, src, type, dst⟩ := left
  obtain ⟨r', found', src', type', dst'⟩ := right
  obtain rfl : r = r' := Option.some.inj (found.symm.trans (same ▸ found'))
  cases ref
  cases ref'
  simp_all

/-- The list holds the relationships with the given ends, each once for every type of the list that
matches.
-/
structure Scanned (s : Store) (types : List UInt32) (ends : EdgeRef → Prop) (refs : List EdgeRef) : Prop where
  sound : ∀ ref ∈ refs, OnRecord s ref ∧ ends ref
  count : ∀ ref, OnRecord s ref → ends ref → refs.count ref = types.countP (typeMatches · ref.type)

theorem Scanned.mem (scanned : Scanned s types ends refs)
    : ref ∈ refs ↔ OnRecord s ref ∧ ends ref ∧ ∃ t ∈ types, typeMatches t ref.type = true := by
  constructor
  · intro member
    obtain ⟨recorded, here⟩ := scanned.sound ref member
    have found := count_pos_iff.mpr member
    rw [scanned.count ref recorded here] at found
    exact ⟨recorded, here, countP_pos_iff.mp found⟩
  · rintro ⟨recorded, here, matched⟩
    rw [← count_pos_iff, scanned.count ref recorded here]
    exact countP_pos_iff.mpr matched

theorem Scanned.count_eq [DecidablePred ends] (scanned : Scanned s types ends refs) (recorded : OnRecord s ref)
    : refs.count ref = if ends ref then types.countP (typeMatches · ref.type) else 0 := by
  by_cases here : ends ref
  · rw [if_pos here, scanned.count ref recorded here]
  · rw [if_neg here, count_eq_zero]
    exact fun member => here (scanned.sound ref member).2

theorem Scanned.nil (s : Store) (types : List UInt32) : Scanned s types (fun _ => False) [] :=
  ⟨fun _ member => absurd member not_mem_nil, fun _ _ never => never.elim⟩

theorem run_scanTypes {edges : UInt32 → Txn (List EdgeRef)}
    (each : ∀ t, ∃ refs, (edges t).run s = (.ok refs, s) ∧ refs.Nodup
      ∧ ∀ ref, ref ∈ refs ↔ ends ref ∧ typeMatches t ref.type = true ∧ OnRecord s ref)
    (types : List UInt32)
    : ∃ refs, (scanTypes edges types).run s = (.ok refs, s) ∧ Scanned s types ends refs := by
  induction types with
  | nil => exact ⟨[], rfl, fun _ member => absurd member not_mem_nil, fun _ _ _ => rfl⟩
  | cons t rest ih =>
    obtain ⟨here, ran, once, members⟩ := each t
    obtain ⟨more, ranMore, sound, count⟩ := ih
    refine ⟨here ++ more, ?_, fun ref member => ?_, fun ref recorded meets => ?_⟩
    · rw [scanTypes, bind_eq, run_bind_of_ok ran, bind_eq, run_bind_of_ok ranMore]
      rfl
    · obtain first | later := mem_append.mp member
      · exact ⟨((members ref).mp first).2.2, ((members ref).mp first).1⟩
      · exact sound ref later
    · rw [List.count_append, count ref recorded meets, countP_cons, Nat.add_comm]
      congr 1
      by_cases matched : typeMatches t ref.type = true
      · rw [if_pos matched]
        exact count_eq_one_of_mem once ((members ref).mpr ⟨meets, matched, recorded⟩)
      · rw [if_neg matched]
        exact count_eq_zero.mpr fun member => matched ((members ref).mp member).2.1

theorem typeMatches_iff {t type : UInt32} : typeMatches t type = true ↔ t = 0 ∨ type = t := by
  simp [typeMatches]

theorem Adjacent.run_outScan (adjacent : Adjacent s) (n : UInt64) (types : List UInt32)
    : ∃ refs, (scanTypes (outEdges n) types).run s = (.ok refs, s)
      ∧ Scanned s types (fun ref => ref.src = n) refs := by
  refine run_scanTypes (fun t => ?_) types
  obtain ⟨refs, ran, once, members⟩ := run_outEdges adjacent.keyed n t
  refine ⟨refs, ran, once, fun ref => (members ref).trans (and_congr_right ?_)⟩
  rintro rfl
  rw [typeMatches_iff, adjacent.outs, OnRecord]

theorem Adjacent.run_inScan (adjacent : Adjacent s) (n : UInt64) (types : List UInt32)
    : ∃ refs, (scanTypes (inEdges n) types).run s = (.ok refs, s)
      ∧ Scanned s types (fun ref => ref.dst = n) refs := by
  refine run_scanTypes (fun t => ?_) types
  obtain ⟨refs, ran, once, members⟩ := run_inEdges adjacent.keyed n t
  refine ⟨refs, ran, once, fun ref => (members ref).trans (and_congr_right ?_)⟩
  rintro rfl
  rw [typeMatches_iff, adjacent.ins, OnRecord]

theorem run_scanIf {p : Txn (List EdgeRef)} (on : Prop) [Decidable on]
    (scan : ∃ refs, p.run s = (.ok refs, s) ∧ Scanned s types ends refs)
    : ∃ refs, (if on then p else (pure [] : Txn (List EdgeRef))).run s = (.ok refs, s)
      ∧ Scanned s types (fun ref => on ∧ ends ref) refs := by
  by_cases open' : on
  · obtain ⟨refs, ran, scanned⟩ := scan
    exact ⟨refs, by rw [if_pos open', ran], by simpa [open'] using scanned⟩
  · exact ⟨[], by rw [if_neg open']; rfl, by simpa [open'] using Scanned.nil s types⟩

end

end Intreccio.Graph

import Intreccio.Foundation.Optimistic
import Intreccio.Graph.Identifiers
import Intreccio.Graph.Invariants

/-! Concurrent transactions over an optimistic engine (`internal/storage/badger/badger.go`).
The engine validates the keys a transaction looked up or was handed, and not what its scans did not
find. An ID is taken and a value is claimed by looking up the key that is then written, so concurrent
transactions cannot disagree about either. The deletion of a node and the creation of an index rely
on what a scan did not find, and are right where the ranges they scan were quiet.
-/

namespace Intreccio.Graph

open Kv Kv.Program Words Codec List

abbrev Commits := List (Commit Bytes Bytes Script (List Outcome))

/-- The operations of the transactions, in the order in which these commit. -/
def committed : Commits → History
  | [] => []
  | c :: before => committed before ++ steps c.txn c.result

/-- The transactions consist of such operations. -/
def Consist (allowed : Op → Prop) (commits : Commits) : Prop :=
  ∀ c ∈ commits, ∀ e ∈ c.txn, allowed e.1

/-- The interleavings that the engine allows. -/
abbrev Concurrent (initial : Store) (commits : Commits) : Prop :=
  Interleaved script (fun _ _ _ => True) initial commits

variable {initial s s' : Store} {commits : Commits} {history : History} {allowed : Op → Prop}
  {rule : ScanRule Bytes Bytes} {meets : Script → Trace Bytes Bytes → Commits → Prop}

/-- A transaction whose operations keep a law, each with a new ID, keeps it, whatever the rule for
its scans.
-/
theorem script_laws (allowed : Op → Prop) {Q : History → Store → Prop} {body : Script} {outcomes : List Outcome}
    (keeps : ∀ history s op o r s', allowed op → Tallied history s → Fresh s r → Q history s
      → (op.run o).Exec rule s (.ok r) s' → Q (history ++ [(op, r)]) s')
    (permitted : ∀ e ∈ body, allowed e.1) (before : Few history → Tallied history s ∧ Q history s)
    (ran : (script body).Exec rule s (.ok outcomes) s') (few : Few (history ++ steps body outcomes))
    : Tallied (history ++ steps body outcomes) s' ∧ Q (history ++ steps body outcomes) s' := by
  refine (exec_script (P := fun rest history s =>
    (Few history → Tallied history s ∧ Q history s) ∧ ∀ e ∈ rest, allowed e.1)
    ⟨before, permitted⟩ ?_ ran).1 few
  rintro op o rest history s r mid ⟨held, permitted⟩ first
  refine ⟨fun few => ?_, fun e member => permitted e (mem_cons_of_mem _ member)⟩
  obtain ⟨tallied, holds⟩ := held few.before
  have advance := advance_run first
  exact ⟨tallied.step advance, keeps history s op o r mid (permitted (op, o) mem_cons_self) tallied
    (tallied.fresh advance few) holds first⟩

/-- What an operation with a new ID keeps under loose scans, holds after all commits. -/
theorem interleaved_laws {Q : History → Store → Prop} (tallied : Tallied history initial)
    (holds : Q history initial)
    (keeps : ∀ history s op o r s', allowed op → Tallied history s → Fresh s r → Q history s
      → (op.run o).Exec .loose s (.ok r) s' → Q (history ++ [(op, r)]) s')
    (interleaved : Interleaved script meets initial commits) (consist : Consist allowed commits)
    (few : Few (history ++ committed commits))
    : Tallied (history ++ committed commits) (settled initial commits)
      ∧ Q (history ++ committed commits) (settled initial commits) := by
  refine interleaved.rule (P := fun commits => Consist allowed commits → Few (history ++ committed commits)
    → Tallied (history ++ committed commits) (settled initial commits)
      ∧ Q (history ++ committed commits) (settled initial commits)) ?_ ?_ consist few
  · intro _ _
    simpa [committed, settled] using And.intro tallied holds
  · intro c before ih ran _ consist few
    rw [committed, ← append_assoc] at few ⊢
    exact script_laws allowed keeps (consist c mem_cons_self)
      (ih (fun c' member => consist c' (mem_cons_of_mem c member))) ran few

/-- Whatever the transactions do and however they interleave, a name keeps its ID. By the invariant
rule, each operation extending the dictionaries.
-/
theorem names_of_interleaved {before : Commits} {d : Dict} {name : Str} {id : UInt32}
    (interleaved : Interleaved script meets initial commits) (earlier : before <:+ commits)
    (known : idOf (settled initial before) d name = some id)
    : idOf (settled initial commits) d name = some id := by
  refine interleaved.rule (P := fun commits => before <:+ commits
    → idOf (settled initial commits) d name = some id) ?_ ?_ earlier
  · intro suffix
    rwa [suffix_nil.mp suffix] at known
  · intro c rest ih ran _ suffix
    rcases suffix_cons_iff.mp suffix with rfl | earlier
    · exact known
    · exact exec_script (h := []) (P := fun _ _ s => idOf s d name = some id) (ih earlier)
        (fun _ _ _ _ _ _ _ held first => (advance_run first).keeps d name id held) ran

/-- The mutations: whatever neither makes nor drops an index or a constraint. -/
def Op.Mutation : Op → Prop
  | .deleteNode _ | .detachDeleteNode _ => True
  | op => op.KeepsNodes

variable {cov : Coverage} {op : Op} {o : MapOrder} {r : Outcome}

/-- A mutation respects the laws that skip null. -/
theorem Op.Mutation.respects (mutation : op.Mutation) : op.Respects .present s := by
  cases op <;> first | exact trivial | exact .inr rfl | exact mutation.elim

/-- The laws of nodes do not depend on the relationships. -/
theorem nodeLaws_deleteEdge {e : UInt64} {u : Unit} (laws : NodeLaws cov s)
    (ran : (deleteEdge o e).Exec rule s (.ok u) s')
    : NodeLaws cov s' :=
  laws.changeEdge ((within_deleteEdge o e).framed ran).ofEdge

/-- The laws of nodes do not depend on what the scans answer. -/
theorem nodeLaws_run (laws : NodeLaws cov s) (mutation : op.Mutation) (respects : op.Respects cov s)
    (fresh : Fresh s r) (ran : (op.run o).Exec rule s (.ok r) s')
    : NodeLaws cov s' := by
  cases op with
  | createNode labels props =>
    obtain ⟨n, rfl, created⟩ := exec_made.mp ran
    exact (nodeLaws_createNode laws props.property (fresh.node n rfl) created).1
  | createEdge typ src dst props =>
    obtain ⟨e, rfl, created⟩ := exec_made.mp ran
    exact laws.changeEdge (framed_createEdge created)
  | setProperty n key value =>
    exact (nodeLaws_setProperty laws value.property respects (exec_done.mp ran).2).1
  | removeProperty n key => exact (nodeLaws_removeProperty laws (exec_done.mp ran).2).1
  | setNodeProperties n props replace =>
    exact (nodeLaws_setNodeProperties laws props.property (exec_done.mp ran).2).1
  | addLabels n labels => exact (nodeLaws_addLabels laws (exec_done.mp ran).2).1
  | removeLabels n labels => exact (nodeLaws_removeLabels laws (exec_done.mp ran).2).1
  | deleteEdge e => exact nodeLaws_deleteEdge laws (exec_done.mp ran).2
  | deleteNode n => exact nodeLaws_deleteNode laws (exec_done.mp ran).2
  | detachDeleteNode n =>
    obtain ⟨_, _, mid, _, _, _, _, _, _, detached, deleted⟩ := exec_detachDeleteNode (exec_done.mp ran).2
    refine nodeLaws_deleteNode (exec_each_invariant (fun _ t => NodeLaws cov t) ?_ laws detached) deleted
    rintro ⟨e, i⟩ rest mid after _ before step
    exact nodeLaws_deleteEdge before step
  | _ => exact False.elim mutation

/-- A mutation leaves the registered constraints alone. By the frame of each operation. -/
theorem constraint_run {l k : UInt32} (mutation : op.Mutation) (ran : (op.run o).Exec rule s (.ok r) s')
    : cell s' (.constraint l k) = cell s (.constraint l k) := by
  cases op with
  | createNode labels props =>
    obtain ⟨n, rfl, created⟩ := exec_made.mp ran
    exact (framed_createNode created).frame _ (by simp [NodeOrCatalog, NodeKey, CatalogKey])
  | createEdge typ src dst props =>
    obtain ⟨e, rfl, created⟩ := exec_made.mp ran
    exact (framed_createEdge created).frame _ (by simp [EdgeOrCatalog, OfEdge, CatalogKey])
  | setProperty n key value =>
    exact ((within_setProperty n key _).framed (exec_done.mp ran).2).frame _ (by simp [NodeOrDict, NodeKey, DictKey])
  | removeProperty n key => exact ((within_removeProperty n key).framed (exec_done.mp ran).2).frame _ id
  | setNodeProperties n props replace =>
    exact ((within_setNodeProperties o n _ replace).framed (exec_done.mp ran).2).frame _
      (by simp [NodeOrDict, NodeKey, DictKey])
  | addLabels n labels =>
    exact ((within_addLabels o n labels).framed (exec_done.mp ran).2).frame _ (by simp [NodeOrDict, NodeKey, DictKey])
  | removeLabels n labels => exact ((within_removeLabels o n labels).framed (exec_done.mp ran).2).frame _ id
  | deleteEdge e => exact ((within_deleteEdge o e).framed (exec_done.mp ran).2).frame _ id
  | deleteNode n => exact ((within_deleteNode o n).framed (exec_done.mp ran).2).frame _ id
  | detachDeleteNode n =>
    obtain ⟨_, _, mid, _, _, o₃, _, _, _, detached, deleted⟩ := exec_detachDeleteNode (exec_done.mp ran).2
    have gone : cell s' (.constraint l k) = cell mid (.constraint l k) :=
      ((within_deleteNode o₃ n).framed deleted).frame _ id
    refine gone.trans (exec_each_invariant
      (fun _ t => cell t (.constraint l k) = cell s (.constraint l k)) ?_ rfl detached)
    rintro ⟨e, i⟩ rest mid after _ before step
    exact (((within_deleteEdge _ e).framed step).frame _ id).trans before
  | _ => exact False.elim mutation

/-- Claims and IDs are safe. However concurrent mutations interleave, as long as at most `2 ^ 64` nodes
and as many relationships are created: under a constraint registered before them no two nodes hold
values with one canonical form, no ID is handed out twice, names and IDs correspond one to one, and a
name keeps its ID.
-/
theorem claims_safe_of_interleaved {l k : UInt32} (reached : Reached (Op.Respects .present) history initial)
    (constrained : Constrained initial l k) (interleaved : Concurrent initial commits)
    (consist : Consist Op.Mutation commits) (few : Few (history ++ committed commits))
    : (∀ m n a b d, Carries (settled initial commits) m l k a → Carries (settled initial commits) n l k b
        → uniqueValue a = some d → uniqueValue b = some d → m = n)
      ∧ (nodesMade (history ++ committed commits)).Nodup ∧ (edgesMade (history ++ committed commits)).Nodup
      ∧ (∀ d, Dictionary (settled initial commits) d)
      ∧ ∀ before, before <:+ commits → ∀ d name id, idOf (settled initial before) d name = some id
        → idOf (settled initial commits) d name = some id := by
  obtain ⟨tallied, consistent⟩ := reached.sound (fun _ _ respects => respects) few.before
  obtain ⟨tallied, laws, constrained⟩ :=
    interleaved_laws (Q := fun _ s => NodeLaws .present s ∧ Constrained s l k) tallied
      ⟨consistent.nodes, constrained⟩
      (fun _ _ _ _ _ _ mutation _ fresh held ran =>
        ⟨nodeLaws_run held.1 mutation mutation.respects fresh ran,
          by rw [Constrained, constraint_run mutation ran]; exact held.2⟩) interleaved consist few
  exact ⟨fun m n a b d left right => laws.unique constrained left right,
    tallied.nodeIDs.nodup few.nodes, tallied.edgeIDs.nodup few.edges, tallied.ordered,
    fun before earlier d name id => names_of_interleaved interleaved earlier⟩

/-- The commit of a transaction that read the store. -/
def commitOn (s : Store) (txn : Script) (result : List Outcome) : Commit Bytes Bytes Script (List Outcome) :=
  ⟨txn, result, ((script txn).trace s []).writes⟩

/-- A node is created, and then a transaction that had not seen it removes a property. -/
def raced : Commits :=
  [commitOn founded [(.removeProperty 1 (lit "k"), steady)] [.done],
    commitOn founded [(bareNode, steady)] [.node 2]]

theorem concurrent_raced : Concurrent founded raced := by
  have first : Concurrent founded ([commitOn founded [(bareNode, steady)] [.node 2]] ++ []) :=
    .commit (show Concurrent founded ([] ++ []) from .start) (Prod.ext (by decide +kernel) rfl) (by simp) trivial
  exact .commit first (Prod.ext (by decide +kernel) rfl) (by decide +kernel) trivial

theorem consist_raced : Consist Op.Mutation raced := by
  simp [Consist, raced, commitOn, bareNode, Op.Mutation, Op.KeepsNodes]

theorem constrained_founded : Constrained founded 1 1 := by
  rw [Constrained]
  decide +kernel

theorem guarded_founding_present : Guarded (Op.Respects .present) .empty founding :=
  ⟨trivial, fun _ _ _ => ⟨trivial, fun _ _ _ => trivial⟩⟩

theorem claims_safe_raced : (nodesMade (steps founding [.done, .node 1] ++ committed raced)).Nodup :=
  (claims_safe_of_interleaved (reached_founded guarded_founding_present) constrained_founded concurrent_raced
    consist_raced ⟨by decide +kernel, by decide +kernel⟩).2.1

/-- Any number of transactions can each commit a bare node. By induction, each on the newest store. -/
theorem exists_bareNodes {c : UInt64} (counter : cell initial (.counter .node) = some (uint64Bytes c))
    (count : Nat)
    : ∃ commits c', Concurrent initial commits ∧ Consist Op.Mutation commits
      ∧ (nodesMade (committed commits)).length = count
      ∧ cell (settled initial commits) (.counter .node) = some (uint64Bytes c') := by
  induction count with
  | zero => exact ⟨[], c, .start, nofun, rfl, counter⟩
  | succ count ih =>
    obtain ⟨commits, c', interleaved, consist, made, counter⟩ := ih
    obtain ⟨s', ran, next, -⟩ := run_bareNode counter
    have wrote : settled initial (commitOn (settled initial commits) [(bareNode, steady)]
        [.node (c' + 1)] :: commits) = s' := by
      have again : (script [(bareNode, steady)]).run ((settled initial commits).overwrite []) = _ :=
        run_trace [] (fun _ _ => rfl) (fun _ _ _ _ => rfl)
      rw [OrderedMap.overwrite_nil, ran] at again
      exact (congrArg Prod.snd again).symm
    refine ⟨commitOn (settled initial commits) [(bareNode, steady)] [.node (c' + 1)] :: commits, c' + 1,
      .commit (show Concurrent initial ([] ++ commits) from interleaved) ran nofun trivial, ?_, ?_,
      by rw [wrote, next]⟩
    · exact forall_mem_cons.mpr ⟨by simp [commitOn, bareNode, Op.Mutation, Op.KeepsNodes], consist⟩
    · simpa [committed, commitOn, nodesMade, steps, Outcome.nodes] using made

/-- Without the bound an ID is handed out twice.
Witness: one creation more than there are IDs.
-/
theorem not_claims_safe_of_interleaved
    : ¬ ∀ history initial commits, Reached (Op.Respects .present) history initial → Constrained initial 1 1
      → Concurrent initial commits → Consist Op.Mutation commits
      → (nodesMade (history ++ committed commits)).Nodup := by
  intro always
  obtain ⟨commits, _, interleaved, consist, made, _⟩ :=
    exists_bareNodes (show cell founded (.counter .node) = some (uint64Bytes 1) by decide +kernel) (2 ^ 64)
  have distinct := always _ _ _ (reached_founded guarded_founding_present) constrained_founded interleaved consist
  have few := length_le_of_nodup distinct
  simp only [nodesMade, flatMap_append, length_append] at few
  rw [← nodesMade, ← nodesMade, made] at few
  have first : (nodesMade (steps founding [.done, .node 1])).length = 1 := rfl
  omega

/-- A transaction that deletes a node, or makes or drops an index, commits only where no transaction
that committed since its snapshot wrote inside a range it scanned. The engine does not see to this.
-/
def ScansHold (body : Script) (t : Trace Bytes Bytes) (since : Commits) : Prop :=
  (∃ e ∈ body, ¬ e.1.KeepsNodes) → Quiet t since

/-- Where the scans hold, the laws do. A transaction of mutations that keep the nodes needs only its
lookups; any other did what it does on the newest store.
-/
theorem consistent_of_scansHold (tallied : Tallied history initial) (consistent : Consistent cov initial)
    (respects : ∀ s op, allowed op → op.Respects cov s)
    (interleaved : Interleaved script ScansHold initial commits) (consist : Consist allowed commits)
    (few : Few (history ++ committed commits))
    : Consistent cov (settled initial commits) := by
  refine (interleaved.rule (P := fun commits => Consist allowed commits → Few (history ++ committed commits)
    → Tallied (history ++ committed commits) (settled initial commits)
      ∧ Consistent cov (settled initial commits)) ?_ ?_ consist few).2
  · intro _ _
    simpa [committed, settled] using And.intro tallied consistent
  · rintro c before ih loose ⟨t, since, holds, exactly⟩ consist few
    rw [committed, ← append_assoc] at few ⊢
    have permitted := consist c mem_cons_self
    have earlier := ih (fun c' member => consist c' (mem_cons_of_mem c member))
    by_cases keeps : ∀ e ∈ c.txn, e.1.KeepsNodes
    · exact script_laws (fun op => allowed op ∧ op.KeepsNodes) (Q := fun _ => Consistent cov)
        (fun _ s op _ _ _ held _ fresh consistent ran =>
          consistent_mutation consistent held.2 (respects s op held.1) fresh ran)
        (fun e member => ⟨permitted e member, keeps e member⟩) earlier loose few
    · push Not at keeps
      exact script_laws allowed (Q := fun _ => Consistent cov)
        (fun _ s op _ _ _ held _ fresh consistent ran => consistent_run consistent (respects s op held) fresh ran)
        permitted earlier (exactly (holds keeps)) few

/-- No relationship dangles: the ends of every edge record exist, and every `o` and `i` key refers to
nodes and to an edge that exist.
-/
structure NoDangling (s : Store) : Prop where
  ends
    : ∀ e b, s.get (edgeKey e) = some b
        → ∃ r, decodeEdge b = .ok r ∧ s.get (nodeKey r.src) ≠ none ∧ s.get (nodeKey r.dst) ≠ none
  outs
    : ∀ key, Stored s KeyOut key → ∃ src t dst e, key = outKey src t dst e
        ∧ s.get (nodeKey src) ≠ none ∧ s.get (nodeKey dst) ≠ none ∧ s.get (edgeKey e) ≠ none
  ins
    : ∀ key, Stored s KeyIn key → ∃ dst t src e, key = inKey dst t src e
        ∧ s.get (nodeKey src) ≠ none ∧ s.get (nodeKey dst) ≠ none ∧ s.get (edgeKey e) ≠ none

theorem Consistent.noDangling (consistent : Consistent cov s) : NoDangling s := by
  have present {e : UInt64} {r : EdgeRecord} (found : edgeAt s e = some r) : s.get (edgeKey e) ≠ none := by
    obtain ⟨b, held, _⟩ := decoded_iff.mp found
    rw [Key.edgeKey_eq, ← cell, held]
    exact Option.some_ne_none b
  refine ⟨fun e b held => ?_, fun key stored => ?_, fun key stored => ?_⟩
  · obtain ⟨r, decoded⟩ := (consistent.edges e).readable b held
    exact ⟨r, decoded, (consistent.edges e).ends r (decoded_iff.mpr ⟨b, held, decoded⟩)⟩
  · obtain ⟨e, r, found, rfl⟩ := consistent.stored_out.mp stored
    exact ⟨_, _, _, e, rfl, ((consistent.edges e).ends r found).1, ((consistent.edges e).ends r found).2,
      present found⟩
  · obtain ⟨e, r, found, rfl⟩ := consistent.stored_in.mp stored
    exact ⟨_, _, _, e, rfl, ((consistent.edges e).ends r found).1, ((consistent.edges e).ends r found).2,
      present found⟩

/-- No relationship dangles, however mutations interleave, if a transaction that deletes a node commits
only where the ranges it scanned were quiet, and at most `2 ^ 64` nodes and as many relationships are
created.
-/
theorem noDangling_of_interleaved (interleaved : Interleaved script ScansHold .empty commits)
    (consist : Consist Op.Mutation commits) (few : Few (committed commits))
    : NoDangling (settled .empty commits) :=
  (consistent_of_scansHold (show Tallied [] .empty from .empty) (.empty .present)
    (fun _ _ (mutation : Op.Mutation _) => mutation.respects) interleaved consist few).noDangling

/-- Two nodes. -/
def pair : Commits := [commitOn .empty [(bareNode, steady), (bareNode, steady)] [.node 1, .node 2]]

theorem interleaved_pair (met : meets [(bareNode, steady), (bareNode, steady)]
      ((script [(bareNode, steady), (bareNode, steady)]).trace .empty []) [])
    : Interleaved script meets .empty pair :=
  .commit (show Interleaved script meets .empty ([] ++ []) from .start) (Prod.ext (by decide +kernel) rfl)
    nofun met

/-- A third node is created while the first is deleted. -/
def thirdNode : Commits :=
  [commitOn (settled .empty pair) [(.deleteNode 1, steady)] [.done],
    commitOn (settled .empty pair) [(bareNode, steady)] [.node 3]] ++ pair

theorem noDangling_apart : NoDangling (settled .empty thirdNode) := by
  have created : Interleaved script ScansHold .empty
      ([commitOn (settled .empty pair) [(bareNode, steady)] [.node 3]] ++ pair) :=
    .commit (show Interleaved script ScansHold .empty ([] ++ pair) from interleaved_pair fun _ => nofun)
      (Prod.ext (by decide +kernel) rfl) nofun (fun _ => nofun)
  have deleted : Interleaved script ScansHold .empty thirdNode :=
    .commit created (Prod.ext (by decide +kernel) rfl) (by decide +kernel) (fun _ => by unfold Quiet; decide +kernel)
  refine noDangling_of_interleaved deleted ?_ ⟨by decide +kernel, by decide +kernel⟩
  simp [Consist, thirdNode, pair, commitOn, bareNode, Op.Mutation, Op.KeepsNodes]

/-- A relationship from the first node to the second is created while the first node is deleted. -/
def skewed : Commits :=
  [commitOn (settled .empty pair) [(.deleteNode 1, steady)] [.done],
    commitOn (settled .empty pair) [(.createEdge (lit "T") 1 2 noProps, steady)] [.edge 1]] ++ pair

/-- The engine lets a relationship dangle: the deletion looked up no key that the creation writes. -/
theorem not_noDangling_of_interleaved
    : ¬ ∀ commits, Concurrent .empty commits → Consist Op.Mutation commits → Few (committed commits)
      → NoDangling (settled .empty commits) := by
  intro always
  have created : Concurrent .empty
      ([commitOn (settled .empty pair) [(.createEdge (lit "T") 1 2 noProps, steady)] [.edge 1]] ++ pair) :=
    .commit (show Concurrent .empty ([] ++ pair) from interleaved_pair trivial) (Prod.ext (by decide +kernel) rfl)
      nofun trivial
  have deleted : Concurrent .empty skewed :=
    .commit created (Prod.ext (by decide +kernel) rfl) (by decide +kernel) trivial
  have consist : Consist Op.Mutation skewed := by
    simp [Consist, skewed, pair, commitOn, bareNode, Op.Mutation, Op.KeepsNodes]
  have sound := always skewed deleted consist ⟨by decide +kernel, by decide +kernel⟩
  have stored : Stored (settled .empty skewed) KeyOut (outKey 1 1 2 1) := ⟨by decide +kernel, rfl⟩
  obtain ⟨src, t, dst, e, same, source, _⟩ := sound.outs _ stored
  rw [Key.outKey_eq, Key.outKey_eq, Key.bytes_inj, Key.out.injEq] at same
  rw [← same.1] at source
  exact source (by decide +kernel)

/-- The writers and the creation of indexes and constraints, with no property set to null. -/
def Op.Enters : Op → Prop
  | .setProperty _ _ value => isNull (normalize value.val) = false
  | .buildIndex .. | .buildRelIndex .. | .addUniqueConstraint .. => True
  | op => op.KeepsNodes

theorem Op.Enters.respects (op : Op) (enters : op.Enters) : op.Respects .all s := by
  cases op <;> first | exact trivial | exact .inl enters | exact enters.elim

/-- Indexes and constraints created beside writers are exact, if a transaction that creates one commits
only where the ranges it scanned were quiet, no property is set to null, and at most `2 ^ 64` nodes and
as many relationships are created.
-/
theorem entries_exact_of_interleaved (reached : Reached (Op.Respects .all) history initial)
    (interleaved : Interleaved script ScansHold initial commits) (consist : Consist Op.Enters commits)
    (few : Few (history ++ committed commits))
    : IndexConsistent (settled initial commits) ∧ UniqueOwnership (settled initial commits) := by
  obtain ⟨tallied, consistent⟩ := reached.sound (fun _ _ respects => respects) few.before
  have kept := consistent_of_scansHold tallied consistent (fun _ => Op.Enters.respects) interleaved consist few
  exact ⟨kept.index, kept.nodes.ownership⟩

/-- A node with the label and the value. -/
def member (value : Int64) : Script := [(.createNode [lit "A"] (oneProp (lit "k") ⟨.int value, rfl⟩), steady)]

def inhabited : Store := ((script (member 5)).run .empty).2

theorem reached_inhabited : Reached (Op.Respects .all) (steps (member 5) [.node 1]) inhabited := by
  have ran : (script (member 5)).run .empty = (.ok [.node 1], inhabited) := rfl
  have guarded : Guarded (Op.Respects .all) .empty (member 5) := ⟨trivial, fun _ _ _ => trivial⟩
  exact .commit .empty guarded ran

/-- While an index is built, another transaction creates a node. -/
def backfilled (beside : Script) : Commits :=
  [commitOn inhabited [(.buildIndex 1 1 [], steady)] [.done], commitOn inhabited beside [.node 2]]

theorem entries_exact_backfilled : IndexConsistent (settled inhabited (backfilled [(bareNode, steady)])) := by
  have created : Interleaved script ScansHold inhabited ([commitOn inhabited [(bareNode, steady)] [.node 2]] ++ []) :=
    .commit (show Interleaved script ScansHold inhabited ([] ++ []) from .start)
      (Prod.ext (by decide +kernel) rfl) nofun (fun _ => nofun)
  have built : Interleaved script ScansHold inhabited (backfilled [(bareNode, steady)]) :=
    .commit created (Prod.ext (by decide +kernel) rfl) (by decide +kernel) (fun _ => by unfold Quiet; decide +kernel)
  refine (entries_exact_of_interleaved reached_inhabited built ?_ ⟨by decide +kernel, by decide +kernel⟩).1
  simp [Consist, backfilled, commitOn, bareNode, Op.Enters, Op.KeepsNodes]

/-- The engine lets an entry go missing: the writer sees no index to enter the node in, and the
backfill no node to enter.
-/
theorem not_entries_exact_of_interleaved
    : ¬ ∀ history initial commits, Reached (Op.Respects .all) history initial → Concurrent initial commits
      → Consist Op.Enters commits → Few (history ++ committed commits)
      → IndexConsistent (settled initial commits) := by
  intro always
  have created : Concurrent inhabited ([commitOn inhabited (member 6) [.node 2]] ++ []) :=
    .commit (show Concurrent inhabited ([] ++ []) from .start) (Prod.ext (by decide +kernel) rfl) nofun trivial
  have built : Concurrent inhabited (backfilled (member 6)) :=
    .commit created (Prod.ext (by decide +kernel) rfl) (by decide +kernel) trivial
  have consist : Consist Op.Enters (backfilled (member 6)) := by
    simp [Consist, backfilled, commitOn, member, Op.Enters, Op.KeepsNodes]
  have index := always _ _ _ reached_inhabited built consist ⟨by decide +kernel, by decide +kernel⟩
  have implied := (index.props (Key.prop 1 1 (.int 6) 2).bytes).mpr
    ⟨1, 1, 2, ⟨[1], .set .empty 1 (.int 6)⟩, .int 6, by decide +kernel, rfl, by simp,
      rfl, rfl, Key.propKey_eq 1 1 (.int 6) 2⟩
  exact implied.1 (by decide +kernel)

/-- The store is in order and holds the graph of the history. -/
def Replays (history : History) (s : Store) : Prop :=
  Consistent .present s ∧ ∃ g, PropertyGraph.replay history = some g ∧ Simulates s g

theorem Replays.mutation (replays : Replays history s) (tallied : Tallied history s) (plain : op.Plain)
    (keeps : op.KeepsNodes) (fresh : Fresh s r) (ran : (op.run o).Exec rule s (.ok r) s')
    : Replays (history ++ [(op, r)]) s' := by
  obtain ⟨consistent, g, replayed, simulates⟩ := replays
  obtain ⟨g', applied, moved⟩ := simulates_mutation consistent tallied.ordered simulates plain keeps fresh ran
  refine ⟨consistent_mutation consistent keeps (Op.Plain.respects s op plain) fresh ran, g', ?_, moved⟩
  rw [PropertyGraph.replay_append, replayed]
  simp [applied]

/-- Concurrent transactions that delete no node are serializable: the reads give the graph that their
operations make one after another, in the order of the commits.
-/
theorem refines_of_interleaved (interleaved : Concurrent .empty commits)
    (consist : Consist (fun op => op.Plain ∧ op.KeepsNodes) commits) (few : Few (committed commits))
    : ∃ g, PropertyGraph.replay (committed commits) = some g ∧ Exposes (settled .empty commits) g := by
  obtain ⟨tallied, consistent, g, replayed, simulates⟩ :=
    interleaved_laws (Q := Replays) .empty ⟨.empty _, .empty, rfl, .empty⟩
      (fun _ _ _ _ _ _ allowed tallied fresh replays ran =>
        replays.mutation tallied allowed.1 allowed.2 fresh ran) interleaved consist few
  exact ⟨g, replayed, simulates.exposes consistent tallied.ordered⟩

theorem refines_bareNode
    : ∃ g, PropertyGraph.replay [(bareNode, .node 1)] = some g
      ∧ Exposes (settled .empty [commitOn .empty [(bareNode, steady)] [.node 1]]) g := by
  have alone : Concurrent .empty [commitOn .empty [(bareNode, steady)] [.node 1]] :=
    .commit (show Concurrent .empty ([] ++ []) from .start) (Prod.ext (by decide +kernel) rfl) nofun trivial
  refine refines_of_interleaved alone ?_ ⟨by decide, by decide⟩
  simp only [Consist, commitOn, mem_singleton, forall_eq]
  exact ⟨by rintro _ _ ⟨⟩, trivial⟩

end Intreccio.Graph

import Intreccio.Cluster.Protocol

/-! Linearizable reads (`DB.Query` with `Linearizable()`, `forwardService.Query`): a voter that leads
serves the read after a barrier, and every other node forwards it to a voter that does the same.
`DB.Query` asks twice whether its node leads, first to decide whether to forward and then whether to
take the barrier, so a leader deposed in between reads its own store without one.
-/

namespace Intreccio.Cluster

open Kv Words List

/-- Where a read stands. `acked` lists the entries acknowledged before the read started. -/
inductive ReadCall (ι : Type) where
  | idle
  | routing (i : ι) (acked : List Nat)
  | stays (i : ι) (acked : List Nat)
  | forwarded (acked : List Nat)
  | serving (i : ι) (acked : List Nat)
  | fencing (i : ι) (acked : List Nat)
  | barrier (i : ι) (since upTo : Nat) (acked : List Nat)
  | reading (i : ι) (acked : List Nat)
  | rows (seen : Nat) (store : Store) (acked : List Nat)

variable {ι : Type} [DecidableEq ι] {engine : Engine}

/-- One step of a read or of the cluster around it. `lapse` says whether the second leadership check
of `DB.Query` may fail after the first one held.
-/
inductive ReadStep (engine : Engine) (lapse : Prop)
    : World ι × ReadCall ι → World ι × ReadCall ι → Prop
  | cluster {w w' : World ι} {r : ReadCall ι} (next : Step engine (fun _ => True) w w')
      : ReadStep engine lapse (w, r) (w', r)
  | startOnVoter {w : World ι} (i : ι)
      : ReadStep engine lapse (w, .idle) (w, .routing i w.acked)
  | startOnClient {w : World ι} : ReadStep engine lapse (w, .idle) (w, .forwarded w.acked)
  -- The first check of `DB.Query`: forward unless the node leads.
  | stay {w : World ι} {i : ι} {acked : List Nat} (leader : (w.nodes i).leader = true)
      : ReadStep engine lapse (w, .routing i acked) (w, .stays i acked)
  | forward {w : World ι} {i : ι} {acked : List Nat} (follower : (w.nodes i).leader = false)
      : ReadStep engine lapse (w, .routing i acked) (w, .forwarded acked)
  -- The second check of `DB.Query`: take the barrier if the node leads.
  | fence {w : World ι} {i : ι} {acked : List Nat} (leader : (w.nodes i).leader = true)
      : ReadStep engine lapse (w, .stays i acked) (w, .fencing i acked)
  | unfenced {w : World ι} {i : ι} {acked : List Nat} (follower : (w.nodes i).leader = false)
      (possible : lapse)
      : ReadStep engine lapse (w, .stays i acked) (w, .reading i acked)
  -- A forwarded request reaches some voter, directly or through another one.
  | deliver {w : World ι} {acked : List Nat} (i : ι)
      : ReadStep engine lapse (w, .forwarded acked) (w, .serving i acked)
  | proxy {w : World ι} {i : ι} {acked : List Nat} (follower : (w.nodes i).leader = false)
      : ReadStep engine lapse (w, .serving i acked) (w, .forwarded acked)
  | serve {w : World ι} {i : ι} {acked : List Nat} (leader : (w.nodes i).leader = true)
      : ReadStep engine lapse (w, .serving i acked) (w, .fencing i acked)
  -- Raft processes the barrier, which returns once the node has applied what was before it.
  | barrier {w : World ι} {i : ι} {acked : List Nat} (leader : (w.nodes i).leader = true)
      : ReadStep engine lapse (w, .fencing i acked)
          (w, .barrier i (w.nodes i).term w.log.length acked)
  | passed {w : World ι} {i : ι} {since upTo : Nat} {acked : List Nat}
      (leader : (w.nodes i).leader = true) (same : (w.nodes i).term = since)
      (caught : upTo ≤ (w.nodes i).applied)
      : ReadStep engine lapse (w, .barrier i since upTo acked) (w, .reading i acked)
  | view {w : World ι} {i : ι} {acked : List Nat}
      : ReadStep engine lapse (w, .reading i acked)
          (w, .rows (w.nodes i).applied (w.store engine i) acked)
  -- A lost message, a failed barrier or a timeout: the request is sent again.
  | retry {w : World ι} {i : ι} {acked : List Nat} {r : ReadCall ι}
      (attempt : r = .serving i acked ∨ r = .fencing i acked ∨ (∃ since upTo, r = .barrier i since upTo acked)
        ∨ r = .reading i acked)
      : ReadStep engine lapse (w, r) (w, .forwarded acked)
  | fail {w : World ι} {r : ReadCall ι} : ReadStep engine lapse (w, r) (w, .idle)

inductive ReadReached (engine : Engine) (lapse : Prop) : World ι × ReadCall ι → Prop
  | new : ReadReached engine lapse (.new, .idle)
  | step {x y : World ι × ReadCall ι} (before : ReadReached engine lapse x)
      (next : ReadStep engine lapse x y)
      : ReadReached engine lapse y

/-- Rows are computed on a state of the log that holds every write acknowledged before the read. -/
def NotStale (engine : Engine) (w : World ι) : ReadCall ι → Prop
  | .rows seen store acked =>
    store = stateAt engine w.writeSets seen ∧ ∀ index ∈ acked, index < seen
  | _ => True

/-- What a step of the cluster keeps: the log grows at its end, and so does what a node applied. -/
structure Grows (w w' : World ι) : Prop where
  log : w.log <+: w'.log
  applied : ∀ i, (w.nodes i).applied ≤ (w'.nodes i).applied

/-- Nothing is applied or acknowledged that is not in the log. -/
structure Grounded (w : World ι) : Prop where
  applied : ∀ i, (w.nodes i).applied ≤ w.log.length
  acked : ∀ index ∈ w.acked, index < w.log.length

theorem Grows.put (w : World ι) {i : ι} {n : Node} (more : (w.nodes i).applied ≤ n.applied)
    : Grows w (w.put i n) := by
  refine ⟨prefix_rfl, fun j => ?_⟩
  by_cases same : j = i
  · subst same
    simpa using more
  · simp [World.put, same]

variable {w w' : World ι}

theorem Step.grows {allowed : Node → Prop} (next : Step engine allowed w w') : Grows w w' := by
  cases next with
  | apply i behind => exact .put w (Nat.le_succ _)
  | elect i newest =>
    obtain ⟨log, applied⟩ := Grows.put w (i := i) (n := { w.nodes i with leader := true }) le_rfl
    exact ⟨log, applied⟩
  | append i at_ leader newest permitted =>
    obtain ⟨-, applied⟩ := Grows.put w (i := i)
      (n := { w.nodes i with call := .proposed w.log.length (w.nodes i).term }) le_rfl
    exact ⟨prefix_append _ _, applied⟩
  | acknowledge i at_ applied =>
    obtain ⟨log, applied⟩ := Grows.put w (i := i) (n := { w.nodes i with call := .idle }) le_rfl
    exact ⟨log, applied⟩
  | _ => exact .put w le_rfl

theorem Grounded.put {w : World ι} {n : Node} (grounded : Grounded w) (i : ι)
    (inside : n.applied ≤ w.log.length)
    : Grounded (w.put i n) := by
  refine ⟨fun j => ?_, grounded.acked⟩
  by_cases same : j = i
  · subst same
    simpa using inside
  · simpa [World.put, same] using grounded.applied j

theorem Grounded.step {allowed : Node → Prop} (grounded : Grounded w) (next : Step engine allowed w w')
    : Grounded w' := by
  have kept (i : ι) := grounded.applied i
  cases next with
  | apply i behind => exact grounded.put i behind
  | elect i newest =>
    obtain ⟨applied, acked⟩ := grounded.put i (n := { w.nodes i with leader := true }) (kept i)
    exact ⟨applied, acked⟩
  | append i at_ leader newest permitted =>
    obtain ⟨applied, acked⟩ := grounded.put i
      (n := { w.nodes i with call := .proposed w.log.length (w.nodes i).term }) (kept i)
    refine ⟨fun j => (applied j).trans (by simp [World.put]), fun index member => ?_⟩
    exact (acked index member).trans (by simp [World.put])
  | acknowledge i at_ applied =>
    obtain ⟨below, acked⟩ := grounded.put i (n := { w.nodes i with call := .idle }) (kept i)
    refine ⟨below, fun index member => ?_⟩
    rcases mem_cons.mp member with rfl | member
    · exact applied.trans_le (kept i)
    · exact acked index member
  | _ => exact grounded.put _ (kept _)

/-- What a read may rely on where it stands. -/
def ReadLaw (engine : Engine) (w : World ι) : ReadCall ι → Prop
  | .idle => True
  | .routing _ acked | .stays _ acked | .forwarded acked | .serving _ acked | .fencing _ acked =>
    ∀ index ∈ acked, index < w.log.length
  | .barrier _ _ upTo acked => ∀ index ∈ acked, index < upTo ∧ index < w.log.length
  | .reading i acked => ∀ index ∈ acked, index < (w.nodes i).applied ∧ index < w.log.length
  | .rows seen store acked => seen ≤ w.log.length
      ∧ store = stateAt engine w.writeSets seen ∧ ∀ index ∈ acked, index < seen

omit [DecidableEq ι] in
theorem ReadLaw.grows {r : ReadCall ι} (law : ReadLaw engine w r) (grows : Grows w w')
    : ReadLaw engine w' r := by
  have longer : w.log.length ≤ w'.log.length := grows.log.length_le
  cases r with
  | idle => trivial
  | routing _ acked => exact fun index member => (law index member).trans_le longer
  | stays _ acked => exact fun index member => (law index member).trans_le longer
  | forwarded acked => exact fun index member => (law index member).trans_le longer
  | serving _ acked => exact fun index member => (law index member).trans_le longer
  | fencing _ acked => exact fun index member => (law index member).trans_le longer
  | barrier _ _ upTo acked =>
    exact fun index member => ⟨(law index member).1, (law index member).2.trans_le longer⟩
  | reading i acked =>
    exact fun index member => ⟨(law index member).1.trans_le (grows.applied i),
      (law index member).2.trans_le longer⟩
  | rows seen store acked =>
    obtain ⟨inside, same, fresh⟩ := law
    refine ⟨inside.trans longer, ?_, fresh⟩
    obtain ⟨more, appended⟩ := grows.log
    rw [same, World.writeSets, World.writeSets, ← appended, map_append,
      stateAt_append (by simpa using inside)]

/-- A step of a read whose two leadership checks agree. -/
theorem ReadLaw.step {r r' : ReadCall ι} (law : ReadLaw engine w r) (grounded : Grounded w)
    (next : ReadStep engine False (w, r) (w', r'))
    : ReadLaw engine w' r' := by
  cases next with
  | cluster next => exact law.grows next.grows
  | startOnVoter i => exact grounded.acked
  | startOnClient => exact grounded.acked
  | stay leader => exact law
  | forward follower => exact law
  | fence leader => exact law
  | unfenced follower possible => exact possible.elim
  | deliver i => exact law
  | proxy follower => exact law
  | serve leader => exact law
  | barrier leader => exact fun index member => ⟨law index member, law index member⟩
  | passed leader same caught =>
    exact fun index member => ⟨(law index member).1.trans_le caught, (law index member).2⟩
  | @view _ i _ => exact ⟨grounded.applied i, rfl, fun index member => (law index member).1⟩
  | retry attempt =>
    rcases attempt with rfl | rfl | ⟨since, upTo, rfl⟩ | rfl
    · exact law
    · exact law
    · exact fun index member => (law index member).2
    · exact fun index member => (law index member).2
  | fail => trivial

/-- If no leader is deposed between the two checks of `DB.Query`, no linearizable read is stale. -/
theorem notStale_of_reached {w : World ι} {r : ReadCall ι}
    (reached : ReadReached engine False (w, r))
    : NotStale engine w r := by
  have law : Grounded w ∧ ReadLaw engine w r := by
    generalize state : (w, r) = x at reached
    induction reached generalizing w r with
    | new =>
      obtain ⟨rfl, rfl⟩ := Prod.mk.inj state
      exact ⟨⟨by simp [World.new], by simp [World.new]⟩, trivial⟩
    | @step x y before next ih =>
      obtain ⟨w₀, r₀⟩ := x
      obtain ⟨grounded, law⟩ := ih rfl
      subst state
      refine ⟨?_, law.step grounded next⟩
      cases next with
      | cluster next => exact grounded.step next
      | _ => exact grounded
  cases r with
  | rows seen store acked => exact law.2.2
  | _ => trivial

/-- The cluster moves while no read is under way. -/
theorem ReadReached.ofReached (lapse : Prop) {w : World ι}
    (reached : Reached engine (fun _ => True) w)
    : ReadReached engine lapse (w, .idle) := by
  induction reached with
  | new => exact .new
  | step before next ih => exact ih.step (.cluster next)

/-- One node's write is acknowledged, and the other wins the next term without having applied it. -/
theorem reached_lagging
    : ∃ w : World Bool, Reached lenientEngine (fun _ => True) w ∧ w.acked = [0]
      ∧ w.log.length = 1 ∧ w.nodes false = ⟨2, true, 0, 0, .idle⟩ := by
  have start : Reached lenientEngine (fun _ => True) (.new : World Bool) := .new
  have r1 := reached_staged start true 1 1 rfl (by decide) (by decide) (by decide) le_rfl
  have r2 := r1.step (.append true rfl rfl rfl trivial)
  have r3 := r2.step (.apply true (by decide))
  have r4 := r3.step (.acknowledge true rfl (by decide))
  have r5 := r4.step (.raise false 2 (by decide))
  have r6 := r5.step (.elect false (by decide))
  exact ⟨_, r6, rfl, rfl, rfl⟩

/-- A leader that has not applied an acknowledged write is deposed between its two checks, and
answers from its own store.
-/
theorem not_notStale_of_reached
    : ∃ (w : World Bool) (r : ReadCall Bool), ReadReached lenientEngine True (w, r)
      ∧ ¬ NotStale lenientEngine w r := by
  obtain ⟨w, reached, acked, -, node⟩ := reached_lagging
  have r1 := (ReadReached.ofReached True reached).step (.startOnVoter false)
  have r2 := r1.step (.stay (by rw [node]))
  have r3 := r2.step (.cluster (.stepDown false))
  have r4 := r3.step (.unfenced (by simp) trivial)
  have r5 := r4.step .view
  refine ⟨_, _, r5, fun fresh => ?_⟩
  have behind := fresh.2 0 (by simp [acked])
  simp [node] at behind

/-- A read forwarded to that leader waits for its state machine and sees the write. -/
theorem notStale_forwarded
    : ∃ (w : World Bool) (store : Store), ReadReached lenientEngine False (w, .rows 1 store [0])
      ∧ NotStale lenientEngine w (.rows 1 store [0]) := by
  obtain ⟨w, reached, acked, length, node⟩ := reached_lagging
  have r1 := (ReadReached.ofReached False reached).step .startOnClient
  have r2 := r1.step (.deliver false)
  have r3 := r2.step (.serve (by rw [node]))
  have r4 := r3.step (.barrier (by rw [node]))
  have r5 := r4.step (.cluster (.apply false (by rw [node, length]; decide)))
  have r6 := r5.step (.passed (by simp [node]) (by simp) (by simp [node, length]))
  have r7 := r6.step .view
  simp only [World.put_self, node, acked] at r7
  exact ⟨_, _, r7, notStale_of_reached r7⟩

end Intreccio.Cluster

import Intreccio.Catalog.Registries
import Intreccio.Cluster.WriteSet
import Mathlib.Logic.Function.Basic

/-! Recovery of a replica (`cluster/fsm.go`, `Store.Backup` and `Store.Load`, and the start of a
node). The store is durable while Raft replays from the newest snapshot or from the first entry,
so entries are applied again over later states. Every entry's effects are absolute, and what a
replica still has to apply brings it to the same state from wherever it stands. Badger's own calls are
a parameter: only what they do when they succeed is assumed, and a failed or interrupted restore may
leave anything.
-/

namespace Intreccio.Cluster

open Kv Words List OrderedMap

def replay (engine : Engine) (log : List Bytes) (s : Store) : Store := log.foldl (fsmApply engine) s

def initial : Store := (Catalog.ensureFormat.run .empty).2

def stateAt (engine : Engine) (log : List Bytes) (j : Nat) : Store :=
  replay engine (log.take j) initial

variable {engine : Engine} {log : List Bytes} {k : Bytes} {s : Store} {p : Nat}

theorem replay_append (engine : Engine) (log more : List Bytes) (s : Store)
    : replay engine (log ++ more) s = replay engine more (replay engine log s) :=
  foldl_append

theorem replay_take_drop (engine : Engine) (log : List Bytes) (j : Nat) (s : Store)
    : replay engine (log.drop j) (replay engine (log.take j) s) = replay engine log s := by
  rw [← replay_append, take_append_drop]

theorem stateAt_length (engine : Engine) (log : List Bytes)
    : stateAt engine log log.length = replay engine log initial := by
  rw [stateAt, take_length]

/-- A log makes the same writes on every store. -/
theorem replay_eq (engine : Engine) (log : List Bytes) (s : Store)
    : replay engine log s = s.overwrite (log.flatMap (effects engine)) := by
  induction log generalizing s with
  | nil => rfl
  | cons data rest ih =>
    calc replay engine (data :: rest) s
        = replay engine rest (fsmApply engine s data) := rfl
      _ = (s.overwrite (effects engine data)).overwrite (rest.flatMap (effects engine)) := by
          rw [ih, fsmApply_eq]
      _ = s.overwrite ((data :: rest).flatMap (effects engine)) := by
          rw [flatMap_cons, overwrite_append]

def touched (engine : Engine) (log : List Bytes) : List Bytes := written (log.flatMap (effects engine))

theorem get_replay (s : Store) (absent : k ∉ touched engine log) : (replay engine log s).get k = s.get k := by
  rw [replay_eq]
  exact get_overwrite_of_notMem absent

theorem replay_congr {t : Store} (agree : ∀ k, k ∉ touched engine log → s.get k = t.get k)
    : replay engine log s = replay engine log t := by
  rw [replay_eq, replay_eq]
  exact overwrite_congr agree

theorem touched_drop (absent : k ∉ touched engine log) : k ∉ touched engine (log.drop p) := by
  intro member
  apply absent
  simp only [touched, written, mem_map, mem_flatMap] at member ⊢
  obtain ⟨write, ⟨data, late, made⟩, rfl⟩ := member
  exact ⟨write, ⟨data, mem_of_mem_drop late, made⟩, rfl⟩

/-- A store that the entries after the first `p` bring to the state of the whole log. -/
def CatchesUp (engine : Engine) (log : List Bytes) (p : Nat) (s : Store) : Prop :=
  replay engine (log.drop p) s = replay engine log initial

theorem CatchesUp.stateAt (engine : Engine) (log : List Bytes) (j : Nat)
    : CatchesUp engine log j (stateAt engine log j) :=
  replay_take_drop engine log j initial

theorem CatchesUp.initial (engine : Engine) (log : List Bytes) : CatchesUp engine log 0 initial := by
  rw [CatchesUp, drop_zero]

theorem CatchesUp.apply {data : Bytes} (ready : CatchesUp engine log p s)
    (entry : log[p]? = some data)
    : CatchesUp engine log (p + 1) (fsmApply engine s data) := by
  obtain ⟨inside, here⟩ := List.getElem?_eq_some_iff.mp entry
  rw [CatchesUp, drop_eq_getElem_cons inside, here] at ready
  exact ready

/-- A key no entry writes has its first value in every store that catches up. -/
theorem CatchesUp.get_untouched (ready : CatchesUp engine log p s)
    (absent : k ∉ touched engine log)
    : s.get k = Cluster.initial.get k := by
  calc s.get k = (replay engine (log.drop p) s).get k := (get_replay s (touched_drop absent)).symm
    _ = (replay engine log Cluster.initial).get k := by rw [ready]
    _ = Cluster.initial.get k := get_replay _ absent

/-- Starting over from the first entry: the whole log may be applied again. -/
theorem CatchesUp.restart (ready : CatchesUp engine log p s) : CatchesUp engine log 0 s := by
  rw [CatchesUp, drop_zero]
  apply replay_congr
  intro k absent
  exact ready.get_untouched absent

/-- `EnsureFormat` writes the marker if it is missing, and otherwise only checks it. -/
theorem ensureFormat_store {s' : Store} (started : Catalog.ensureFormat.run s = (.ok (), s'))
    : s' = s
      ∨ (s.get Catalog.formatKey = none
        ∧ s' = s.set Catalog.formatKey (uint32Bytes Catalog.formatVersion)) := by
  rw [← Program.exec_exact_iff] at started
  simp only [Catalog.ensureFormat, Program.bind_eq, Program.pure_eq, Program.throw_eq,
    Program.exec_lookup_bind] at started
  cases marker : s.get Catalog.formatKey with
  | none =>
    rw [marker] at started
    exact .inr ⟨rfl, Program.exec_write.mp started⟩
  | some cur =>
    rw [marker] at started
    left
    dsimp only at started
    split_ifs at started <;> first
      | exact (Program.exec_ret.mp started).2
      | simp at started

/-- A start keeps a store that catches up.
Witness: if the marker is missing, some entry deleted it, and the log decides about it in any case.
-/
theorem CatchesUp.ensureFormat {s' : Store} (ready : CatchesUp engine log 0 s)
    (started : Catalog.ensureFormat.run s = (.ok (), s'))
    : CatchesUp engine log 0 s' := by
  rcases ensureFormat_store started with rfl | ⟨missing, rfl⟩
  · exact ready
  · rw [CatchesUp, drop_zero]
    apply replay_congr
    intro k absent
    have first := ready.get_untouched absent
    rw [get_set]
    split_ifs with marker
    · subst marker
      rw [missing] at first
      exact absurd first (by decide)
    · exact first

/-- How Badger's `Load` ends: it returns, or it panics on a corrupt dump. -/
inductive Attempt where
  | returned (r : Except Err Unit)
  | panicked (p : String)

/-- The calls of Badger that snapshots rest on, with dumps `D`: what each may answer, and what it may
leave in the database.
-/
structure Badger (D : Type) where
  backup : Store → Except Err D → Prop
  dropAll : Store → Except Err Unit → Store → Prop
  load : D → Store → Attempt → Store → Prop

variable {D : Type}

/-- `DropAll` empties the database, and loading a backup into an empty database gives back what was
backed up. Of a call that fails nothing is assumed.
-/
structure Badger.Lawful (badger : Badger D) : Prop where
  dropAll : ∀ s s', badger.dropAll s (.ok ()) s' → s' = .empty
  load : ∀ s d s', badger.backup s (.ok d) → badger.load d .empty (.returned (.ok ())) s' → s' = s

/-- `Store.Load`: everything is dropped and the dump is loaded; a panic becomes an error. -/
inductive Load (badger : Badger D) (d : D) (s : Store) : Except Err Unit → Store → Prop
  | undropped {e : Err} {s' : Store} (dropped : badger.dropAll s (.error e) s')
      : Load badger d s (.error (.because "badger: load: drop" e)) s'
  | failed {e : Err} {mid s' : Store} (dropped : badger.dropAll s (.ok ()) mid)
      (loaded : badger.load d mid (.returned (.error e)) s')
      : Load badger d s (.error (.because "badger: load" e)) s'
  | corrupt {p : String} {mid s' : Store} (dropped : badger.dropAll s (.ok ()) mid)
      (loaded : badger.load d mid (.panicked p) s')
      : Load badger d s (.error (.plain ("badger: load: corrupt backup: " ++ p))) s'
  | done {mid s' : Store} (dropped : badger.dropAll s (.ok ()) mid)
      (loaded : badger.load d mid (.returned (.ok ())) s')
      : Load badger d s (.ok ()) s'

/-- `fsm.Restore`. -/
inductive Restores (badger : Badger D) (d : D) (s : Store) : Except Err Unit → Store → Prop
  | failed {e : Err} {s' : Store} (loaded : Load badger d s (.error e) s')
      : Restores badger d s (.error (.because "fsm: restore" e)) s'
  | done {s' : Store} (loaded : Load badger d s (.ok ()) s') : Restores badger d s (.ok ()) s'

variable {badger : Badger D} {d : D}

/-- A restore that returns nil gives back what was backed up, whatever was in the store. -/
theorem Restores.eq {t before after : Store} (lawful : badger.Lawful) (backed : badger.backup t (.ok d))
    (restored : Restores badger d before (.ok ()) after)
    : after = t := by
  cases restored with
  | done loaded =>
    cases loaded with
    | done dropped loaded =>
      rw [lawful.dropAll _ _ dropped] at loaded
      exact lawful.load t d after backed loaded

structure Snapshot (D : Type) where
  index : Nat
  dump : D

/-- Restores of some of the snapshots that fail, one after another. -/
inductive Failing (badger : Badger D) (snapshots : List (Snapshot D)) (s : Store) : Store → Prop
  | none : Failing badger snapshots s s
  | more {mid s' : Store} {snap : Snapshot D} {e : Err} (before : Failing badger snapshots s mid)
      (listed : snap ∈ snapshots) (failed : Restores badger snap.dump mid (.error e) s')
      : Failing badger snapshots s s'

/-- A process that runs, one that is stopped, or a replica whose last restore failed or was
interrupted.
-/
inductive Phase where
  | running
  | stopped
  | torn
deriving DecidableEq

/-- A replica: its durable store, the last entry Raft handed to its state machine, and the snapshots
it retains.
-/
structure Replica (D : Type) where
  store : Store
  applied : Nat
  snapshots : List (Snapshot D)
  phase : Phase

def Replica.new : Replica D := ⟨.empty, 0, [], .stopped⟩

variable {ι : Type} [DecidableEq ι]

/-- One step of one of the replicas that follow the log. `faulty` allows the engine of one replica to
fail an entry for a reason of its own, which Raft passes over, and a replica to go on after a failed
restore without another one.
-/
inductive Advances (engine : Engine) (badger : Badger D) (log : List Bytes) (faulty : Prop)
    : (ι → Replica D) → (ι → Replica D) → Prop
  | apply {c : ι → Replica D} {data : Bytes} (i : ι) (up : (c i).phase = .running)
      (entry : log[(c i).applied]? = some data)
      : Advances engine badger log faulty c (Function.update c i { c i with
          store := fsmApply engine (c i).store data
          applied := (c i).applied + 1 })
  | applyFails {c : ι → Replica D} {data : Bytes} (i : ι) (fault : faulty) (up : (c i).phase = .running)
      (entry : log[(c i).applied]? = some data)
      : Advances engine badger log faulty c (Function.update c i { c i with
          applied := (c i).applied + 1 })
  -- `fsm.Snapshot`; one that fails changes nothing.
  | snapshot {c : ι → Replica D} {d : D} (i : ι) (up : (c i).phase = .running)
      (backed : badger.backup (c i).store (.ok d))
      : Advances engine badger log faulty c (Function.update c i { c i with
          snapshots := ⟨(c i).applied, d⟩ :: (c i).snapshots })
  -- Old snapshots are dropped, never the last one.
  | reap {c : ι → Replica D} (i : ι) (kept : List (Snapshot D)) (fewer : kept ⊆ (c i).snapshots)
      (some : (c i).snapshots ≠ [] → kept ≠ [])
      : Advances engine badger log faulty c (Function.update c i { c i with snapshots := kept })
  -- A snapshot of another replica is stored and restored, also after a restore that failed.
  | install {c : ι → Replica D} {snap : Snapshot D} {s : Store} (i j : ι) (up : (c i).phase ≠ .stopped)
      (sent : snap ∈ (c j).snapshots) (restored : Restores badger snap.dump (c i).store (.ok ()) s)
      : Advances engine badger log faulty c (Function.update c i ⟨s, snap.index, snap :: (c i).snapshots, .running⟩)
  -- The restore fails, or the process dies in it: anything may be left.
  | installTorn {c : ι → Replica D} {snap : Snapshot D} (i j : ι) (left : Store) (up : (c i).phase ≠ .stopped)
      (sent : snap ∈ (c j).snapshots)
      : Advances engine badger log faulty c (Function.update c i { c i with
          store := left
          snapshots := snap :: (c i).snapshots
          phase := .torn })
  | goOn {c : ι → Replica D} (i : ι) (fault : faulty) (torn : (c i).phase = .torn)
      : Advances engine badger log faulty c (Function.update c i { c i with phase := .running })
  | crash {c : ι → Replica D} (i : ι) (up : (c i).phase = .running)
      : Advances engine badger log faulty c (Function.update c i { c i with phase := .stopped })
  -- Without a snapshot, Raft hands over the log from its first entry.
  | start {c : ι → Replica D} {s : Store} (i : ι) (down : (c i).phase ≠ .running)
      (without : (c i).snapshots = []) (format : Catalog.ensureFormat.run (c i).store = (.ok (), s))
      : Advances engine badger log faulty c (Function.update c i { c i with
          store := s
          applied := 0
          phase := .running })
  -- Otherwise the first snapshot that can be restored.
  | startFrom {c : ι → Replica D} {s mid s' : Store} {snap : Snapshot D} (i : ι)
      (down : (c i).phase ≠ .running) (format : Catalog.ensureFormat.run (c i).store = (.ok (), s))
      (failing : Failing badger (c i).snapshots s mid) (retained : snap ∈ (c i).snapshots)
      (restored : Restores badger snap.dump mid (.ok ()) s')
      : Advances engine badger log faulty c (Function.update c i { c i with
          store := s'
          applied := snap.index
          phase := .running })
  | startTorn {c : ι → Replica D} (i : ι) (left : Store) (down : (c i).phase ≠ .running)
      (retained : (c i).snapshots ≠ [])
      : Advances engine badger log faulty c (Function.update c i { c i with
          store := left
          phase := .torn })

/-- The replicas after any number of steps from new nodes. -/
inductive Followed (engine : Engine) (badger : Badger D) (log : List Bytes) (faulty : Prop)
    : (ι → Replica D) → Prop
  | new : Followed engine badger log faulty (fun _ => .new)
  | step {c c' : ι → Replica D} (before : Followed engine badger log faulty c)
      (next : Advances engine badger log faulty c c')
      : Followed engine badger log faulty c'

/-- The snapshot is that of a store that catches up from its index. -/
def Snapshot.Good (engine : Engine) (badger : Badger D) (log : List Bytes) (snap : Snapshot D) : Prop :=
  ∃ t, badger.backup t (.ok snap.dump) ∧ CatchesUp engine log snap.index t

/-- What holds of a replica: its snapshots are good, and its store catches up, except that a new store
is still empty and a torn one waits for a snapshot.
-/
structure Sound (engine : Engine) (badger : Badger D) (log : List Bytes) (r : Replica D) : Prop where
  snapshots : ∀ snap ∈ r.snapshots, snap.Good engine badger log
  running : r.phase = .running → CatchesUp engine log r.applied r.store
  stopped : r.phase = .stopped → r.store = .empty ∨ CatchesUp engine log 0 r.store
  torn : r.phase = .torn → r.snapshots ≠ []

theorem Sound.new : Sound engine badger log .new where
  snapshots := by simp [Replica.new]
  running := by simp [Replica.new]
  stopped := fun _ => .inl rfl
  torn := by simp [Replica.new]

/-- What is restored from a good snapshot catches up. -/
theorem Snapshot.Good.restored {snap : Snapshot D} {before after : Store} (lawful : badger.Lawful)
    (good : snap.Good engine badger log) (restored : Restores badger snap.dump before (.ok ()) after)
    : CatchesUp engine log snap.index after := by
  obtain ⟨t, backed, ready⟩ := good
  rwa [restored.eq lawful backed]

/-- The store a replica starts with: a new one gets its marker, any other keeps catching up. -/
theorem Sound.started {r : Replica D} (sound : Sound engine badger log r)
    (down : r.phase ≠ .running) (without : r.snapshots = [])
    (format : Catalog.ensureFormat.run r.store = (.ok (), s))
    : CatchesUp engine log 0 s := by
  cases phase : r.phase with
  | running => exact absurd phase down
  | torn => exact absurd without (sound.torn phase)
  | stopped =>
    rcases sound.stopped phase with fresh | ready
    · rw [fresh] at format
      have first : s = initial := (congrArg Prod.snd format).symm
      rw [first]
      exact .initial engine log
    · exact ready.ensureFormat format

/-- Every step keeps every replica sound.
Witness: the replica that moves is checked field by field; the others are as they were.
-/
theorem Sound.step {c c' : ι → Replica D} (lawful : badger.Lawful) (sound : ∀ i, Sound engine badger log (c i))
    (next : Advances engine badger log False c c') (k : ι)
    : Sound engine badger log (c' k) := by
  have moved {i : ι} {r : Replica D} (here : Sound engine badger log r)
      : Sound engine badger log (Function.update c i r k) := by
    by_cases same : k = i
    · subst same
      simpa using here
    · simpa [same] using sound k
  cases next with
  | apply i up entry =>
    apply moved
    exact ⟨(sound i).snapshots, fun _ => ((sound i).running up).apply entry,
      by simp [up], by simp [up]⟩
  | snapshot i up backed =>
    apply moved
    refine ⟨forall_mem_cons.mpr ⟨⟨_, backed, (sound i).running up⟩, (sound i).snapshots⟩, (sound i).running,
      (sound i).stopped, by simp⟩
  | reap i kept fewer some =>
    apply moved
    exact ⟨fun snap member => (sound i).snapshots snap (fewer member), (sound i).running,
      (sound i).stopped, fun torn => some ((sound i).torn torn)⟩
  | install i j up sent restored =>
    have good := (sound j).snapshots _ sent
    apply moved
    exact ⟨forall_mem_cons.mpr ⟨good, (sound i).snapshots⟩, fun _ => good.restored lawful restored,
      by simp, by simp⟩
  | installTorn i j left up sent =>
    apply moved
    exact ⟨forall_mem_cons.mpr ⟨(sound j).snapshots _ sent, (sound i).snapshots⟩, by simp, by simp, by simp⟩
  | crash i up =>
    apply moved
    exact ⟨(sound i).snapshots, by simp, fun _ => .inr ((sound i).running up).restart, by simp⟩
  | start i down without format =>
    apply moved
    exact ⟨(sound i).snapshots, fun _ => (sound i).started down without format, by simp, by simp⟩
  | startFrom i down format failing retained restored =>
    apply moved
    exact ⟨(sound i).snapshots, fun _ => ((sound i).snapshots _ retained).restored lawful restored,
      by simp, by simp⟩
  | startTorn i left down retained =>
    apply moved
    exact ⟨(sound i).snapshots, by simp, by simp, fun _ => retained⟩
  | applyFails i fault => exact fault.elim
  | goOn i fault => exact fault.elim

theorem Sound.followed {c : ι → Replica D} (lawful : badger.Lawful) (followed : Followed engine badger log False c)
    (i : ι)
    : Sound engine badger log (c i) := by
  induction followed generalizing i with
  | new => exact .new
  | step before next ih => exact .step lawful ih next i

/-- Recovery reproduces the replica state: after the whole log on any of its states, after the rest
of the log on a restored snapshot, whatever an interrupted or failed restore left `before` it, and on
every replica that has processed the log, however often it stopped, started, and restored.
-/
theorem recovery_reproduces (engine : Engine) (lawful : badger.Lawful) (log : List Bytes)
    : (∀ m ≤ log.length,
        replay engine log (stateAt engine log m) = stateAt engine log log.length)
      ∧ (∀ k ≤ log.length, ∀ d, badger.backup (stateAt engine log k) (.ok d) → ∀ before after,
        Restores badger d before (.ok ()) after
          → replay engine (log.drop k) after = stateAt engine log log.length)
      ∧ (∀ c : ι → Replica D, Followed engine badger log False c
        → ∀ i, (c i).phase = .running → (c i).applied = log.length
        → (c i).store = stateAt engine log log.length) := by
  rw [stateAt_length]
  refine ⟨fun m _ => ?_, fun k _ d backed before after restored => ?_, fun c followed i up done => ?_⟩
  · exact (CatchesUp.stateAt engine log m).restart
  · rw [restored.eq lawful backed]
    exact CatchesUp.stateAt engine log k
  · have ready := (Sound.followed lawful followed i).running up
    rw [done, CatchesUp, List.drop_length] at ready
    exact ready

/-- A database whose dump is its contents, and whose `Load` may also fail halfway. -/
def copying : Badger Store where
  backup s r := r = .ok s
  dropAll _ r s' := r = .ok () ∧ s' = .empty
  load d _ attempt s' := attempt = .returned (.ok ()) ∧ s' = d ∨ attempt = .returned (.error .shortBuffer)

theorem copying_lawful : copying.Lawful where
  dropAll _ _ dropped := dropped.2
  load s d s' := by
    rintro ⟨⟩ (⟨_, same⟩ | ⟨⟨⟩⟩)
    exact same

/-- An engine that refuses nothing. -/
def lenientEngine : Engine := ⟨fun _ _ => none, fun _ => none⟩

/-- A log of one entry. -/
def oneEntry : List Bytes := [encode [.set [1] [2]]]

/-- The node started, with a store that `EnsureFormat` prepared. -/
theorem followed_start (faulty : Prop)
    : Followed lenientEngine copying oneEntry faulty
      (Function.update (fun _ : Unit => Replica.new) () ⟨initial, 0, [], .running⟩) :=
  .step .new (.start () (by simp [Replica.new]) rfl rfl)

/-- The entry is applied, a snapshot taken and the process restarted, with a first restore that fails. -/
theorem recovery_restarted
    : ∃ c : Unit → Replica Store, Followed lenientEngine copying oneEntry False c
      ∧ (c ()).snapshots ≠ [] ∧ (c ()).store = stateAt lenientEngine oneEntry 1 := by
  have applied := (followed_start False).step (.apply () rfl rfl)
  have snapped := applied.step (.snapshot () rfl rfl)
  have stopped := snapped.step (.crash () rfl)
  have empty : copying.dropAll (stateAt lenientEngine oneEntry 1) (.ok ()) .empty := ⟨rfl, rfl⟩
  have failing : Failing copying [⟨1, stateAt lenientEngine oneEntry 1⟩] (stateAt lenientEngine oneEntry 1) .empty :=
    .more .none mem_cons_self (.failed (.failed empty (.inr rfl)))
  have restored : Restores copying (stateAt lenientEngine oneEntry 1) .empty (.ok ())
      (stateAt lenientEngine oneEntry 1) :=
    .done (.done (show copying.dropAll .empty (.ok ()) .empty from ⟨rfl, rfl⟩) (.inl ⟨rfl, rfl⟩))
  have retained : ⟨1, stateAt lenientEngine oneEntry 1⟩ ∈ [(⟨1, stateAt lenientEngine oneEntry 1⟩ : Snapshot Store)] :=
    mem_cons_self
  have again := stopped.step (.startFrom () (by decide) rfl failing retained restored)
  exact ⟨_, again, by simp, (recovery_reproduces lenientEngine copying_lawful oneEntry).2.2 _ again () rfl rfl⟩

/-- A replica on which an entry fails goes on without it.
Witness: one entry, which the engine of the replica fails for a reason of its own.
-/
theorem not_recovery_reproduces
    : ¬ ∀ c : Unit → Replica Store, Followed lenientEngine copying oneEntry True c
      → (c ()).phase = .running → (c ()).applied = oneEntry.length
      → (c ()).store = stateAt lenientEngine oneEntry oneEntry.length := by
  intro always
  have skipped := (followed_start True).step (.applyFails () trivial rfl rfl)
  have same := always _ skipped rfl rfl
  have missing : initial.get [1] = none := by decide
  have present : (stateAt lenientEngine oneEntry oneEntry.length).get [1] = some [2] := by decide
  rw [← same] at present
  exact absurd (missing.symm.trans present) (by simp)

end Intreccio.Cluster

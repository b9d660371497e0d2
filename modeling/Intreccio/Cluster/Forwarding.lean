import Intreccio.Storage
import Mathlib.Algebra.BigOperators.Group.List.Basic

/-! A forwarded write (`connPool.call`, `client.Forward`, `forwardService.Query`): request and reply
messages between the caller, the voters and the leader, any of which may be lost, and three layers
that send a request again without knowing whether the first one was executed. Then the values of the
messages: a nil cell or parameter is sent as a stand-in and restored at the other end.
-/

namespace Intreccio.Cluster

open Kv List

/-- A reply: rows, an error with a sentinel code, or an error without one. -/
inductive Reply where
  | ok
  | coded
  | uncoded
deriving DecidableEq

/-- A request on its way through a voter's `forwardService.Query`. `inFlight` is the request message
and `replying` the reply message; `proxy` is a voter that waits in its own `connPool.call`, with the
number of the attempt and the request it sent on.
-/
inductive Request where
  | inFlight
  | received
  | executing
  | committed
  | replying (r : Reply)
  | proxy (attempt : Nat) (sent : Request)

/-- One step of a request: `x.Moves faulty y left commits`, with the requests nobody waits for any
more and the number of write-sets committed. `faulty` allows an error or a timeout to strike a
request that was delivered, and `raft.Apply` to fail after the entry entered the log.
-/
inductive Request.Moves (faulty : Prop) : Request → Request → List Request → Nat → Prop
  | deliver : Moves faulty .inFlight .received [] 0
  -- The voter leads and executes the statement, or sends the request on to the leader it knows.
  | lead : Moves faulty .received .executing [] 0
  | forward : Moves faulty .received (.proxy 0 .inFlight) [] 0
  | noLeader {r : Reply} (error : r ≠ .ok) : Moves faulty .received (.replying r) [] 0
  | commit : Moves faulty .executing .committed [] 1
  | fail {r : Reply} (error : r ≠ .ok) : Moves faulty .executing (.replying r) [] 0
  | answer : Moves faulty .committed (.replying .ok) [] 0
  -- `raft.Apply` returns an error for an entry that is in the log.
  | disown (fault : faulty) : Moves faulty .committed (.replying .uncoded) [] 0
  | relay {attempt : Nat} {r : Reply}
      : Moves faulty (.proxy attempt (.replying r)) (.replying r) [] 0
  -- The request is lost with its connection: once it is sent again on a fresh one.
  | resend : Moves faulty (.proxy 0 .inFlight) (.proxy 1 .inFlight) [] 0
  | unsent {attempt : Nat} {r : Reply} (error : r ≠ .ok)
      : Moves faulty (.proxy attempt .inFlight) (.replying r) [] 0
  -- The same when the request was delivered: its handler goes on.
  | resendDelivered {sent : Request} (fault : faulty)
      : Moves faulty (.proxy 0 sent) (.proxy 1 .inFlight) [sent] 0
  | breakDelivered {attempt : Nat} {sent : Request} {r : Reply} (fault : faulty) (error : r ≠ .ok)
      : Moves faulty (.proxy attempt sent) (.replying r) [sent] 0
  -- The caller's own deadline passes, which is reported with its code.
  | expire {attempt : Nat} {sent : Request}
      : Moves faulty (.proxy attempt sent) (.replying .coded) [sent] 0
  | inner {attempt commits : Nat} {sent next : Request} {left : List Request}
      (moves : Moves faulty sent next left commits)
      : Moves faulty (.proxy attempt sent) (.proxy attempt next) left commits

/-- The forwarding `DB.Query` call: it waits for a request, with `voters` more to try after this one
(none for a follower, which only asks the leader), or it has returned.
-/
inductive Caller where
  | waiting (voters attempt : Nat) (sent : Request)
  | returned (rows : Bool)

/-- The call, the requests nobody waits for any more, and the write-sets committed. -/
structure Forward where
  caller : Caller
  strays : List Request
  commits : Nat

inductive Forward.Step (faulty : Prop) : Forward → Forward → Prop
  | serve {voters attempt commits more : Nat} {sent next : Request} {strays left : List Request}
      (moves : sent.Moves faulty next left more)
      : Step faulty ⟨.waiting voters attempt sent, strays, commits⟩
          ⟨.waiting voters attempt next, left ++ strays, commits + more⟩
  -- A request nobody waits for goes on, or its message is lost.
  | stray {caller : Caller} {commits more : Nat} {before after left : List Request}
      {s next : Request} (moves : s.Moves faulty next left more)
      : Step faulty ⟨caller, before ++ s :: after, commits⟩
          ⟨caller, left ++ (before ++ next :: after), commits + more⟩
  | vanish {caller : Caller} {commits : Nat} {before after : List Request} {s : Request}
      : Step faulty ⟨caller, before ++ s :: after, commits⟩ ⟨caller, before ++ after, commits⟩
  -- A reply with rows or with a code is final.
  | rows {voters attempt commits : Nat} {strays : List Request}
      : Step faulty ⟨.waiting voters attempt (.replying .ok), strays, commits⟩
          ⟨.returned true, strays, commits⟩
  | definite {voters attempt commits : Nat} {strays : List Request}
      : Step faulty ⟨.waiting voters attempt (.replying .coded), strays, commits⟩
          ⟨.returned false, strays, commits⟩
  -- After an error without a code the next voter is tried.
  | nextVoter {voters attempt commits : Nat} {strays : List Request}
      : Step faulty ⟨.waiting (voters + 1) attempt (.replying .uncoded), strays, commits⟩
          ⟨.waiting voters 0 .inFlight, strays, commits⟩
  | noVoter {attempt commits : Nat} {strays : List Request}
      : Step faulty ⟨.waiting 0 attempt (.replying .uncoded), strays, commits⟩
          ⟨.returned false, strays, commits⟩
  -- The request is lost with its connection.
  | resend {voters commits : Nat} {strays : List Request}
      : Step faulty ⟨.waiting voters 0 .inFlight, strays, commits⟩
          ⟨.waiting voters 1 .inFlight, strays, commits⟩
  | nextUnsent {voters attempt commits : Nat} {strays : List Request}
      : Step faulty ⟨.waiting (voters + 1) attempt .inFlight, strays, commits⟩
          ⟨.waiting voters 0 .inFlight, strays, commits⟩
  | unsent {attempt commits : Nat} {strays : List Request}
      : Step faulty ⟨.waiting 0 attempt .inFlight, strays, commits⟩
          ⟨.returned false, strays, commits⟩
  -- The same when the request was delivered: its handler goes on, or its reply is what is lost.
  | resendDelivered {voters commits : Nat} {sent : Request} {strays : List Request} (fault : faulty)
      : Step faulty ⟨.waiting voters 0 sent, strays, commits⟩
          ⟨.waiting voters 1 .inFlight, sent :: strays, commits⟩
  | nextDelivered {voters attempt commits : Nat} {sent : Request} {strays : List Request}
      (fault : faulty)
      : Step faulty ⟨.waiting (voters + 1) attempt sent, strays, commits⟩
          ⟨.waiting voters 0 .inFlight, sent :: strays, commits⟩
  -- The caller gives up, or its last attempt fails.
  | giveUp {voters attempt commits : Nat} {sent : Request} {strays : List Request}
      : Step faulty ⟨.waiting voters attempt sent, strays, commits⟩
          ⟨.returned false, sent :: strays, commits⟩

def Forward.new (voters : Nat) : Forward := ⟨.waiting voters 0 .inFlight, [], 0⟩

inductive Forward.Reached (faulty : Prop) : Forward → Prop
  | new (voters : Nat) : Reached faulty (.new voters)
  | step {x y : Forward} (before : Reached faulty x) (next : Step faulty x y) : Reached faulty y

/-- How often a request may still commit, the attempts after an error reply included. -/
def Request.budget : Request → Nat
  | .inFlight | .received | .executing => 1
  | .committed => 0
  | .replying .ok | .replying .coded => 0
  | .replying .uncoded => 1
  | .proxy _ sent => sent.budget

def Caller.budget : Caller → Nat
  | .waiting _ _ sent => sent.budget
  | .returned _ => 0

def Forward.budget (x : Forward) : Nat :=
  x.commits + x.caller.budget + (x.strays.map Request.budget).sum

theorem Request.budget_replying (r : Reply) : (Request.replying r).budget ≤ 1 := by
  cases r <;> decide

/-- Without faults, what a step commits and what it leaves behind stay within the request's budget.
Witness: a request that is sent again was never delivered.
-/
theorem Request.Moves.budget {x y : Request} {left : List Request} {commits : Nat}
    (moves : x.Moves False y left commits)
    : commits + y.budget + (left.map Request.budget).sum ≤ x.budget := by
  induction moves with
  | deliver => decide
  | lead => decide
  | forward => decide
  | @noLeader r error => simpa [Request.budget] using budget_replying r
  | commit => decide
  | @fail r error => simpa [Request.budget] using budget_replying r
  | answer => decide
  | disown fault => exact fault.elim
  | relay => simp [Request.budget]
  | resend => decide
  | @unsent attempt r error => simpa [Request.budget] using budget_replying r
  | resendDelivered fault => exact fault.elim
  | breakDelivered fault error => exact fault.elim
  | expire => simp [Request.budget]
  | inner moves ih => exact ih

theorem Forward.Step.budget {x y : Forward} (next : Forward.Step False x y) : y.budget ≤ x.budget := by
  cases next with
  | serve moves =>
    have within := moves.budget
    simp only [Forward.budget, Caller.budget, map_append, sum_append]
    omega
  | stray moves =>
    have within := moves.budget
    simp only [Forward.budget, map_append, map_cons, sum_append, sum_cons]
    omega
  | vanish =>
    simp only [Forward.budget, map_append, map_cons, sum_append, sum_cons]
    omega
  | resendDelivered fault => exact fault.elim
  | nextDelivered fault => exact fault.elim
  | giveUp =>
    simp only [Forward.budget, Caller.budget, map_cons, sum_cons]
    omega
  | _ => simp [Forward.budget, Caller.budget, Request.budget]

/-- A forwarded write is committed at most once as long as no error or timeout strikes a delivered
request and no committed entry is reported as failed.
-/
theorem commits_le_one {x : Forward} (reached : Forward.Reached False x) : x.commits ≤ 1 := by
  have bound : x.budget ≤ 1 := by
    induction reached with
    | new voters => simp [Forward.new, Forward.budget, Caller.budget, Request.budget]
    | step before next ih => exact next.budget.trans ih
  simp only [Forward.budget] at bound
  omega

theorem commits_le_one_answered
    : Forward.Reached False ⟨.returned true, [], 1⟩ ∧ (Forward.mk (.returned true) [] 1).commits ≤ 1 := by
  have start : Forward.Reached False (.new 2) := .new 2
  have r1 := start.step (.serve .deliver)
  have r2 := r1.step (.serve .lead)
  have r3 := r2.step (.serve .commit)
  have r4 := r3.step (.serve .answer)
  have r5 := r4.step .rows
  exact ⟨r5, commits_le_one r5⟩

/-- The reply to an executed request is lost, and the request sent again is executed as well. -/
theorem commits_twice_of_lostReply : ∃ x : Forward, Forward.Reached True x ∧ x.commits = 2 := by
  have start : Forward.Reached True (.new 0) := .new 0
  have r1 := start.step (.serve .deliver)
  have r2 := r1.step (.serve .lead)
  have r3 := r2.step (.serve .commit)
  have r4 := r3.step (.serve .answer)
  have r5 := r4.step (.resendDelivered trivial)
  have r6 := r5.step (.serve .deliver)
  have r7 := r6.step (.serve .lead)
  have r8 := r7.step (.serve .commit)
  exact ⟨_, r8, rfl⟩

/-- The stand-in for a nil interface on the wire (`nullValue{}`). -/
def nullValue : Val := .other "cluster.nullValue"

def sanitizeValue : Val → Val
  | .null => nullValue
  | v => v

def desanitizeValue : Val → Val
  | .other "cluster.nullValue" => .null
  | v => v

def sanitizeRows (rows : List (List Val)) : List (List Val) := rows.map (List.map sanitizeValue)

def desanitizeRows (rows : List (List Val)) : List (List Val) := rows.map (List.map desanitizeValue)

def sanitizeParams (params : OrderedMap Str Val) : OrderedMap Str Val := params.mapValues sanitizeValue

def desanitizeParams (params : OrderedMap Str Val) : OrderedMap Str Val :=
  params.mapValues desanitizeValue

mutual
/-- The values of queries of the types that `init` registers: null, booleans, integers, floats, strings,
and lists and maps of such values.
-/
def plain : Val → Bool
  | .null | .bool _ | .int _ | .goInt _ | .float _ | .str _ => true
  | .list items => plainItems items
  | .map entries => plainEntries entries
  | _ => false

def plainItems : List Val → Bool
  | [] => true
  | v :: rest => plain v && plainItems rest

def plainEntries : List (Str × Val) → Bool
  | [] => true
  | (_, v) :: rest => plain v && plainEntries rest
end

mutual
/-- A nil interface occurs in the value, at any depth. -/
def holdsNil : Val → Bool
  | .null => true
  | .list items => itemsHoldNil items
  | .map entries => entriesHoldNil entries
  | _ => false

def itemsHoldNil : List Val → Bool
  | [] => false
  | v :: rest => holdsNil v || itemsHoldNil rest

def entriesHoldNil : List (Str × Val) → Bool
  | [] => false
  | (_, v) :: rest => holdsNil v || entriesHoldNil rest
end

def PlainRows (rows : List (List Val)) : Prop := ∀ row ∈ rows, ∀ v ∈ row, plain v = true

def PlainParams (params : OrderedMap Str Val) : Prop := ∀ e ∈ params.entries, plain e.2 = true

/-- `encoding/gob` over the connection: what arrives of the rows of a reply and of the parameters of a
request, and which messages are within its size limit.
-/
structure Gob where
  rows : List (List Val) → Except Err (List (List Val))
  params : OrderedMap Str Val → Except Err (OrderedMap Str Val)
  rowsFit : List (List Val) → Prop
  paramsFit : OrderedMap Str Val → Prop

/-- Values of the registered types within the limit arrive as they were sent. -/
structure Gob.Lawful (gob : Gob) : Prop where
  rows
    : ∀ rows, (∀ row ∈ rows, ∀ v ∈ row, plain v = true ∨ v = nullValue) → gob.rowsFit rows
        → gob.rows rows = .ok rows
  params
    : ∀ params : OrderedMap Str Val, (∀ e ∈ params.entries, plain e.2 = true ∨ e.2 = nullValue)
        → gob.paramsFit params → gob.params params = .ok params

/-- A forwarded query: the parameters go to the leader, which executes the query, and its rows come
back.
-/
def forwardQuery (gob : Gob) (exec : OrderedMap Str Val → Except Err (List (List Val)))
    (params : OrderedMap Str Val) : Except Err (List (List Val)) := do
  let received ← gob.params (sanitizeParams params)
  let rows ← exec (desanitizeParams received)
  let reply ← gob.rows (sanitizeRows rows)
  return desanitizeRows reply

/-- No nil is sent at the top. -/
theorem sanitizeValue_ne_null (v : Val) : sanitizeValue v ≠ .null := by
  cases v <;> simp [sanitizeValue, nullValue]

/-- What is sent is of a registered type. -/
theorem registered_sanitizeValue {v : Val} (isPlain : plain v = true)
    : plain (sanitizeValue v) = true ∨ sanitizeValue v = nullValue := by
  cases v <;> simp_all [sanitizeValue]

/-- The stand-in is the only value that is not given back, and no plain value. -/
theorem desanitizeValue_sanitizeValue {v : Val} (isPlain : plain v = true)
    : desanitizeValue (sanitizeValue v) = v := by
  unfold sanitizeValue
  split
  · rfl
  · unfold desanitizeValue
    split
    · cases isPlain
    · rfl

theorem desanitizeRows_sanitizeRows {rows : List (List Val)} (plainRows : PlainRows rows)
    : desanitizeRows (sanitizeRows rows) = rows := by
  simp only [desanitizeRows, sanitizeRows, List.map_map]
  refine (List.map_congr_left fun row among => ?_).trans (List.map_id _)
  simp only [Function.comp_apply, List.map_map]
  exact (List.map_congr_left fun v member =>
    desanitizeValue_sanitizeValue (plainRows row among v member)).trans (List.map_id _)

theorem desanitizeParams_sanitizeParams {params : OrderedMap Str Val} (plainParams : PlainParams params)
    : desanitizeParams (sanitizeParams params) = params := by
  ext1 k
  simp only [desanitizeParams, sanitizeParams, OrderedMap.get_mapValues]
  cases found : params.get k with
  | none => rfl
  | some v =>
    exact congrArg some (desanitizeValue_sanitizeValue
      (plainParams (k, v) (OrderedMap.get_eq_some_iff.mp found)))

/-- A connection that delivers every message. -/
def openGob : Gob := ⟨.ok, .ok, fun _ => True, fun _ => True⟩

theorem openGob_lawful : openGob.Lawful := ⟨fun _ _ _ => rfl, fun _ _ _ => rfl⟩

end Intreccio.Cluster

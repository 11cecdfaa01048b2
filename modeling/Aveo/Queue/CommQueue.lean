import Aveo.Queue.Command
import Aveo.Queue.BlockingMap
import Mathlib.Algebra.Order.Group.Multiset

/-!
# The communication queue

`CommQueue` of `Command.hpp` and `Command.cpp`: the request queue, the map of commands that were
submitted to URPC, the map of completed commands, and the condition variable on which the progress
thread sleeps. Each operation takes its mutex once and is one step. The pops of the request queue in `cancelAll` take
no mutex; each of them is taken to be one step as well.

The request IDs that a queue holds are counted as a multiset. Each operation that moves a command
has a lemma that says how the multiset changes, and the two inserts need their key to be free.
-/

namespace Aveo

/-- The progress thread is the only waiter on `req_fli_cond`: it is not waiting, it sleeps with no
notification pending, or it has been notified and has not left the wait yet. -/
inductive CondWait
  | idle
  | sleeping
  | notified
  deriving DecidableEq, Repr

/-- `notify_all` on `req_fli_cond`. -/
def CondWait.notify : CondWait → CondWait
  | .sleeping => .notified
  | c => c

structure CommQueue where
  request : List Command
  inflight : BlockingMap Int Command
  completion : BlockingMap ReqId Command
  terminateFlag : Bool
  reqFliCond : CondWait

namespace CommQueue

def new : CommQueue :=
  { request := [], inflight := .empty, completion := .empty, terminateFlag := false, reqFliCond := .idle }

def pushRequest (q : CommQueue) (req : Command) : CommQueue :=
  { q with request := q.request ++ [req] }

def pushRequestFront (q : CommQueue) (req : Command) : CommQueue :=
  { q with request := req :: q.request }

def tryPopRequest (q : CommQueue) : Option (Command × CommQueue) :=
  match q.request with
  | [] => none
  | cmd :: rest => some (cmd, { q with request := rest })

def emptyInFlight (q : CommQueue) : Bool := q.inflight.isEmpty

def isActive (q : CommQueue) : Bool := !q.inflight.isEmpty || !q.request.isEmpty

def pushInFlight (q : CommQueue) (cmd : Command) : CommQueue :=
  { q with inflight := q.inflight.insert cmd.urpcReq cmd }

def popInFlight (q : CommQueue) (id : Int) : Option (Command × CommQueue) :=
  (q.inflight.tryFind id).map fun r => (r.1, { q with inflight := r.2 })

def pushCompletion (q : CommQueue) (req : Command) : CommQueue :=
  { q with completion := q.completion.insert req.msgid req }

/-- `peekCompletion`, and `waitCompletion` at the moment it returns. -/
def peekCompletion (q : CommQueue) (msgid : ReqId) : Option (Command × CommQueue) :=
  (q.completion.tryFind msgid).map fun r => (r.1, { q with completion := r.2 })

/-- `notifyAll` wakes the progress thread only if a request is queued. -/
def notifyAll (q : CommQueue) : CommQueue :=
  if q.request.isEmpty then q else { q with reqFliCond := q.reqFliCond.notify }

def terminate (q : CommQueue) : CommQueue :=
  { q with terminateFlag := true, reqFliCond := q.reqFliCond.notify }

/-! ### The request IDs in a queue -/

def requestIds (q : CommQueue) : List ReqId := q.request.map Command.msgid

def inflightIds (q : CommQueue) : List ReqId := q.inflight.values.map Command.msgid

def completionIds (q : CommQueue) : List ReqId := q.completion.keys

/-- All request IDs in the queue, counted. -/
def ids (q : CommQueue) : Multiset ReqId :=
  (q.requestIds : Multiset ReqId) + (q.inflightIds : Multiset ReqId) + (q.completionIds : Multiset ReqId)

variable {q q' : CommQueue} {cmd : Command} {id : ReqId} {req : Int}

theorem ids_eq_of_fields (hr : q'.request = q.request) (hi : q'.inflight = q.inflight)
    (hc : q'.completion = q.completion) : q'.ids = q.ids := by
  simp only [ids, requestIds, inflightIds, completionIds, hr, hi, hc]

@[simp] theorem ids_new : new.ids = 0 := rfl

@[simp] theorem notifyAll_request : q.notifyAll.request = q.request := by
  unfold notifyAll
  split <;> rfl

@[simp] theorem notifyAll_inflight : q.notifyAll.inflight = q.inflight := by
  unfold notifyAll
  split <;> rfl

@[simp] theorem notifyAll_completion : q.notifyAll.completion = q.completion := by
  unfold notifyAll
  split <;> rfl

@[simp] theorem notifyAll_terminateFlag : q.notifyAll.terminateFlag = q.terminateFlag := by
  unfold notifyAll
  split <;> rfl

@[simp] theorem ids_notifyAll : q.notifyAll.ids = q.ids :=
  ids_eq_of_fields notifyAll_request notifyAll_inflight notifyAll_completion

@[simp] theorem ids_terminate : q.terminate.ids = q.ids := ids_eq_of_fields rfl rfl rfl

theorem ids_pushRequest : (q.pushRequest cmd).ids = cmd.msgid ::ₘ q.ids := by
  simp only [ids, requestIds, inflightIds, completionIds, pushRequest, List.map_append, List.map_cons,
    List.map_nil, ← Multiset.coe_add, ← Multiset.singleton_add, Multiset.coe_singleton]
  ac_rfl

theorem ids_pushRequestFront : (q.pushRequestFront cmd).ids = cmd.msgid ::ₘ q.ids := by
  simp only [ids, requestIds, inflightIds, completionIds, pushRequestFront, List.map_cons,
    ← Multiset.cons_coe, Multiset.cons_add]

theorem tryPopRequest_eq_some (h : q.tryPopRequest = some (cmd, q')) :
    ∃ rest, q.request = cmd :: rest ∧ q' = { q with request := rest } := by
  unfold tryPopRequest at h
  split at h
  · cases h
  · rename_i c rest hreq
    cases h
    exact ⟨rest, hreq, rfl⟩

theorem tryPopRequest_eq_none : q.tryPopRequest = none ↔ q.request = [] := by
  unfold tryPopRequest
  split <;> simp_all

theorem ids_popRequest {rest : List Command} (hreq : q.request = cmd :: rest) :
    q.ids = cmd.msgid ::ₘ ({ q with request := rest } : CommQueue).ids := by
  simp only [ids, requestIds, inflightIds, completionIds, hreq, List.map_cons, ← Multiset.cons_coe,
    Multiset.cons_add]

theorem ids_pushInFlight (hfree : cmd.urpcReq ∉ q.inflight.keys) :
    (q.pushInFlight cmd).ids = cmd.msgid ::ₘ q.ids := by
  simp only [ids, requestIds, inflightIds, completionIds, pushInFlight, BlockingMap.values_insert hfree,
    List.map_cons, ← Multiset.cons_coe, Multiset.cons_add, Multiset.add_cons]

theorem popInFlight_eq_some :
    q.popInFlight req = some (cmd, q') ↔
      (req, cmd) ∈ q.inflight.entries ∧ q' = { q with inflight := q.inflight.erase req } := by
  simp only [popInFlight, Option.map_eq_some_iff, Prod.exists, Prod.mk.injEq, BlockingMap.tryFind_eq_some]
  constructor
  · rintro ⟨c, m, ⟨hc, rfl⟩, rfl, rfl⟩
    exact ⟨hc, rfl⟩
  · rintro ⟨hc, rfl⟩
    exact ⟨cmd, _, ⟨hc, rfl⟩, rfl, rfl⟩

theorem popInFlight_eq_none : q.popInFlight req = none ↔ req ∉ q.inflight.keys := by
  rw [popInFlight, Option.map_eq_none_iff, BlockingMap.tryFind_eq_none]

theorem ids_popInFlight (hentry : (req, cmd) ∈ q.inflight.entries) :
    q.ids = cmd.msgid ::ₘ ({ q with inflight := q.inflight.erase req } : CommQueue).ids := by
  have hperm := (BlockingMap.values_perm_erase hentry).map Command.msgid
  simp only [ids, requestIds, inflightIds, completionIds, Multiset.coe_eq_coe.mpr hperm, List.map_cons,
    ← Multiset.cons_coe, Multiset.cons_add, Multiset.add_cons]

theorem ids_pushCompletion (hfree : cmd.msgid ∉ q.completionIds) :
    (q.pushCompletion cmd).ids = cmd.msgid ::ₘ q.ids := by
  simp only [ids, requestIds, inflightIds, completionIds, pushCompletion,
    BlockingMap.keys_insert (show cmd.msgid ∉ q.completion.keys from hfree), ← Multiset.cons_coe,
    Multiset.add_cons]

theorem peekCompletion_eq_some :
    q.peekCompletion id = some (cmd, q') ↔
      (id, cmd) ∈ q.completion.entries ∧ q' = { q with completion := q.completion.erase id } := by
  simp only [peekCompletion, Option.map_eq_some_iff, Prod.exists, Prod.mk.injEq, BlockingMap.tryFind_eq_some]
  constructor
  · rintro ⟨c, m, ⟨hc, rfl⟩, rfl, rfl⟩
    exact ⟨hc, rfl⟩
  · rintro ⟨hc, rfl⟩
    exact ⟨cmd, _, ⟨hc, rfl⟩, rfl, rfl⟩

theorem peekCompletion_eq_none : q.peekCompletion id = none ↔ id ∉ q.completionIds := by
  rw [peekCompletion, Option.map_eq_none_iff, BlockingMap.tryFind_eq_none, completionIds]

theorem ids_peekCompletion (hentry : (id, cmd) ∈ q.completion.entries) :
    q.ids = id ::ₘ ({ q with completion := q.completion.erase id } : CommQueue).ids := by
  have hperm := BlockingMap.keys_perm_erase hentry
  simp only [ids, requestIds, inflightIds, completionIds, Multiset.coe_eq_coe.mpr hperm,
    ← Multiset.cons_coe, Multiset.add_cons]

end CommQueue

end Aveo

import Aveo.Queue.CommQueue
import Aveo.Lib.RecMutex

/-!
# The shared state of a context

What the threads that use one `Context` share: the communication queue, the set of request IDs whose
result was not retrieved, the two recursive mutexes, the context state, and the URPC peer. URPC is
not part of the repository. What is known of it here is which requests were sent and not answered
yet: it hands out fresh request numbers and answers a request that was sent.

The log records the events of a run in their order. It is not part of the program. The results about
the order of submissions, about the barrier at a VH command and about delivery are stated over it.
-/

namespace Aveo

open Lib

/-- The threads that use a context: its progress thread, which is `none`, and `n` user threads. -/
abbrev Tid (n : Nat) := Option (Fin n)

/-- `veo_context_state`, without the two states that are not possible in AVEO. -/
inductive ContextState
  | unknown
  | running
  | exit
  deriving DecidableEq, Repr

/-- A reply message as the result functions tell replies apart. A reply to RECVBUFF is a SENDBUFF
message whose address and size match the request or not; `other` is any message that
`unpack_call_result` does not expect, and a RESULT without a payload. -/
inductive Reply
  | ack
  | result (val : Word)
  | resStk (val : Word)
  | exception (exc : Word)
  | sendbuff (matching : Bool)
  | other
  deriving DecidableEq, Repr

/-- The events of a run. A push carries the thread, the number of the period in which the thread
holds the submission lock, the request ID, and where the command comes from. -/
inductive Event (n : Nat)
  | nowait (id : ReqId)
  | push (t : Tid n) (hold : Nat) (id : ReqId) (closure : Closure)
  | submit (id : ReqId) (req : Int)
  | reject (id : ReqId)
  | vhStart (id : ReqId)
  | vhReturn (id : ReqId)
  | cancel (id : ReqId) (queued : Bool)
  | discard (id : ReqId)
  | deliver (t : Tid n) (id : ReqId)
  | answer (t : Tid n) (id : ReqId) (status : CommandState)
  | syncReturn (t : Tid n) (id : ReqId) (mark : Nat)
  deriving DecidableEq

namespace Event

variable {n : Nat}

def pushedId : Event n → Option ReqId
  | .push _ _ id _ => some id
  | _ => none

/-- The request that an event takes from the request queue for good. -/
def startedId : Event n → Option ReqId
  | .submit id _ | .reject id | .vhStart id | .cancel id true => some id
  | _ => none

def deliveredId : Event n → Option ReqId
  | .deliver _ id => some id
  | _ => none

def discardedId : Event n → Option ReqId
  | .discard id => some id
  | _ => none

end Event

/-- The requests in the order in which they were pushed. -/
def pushedIds {n : Nat} (log : List (Event n)) : List ReqId := log.filterMap Event.pushedId

/-- The requests in the order in which they were submitted, rejected, started or cancelled. -/
def startedIds {n : Nat} (log : List (Event n)) : List ReqId := log.filterMap Event.startedId

def deliveredIds {n : Nat} (log : List (Event n)) : List ReqId := log.filterMap Event.deliveredId

def discardedIds {n : Nat} (log : List (Event n)) : List ReqId := log.filterMap Event.discardedId

/-- The fields of `Context` that its threads share, the URPC peer, and the log. -/
structure Shared (n : Nat) where
  comq : CommQueue
  state : ContextState
  seqNo : Nat
  remReqid : List ReqId
  submitMtx : RecMutex (Tid n)
  progMtx : RecMutex (Tid n)
  ctxMutex : RecMutex (Tid n)
  count : Word
  procSurvival : Bool
  /-- URPC requests that were sent and whose reply was not received, oldest first. -/
  pending : List Int
  /-- Every URPC request number handed out so far. -/
  used : List Int
  /-- The requests that `openContext` sent on the peer itself. -/
  direct : List Int
  /-- How often the submission lock was taken by a thread that did not hold it. -/
  holds : Nat
  /-- The branch for a reply without a command was taken. -/
  thrown : Bool
  /-- An exception left the progress thread: `std::terminate`. -/
  terminated : Bool
  /-- The request IDs of fragments and sub-requests, which no call returns. -/
  internal : List ReqId
  log : List (Event n)

namespace Shared

variable {n : Nat}

/-- A context after its construction, with the progress thread started. -/
def new (n : Nat) : Shared n :=
  { comq := .new, state := .running, seqNo := 0, remReqid := [], submitMtx := .free, progMtx := .free,
    ctxMutex := .free, count := 0, procSurvival := true, pending := [], used := [], direct := [],
    holds := 0, thrown := false, terminated := false, internal := [], log := [] }

def emit (sh : Shared n) (e : Event n) : Shared n := { sh with log := sh.log ++ [e] }

/-- `_peekResult`: the status, the value stored through the pointer, and the shared state after it.
It runs under `req_mtx`, so it is one step. -/
def peekResult (sh : Shared n) (t : Tid n) (reqid : ReqId) : Shared n × CommandState × Word :=
  if reqid ∈ sh.remReqid then
    match sh.comq.peekCompletion reqid with
    | some (c, q) =>
        ({ sh with comq := q, remReqid := sh.remReqid.erase reqid, log := sh.log ++ [.deliver t reqid] },
          c.status, c.retval)
    | none => (sh, .unfinished, 0)
  else (sh, .error, 0)

end Shared

/-- `unpack_call_result`: whether it succeeds, and the result. -/
def unpackCallResult : Reply → Bool × Word
  | .result val | .resStk val => (true, val)
  | .exception exc => (false, exc)
  | _ => (false, 0)

namespace Shared

variable {n : Nat}

/-- The status and result of the previous fragment of a chain, as a result function collects them. -/
def peekPrev (sh : Shared n) (t : Tid n) (prev : ReqId) : Shared n × CommandState × Word :=
  if prev = requestIdInvalid then (sh, .ok, 0) else sh.peekResult t prev

/-- The result function of a call or a generic request when the message is not an ACK. -/
def unpackResult (sh : Shared n) (cmd : Command) (m : Reply) : Shared n × Command × Bool :=
  match unpackCallResult m with
  | (true, val) => (sh, cmd.setResult val .ok, false)
  | (false, val) => ({ sh with state := .exit }, cmd.setResult val .exception, true)

/-- The result functions, called when a reply has arrived: the shared state and the command after
them, and whether they return a negative number. -/
def unpack (sh : Shared n) (t : Tid n) (cmd : Command) (m : Reply) : Shared n × Command × Bool :=
  match cmd.closure with
  | .simpleCall => sh.unpackResult cmd m
  | .generic =>
      match m with
      | .ack => (sh, cmd.setResult 0 .ok, false)
      | .resStk _ => (sh, cmd, false)
      | m => sh.unpackResult cmd m
  | .sendBuff prev =>
      let r := sh.peekPrev t prev
      match m with
      | .exception _ => (r.1, cmd.setResult (-12) .exception, true)
      | _ => (r.1, cmd.setResult r.2.2 r.2.1, false)
  | .recvBuff prev =>
      if m = .sendbuff true then
        let r := sh.peekPrev t prev
        (r.1, cmd.setResult r.2.2 r.2.1, false)
      else (sh, cmd.setResult (-13) .exception, true)
  | _ => (sh, cmd, false)

end Shared

end Aveo

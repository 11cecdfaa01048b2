import Aveo.Context.Pass

/-!
# The calls on a context

The methods of `Context` that user threads and VH functions call, as lists of the operations they
perform, in their order and cut where another thread can come in between. An instruction that
branches replaces itself by what follows in its branch. A pass started by a call is not in the list:
it is the phase of the calling thread until the call releases `prog_mtx`.
-/

namespace Aveo

/-- The sub-requests of a call with large arguments. -/
inductive Sub
  | write
  | call
  | read
  deriving DecidableEq

/-- The command that a call builds after it issued a request ID. -/
inductive Build
  | simpleCall
  | generic
  | sendBuff
  | recvBuff
  | callVH
  | synchronizeFunc
  | emptyTransfer
  | finaliser
  deriving DecidableEq

/-- The local variables of a call. `listed` tells whether `rem_reqid` has the ID of the command at hand,
`guards` counts the `lock_guard` objects on `submit_mtx` and `ctxGuard` tells whether there is one on
`ctx_mutex`. `mark` is the number of pushes before the call. -/
structure Regs where
  cur : Option Command
  listed : Bool
  req : ReqId
  prev : ReqId
  writereq : ReqId
  callreq : ReqId
  readreq : ReqId
  writestat : CommandState
  callstat : CommandState
  readstat : CommandState
  result : Word
  newpeerReq : Int
  guards : Nat
  ctxGuard : Bool
  mark : Nat

namespace Regs

def new (mark : Nat) : Regs :=
  { cur := none, listed := false, req := requestIdInvalid, prev := requestIdInvalid, writereq := requestIdInvalid,
    callreq := requestIdInvalid, readreq := requestIdInvalid, writestat := .ok, callstat := .ok,
    readstat := .ok, result := 0, newpeerReq := -1, guards := 0, ctxGuard := false, mark := mark }

def save (r : Regs) : Sub → Regs
  | .write => { r with writereq := r.req }
  | .call => { r with callreq := r.req }
  | .read => { r with readreq := r.req }

/-- What the finaliser keeps of a sub-request: the status, and the result of the call. -/
def seen (r : Regs) (status : CommandState) (val : Word) : Sub → Regs
  | .write => { r with writestat := status }
  | .call => { r with callstat := status, result := val }
  | .read => { r with readstat := status }

/-- The status that the finaliser sets: the first of write, call and read that is not OK. -/
def finalStatus (r : Regs) : CommandState :=
  if r.writestat ≠ .ok then r.writestat else if r.callstat ≠ .ok then r.callstat else r.readstat

end Regs

def Build.closure (b : Build) (r : Regs) : Closure :=
  match b with
  | .simpleCall => .simpleCall
  | .generic => .generic
  | .sendBuff => .sendBuff r.prev
  | .recvBuff => .recvBuff r.prev
  | .callVH => .callVH
  | .synchronizeFunc => .synchronizeFunc
  | .emptyTransfer => .emptyTransfer
  | .finaliser => .finaliser r.writereq r.callreq r.readreq

/-- The operations of calls. -/
inductive Instr
  /-- `if (!is_alive()) return VEO_REQUEST_ID_INVALID`, which skips the rest of the function. -/
  | isAlive (skip : Nat)
  /-- `issueRequestID`, up to the fetch-and-add on `seq_no`, and the command built with the ID. No call
  returns the ID if it is kept. -/
  | issue (b : Build) (kept : Bool)
  /-- `rem_reqid.insert` in `issueRequestID`. -/
  | remInsert
  /-- `setNowaitFlag` and `rem_reqid.erase` in `genericAsyncReq`. -/
  | setNowait
  /-- A `lock_guard` on `submit_mtx` begins or ends. -/
  | lockSubmit
  | unlockSubmit
  | reqBlockBegin
  | reqBlockEnd
  | pushRequest
  /-- `progress`: the test for commands in flight, then `try_lock`. -/
  | progress
  | progressTry
  | notifyAll
  /-- `prev = VEO_REQUEST_ID_INVALID`. -/
  | clearPrev
  /-- The request ID that a sub-call returned is kept. -/
  | save (sub : Sub)
  /-- `callPeekResult`: `try_lock`, then `_peekResult`. -/
  | peekTry (id : ReqId)
  | peekResult (id : ReqId)
  /-- `callWaitResult`: the loop with `try_lock` and `_peekResult`, then `notifyAll`, the test of
  `rem_reqid`, `waitCompletion`, and `rem_reqid.erase` with the command in the hand. -/
  | waitTry (id : ReqId)
  | waitPeek (id : ReqId)
  | waitNotify (id : ReqId)
  | waitCheck (id : ReqId)
  | waitCompletion (id : ReqId)
  | waitErase (id : ReqId) (c : Command)
  /-- `synchronize`: waits if the request ID is not zero, and returns. -/
  | syncWait
  | syncReturn
  /-- `_peekResult` on a sub-request in the finaliser. -/
  | finPeek (sub : Sub) (id : ReqId)
  /-- `close`: `terminate`, `pthread_join`, `state = VEO_STATE_EXIT`. -/
  | terminate
  | join
  | setExit
  /-- `openContext`: `ctx_mutex`, the NEWPEER request and the wait for its reply. -/
  | lockCtx
  | unlockCtx
  | newpeerSend
  | newpeerWait
  deriving DecidableEq

/-- `issueRequestID` and the push under the submission lock. -/
def issueAndPush (b : Build) (kept : Bool) : List Instr :=
  [.issue b kept, .remInsert, .lockSubmit, .pushRequest, .unlockSubmit]

/-- A function that begins with the test `is_alive`. -/
def ifAlive (body : List Instr) : List Instr := .isAlive body.length :: body

/-- `simpleCallAsync`. -/
def simpleCallAsync (kept : Bool) : List Instr :=
  ifAlive (issueAndPush .simpleCall kept ++ [.progress, .notifyAll])

/-- `genericAsyncReq`; URPC_CMD_ACS_PCIRCVSYC is flagged not to keep its result. -/
def genericAsyncReq (nowait : Bool) : List Instr :=
  ifAlive ([.issue .generic false, .remInsert] ++ (if nowait then [.setNowait] else []) ++
    [.lockSubmit, .pushRequest, .unlockSubmit, .progress, .notifyAll])

/-- `callVHAsync`. -/
def callVHAsync (b : Build) : List Instr :=
  ifAlive [.issue b false, .remInsert, .lockSubmit, .pushRequest, .notifyAll, .unlockSubmit]

/-- `sendBuffAsync` and `recvBuffAsync`. -/
def buffAsync (b : Build) : List Instr := ifAlive (issueAndPush b false)

/-- The loop of `asyncWriteMem` and `asyncReadMem` after the first fragment, and `notifyAll`. Only the
last request ID is returned, and it is kept too if the transfer is part of a call. -/
def fragments (b : Build) (kept : Bool) : Nat → List Instr
  | 0 => [.notifyAll]
  | k + 1 => ifAlive (issueAndPush b (kept || k ≠ 0) ++ fragments b kept k)

/-- `asyncWriteMem` and `asyncReadMem` of a size that is cut into `k` fragments; a size of zero
gives a VH command. -/
def asyncMem (b : Build) (kept : Bool) : Nat → List Instr
  | 0 => ifAlive (issueAndPush .emptyTransfer kept ++ [.notifyAll])
  | k + 1 =>
      ifAlive (.clearPrev ::
        ifAlive (issueAndPush b (kept || k ≠ 0) ++ .progress :: fragments b kept k))

/-- `doCallAsync` with arguments that do not fit one URPC command, `w` and `r` being the numbers of
fragments of the tail. -/
def largeCallAsync (copyin copyout : Bool) (w r : Nat) : List Instr :=
  [.lockSubmit] ++
  (if copyin then asyncMem .sendBuff true w ++ [.save .write] else []) ++
  simpleCallAsync true ++ [.save .call] ++
  (if copyout then asyncMem .recvBuff true r ++ [.save .read] else []) ++
  [.issue .finaliser false, .remInsert, .pushRequest, .progress, .notifyAll, .unlockSubmit]

/-- `synchronize`. -/
def synchronize : List Instr := callVHAsync .synchronizeFunc ++ [.syncWait, .syncReturn]

/-- `openContext` for a context beyond the first. -/
def openContext : List Instr :=
  [.lockCtx, .lockSubmit] ++ synchronize ++ [.newpeerSend, .newpeerWait, .unlockSubmit, .unlockCtx]

/-- `close`, up to the end of the progress thread and the change of state. -/
def close : List Instr := [.terminate, .join] ++ ifAlive [.setExit]

/-- The calls that a thread can make on a context. -/
inductive Call
  | callAsync
  | largeCallAsync (copyin copyout : Bool) (w r : Nat)
  | genericAsyncReq (nowait : Bool)
  | callVHAsync
  | sendBuffAsync (prev : ReqId)
  | recvBuffAsync (prev : ReqId)
  | asyncWriteMem (k : Nat)
  | asyncReadMem (k : Nat)
  | callPeekResult (id : ReqId)
  | callWaitResult (id : ReqId)
  | reqBlockBegin
  | reqBlockEnd
  | synchronize
  | openContext
  | close
  deriving DecidableEq

namespace Call

def code : Call → List Instr
  | .callAsync => ifAlive (simpleCallAsync false)
  | .largeCallAsync copyin copyout w r => ifAlive (Aveo.largeCallAsync copyin copyout w r)
  | .genericAsyncReq nowait => Aveo.genericAsyncReq nowait
  | .callVHAsync => Aveo.callVHAsync .callVH
  | .sendBuffAsync _ => buffAsync .sendBuff
  | .recvBuffAsync _ => buffAsync .recvBuff
  | .asyncWriteMem k => asyncMem .sendBuff false k
  | .asyncReadMem k => asyncMem .recvBuff false k
  | .callPeekResult id => [.peekTry id]
  | .callWaitResult id => [.waitTry id]
  | .reqBlockBegin => [.reqBlockBegin]
  | .reqBlockEnd => [.reqBlockEnd]
  | .synchronize => Aveo.synchronize
  | .openContext => Aveo.openContext
  | .close => Aveo.close

/-- The local variables at the start of a call. -/
def regs (mark : Nat) : Call → Regs
  | .sendBuffAsync prev | .recvBuffAsync prev => { Regs.new mark with prev := prev }
  | _ => Regs.new mark

end Call

/-- What a call does after its pass: goes on, or continues the loop of `callWaitResult`. -/
inductive After
  | resume
  | wait (id : ReqId)
  deriving DecidableEq

/-- A thread executes its code, runs a pass, or is about to release `prog_mtx` after one. -/
inductive Phase
  | run
  | inPass (p : PassPc) (k : After)
  | unlock (rv : Int) (k : After)
  deriving DecidableEq

/-- A thread in a call. -/
structure Api where
  phase : Phase
  code : List Instr
  regs : Regs

namespace Api

def idle : Api := { phase := .run, code := [], regs := .new 0 }

/-- The code that the destructors of the live `lock_guard` objects run when an exception leaves the
call. -/
def unwind (r : Regs) : List Instr :=
  List.replicate r.guards .unlockSubmit ++ (if r.ctxGuard then [.unlockCtx] else [])

end Api

end Aveo

import Mathlib.Algebra.Group.Int.Defs
import Mathlib.Algebra.Group.Nat.Defs
import Mathlib.Data.List.Basic

/-!
# Commands

`Command.hpp` and `CommandImpl.hpp`. A command is identified by its request ID and carries its
result, its status and the closures that its submitting call built. A closure is kept here as the
call it comes from together with the request IDs it captures: the requests whose results it
retrieves when it runs.
-/

namespace Aveo

abbrev Word := BitVec 64

/-- `veo_command_state`. -/
inductive CommandState
  | ok
  | exception
  | error
  | unfinished
  deriving DecidableEq, Repr

/-- A request ID. `seq_no` is a 64-bit counter that is assumed not to wrap. -/
abbrev ReqId := Nat

/-- `VEO_REQUEST_ID_INVALID`. -/
def requestIdInvalid : ReqId := 2 ^ 64 - 1

/-- Where the closures of a command come from, with the request IDs they capture. -/
inductive Closure
  | simpleCall
  | generic
  | sendBuff (prev : ReqId)
  | recvBuff (prev : ReqId)
  | callVH
  | synchronizeFunc
  | emptyTransfer
  | finaliser (writereq callreq readreq : ReqId)
  deriving DecidableEq, Repr

namespace Closure

/-- `CommandImpl` has an unpack function exactly for the commands that go to the VE. -/
def isVH : Closure → Bool
  | .simpleCall | .generic | .sendBuff _ | .recvBuff _ => false
  | .callVH | .synchronizeFunc | .emptyTransfer | .finaliser _ _ _ => true

/-- The requests whose results the closures retrieve. -/
def captured : Closure → List ReqId
  | .sendBuff prev | .recvBuff prev => [prev].filter (· ≠ requestIdInvalid)
  | .finaliser writereq callreq readreq =>
      [writereq, callreq, readreq].filter (· ≠ requestIdInvalid)
  | _ => []

end Closure

/-- `Command` with its implementation. -/
structure Command where
  msgid : ReqId
  retval : Word
  urpcReq : Int
  status : CommandState
  nowait : Bool
  closure : Closure
  deriving DecidableEq, Repr

namespace Command

/-- The constructor of `CommandImpl`. It leaves the result, the status and the URPC request unset. -/
def new (id : ReqId) (closure : Closure) : Command :=
  { msgid := id, retval := 0, urpcReq := 0, status := .unfinished, nowait := false, closure := closure }

def setURPCReq (cmd : Command) (req : Int) (s : CommandState) : Command :=
  { cmd with urpcReq := req, status := s }

def setResult (cmd : Command) (r : Word) (s : CommandState) : Command :=
  { cmd with retval := r, status := s }

def setNowaitFlag (cmd : Command) (flg : Bool) : Command := { cmd with nowait := flg }

def isVH (cmd : Command) : Bool := cmd.closure.isVH

@[simp] theorem setURPCReq_msgid (cmd : Command) (req : Int) (s : CommandState) :
    (cmd.setURPCReq req s).msgid = cmd.msgid := rfl

@[simp] theorem setURPCReq_urpcReq (cmd : Command) (req : Int) (s : CommandState) :
    (cmd.setURPCReq req s).urpcReq = req := rfl

@[simp] theorem setURPCReq_nowait (cmd : Command) (req : Int) (s : CommandState) :
    (cmd.setURPCReq req s).nowait = cmd.nowait := rfl

@[simp] theorem setURPCReq_closure (cmd : Command) (req : Int) (s : CommandState) :
    (cmd.setURPCReq req s).closure = cmd.closure := rfl

@[simp] theorem setResult_msgid (cmd : Command) (r : Word) (s : CommandState) :
    (cmd.setResult r s).msgid = cmd.msgid := rfl

@[simp] theorem setResult_urpcReq (cmd : Command) (r : Word) (s : CommandState) :
    (cmd.setResult r s).urpcReq = cmd.urpcReq := rfl

@[simp] theorem setResult_nowait (cmd : Command) (r : Word) (s : CommandState) :
    (cmd.setResult r s).nowait = cmd.nowait := rfl

@[simp] theorem setResult_closure (cmd : Command) (r : Word) (s : CommandState) :
    (cmd.setResult r s).closure = cmd.closure := rfl

@[simp] theorem setResult_status (cmd : Command) (r : Word) (s : CommandState) :
    (cmd.setResult r s).status = s := rfl

end Command

end Aveo

import Aveo.Context.State

/-!
# Progress passes

`Context::_progress_nolock`, cut at the operations that other threads can see. A pass polls for a
reply; a reply leads through its command and its result function to the completion map, no reply to
an attempt to submit the first request of the queue. The pass ends when a turn of its loop neither
received nor sent anything, when it meets a VH command that it must defer, or after a failure that
cancels everything.
-/

namespace Aveo

open Lib

/-- Where a pass is. The command in a constructor is in the hand of the pass. -/
inductive PassPc
  /-- At `urpc_get_cmd`. -/
  | poll
  /-- At `popInFlight` with a reply. -/
  | reply (req : Int) (m : Reply)
  /-- At the result function. -/
  | unpack (cmd : Command) (m : Reply)
  /-- After the result function. -/
  | received (cmd : Command) (failed : Bool)
  /-- At `state = VEO_STATE_EXIT`. -/
  | failed
  /-- In `cancelAll`: at `request.popNoWait`, and at `completion.insert` with a request. -/
  | cancelRequest
  | cancelledRequest (cmd : Command)
  /-- In `cancelAll`: at `inflight.popNoWait`, and at `completion.insert` with what was in flight. -/
  | cancelInflight
  | cancelledInflight (cmd : Command)
  /-- At `tryPopRequest`. -/
  | tryPop
  /-- At the test for a VH command and the submit function. -/
  | popped (cmd : Command)
  /-- At `pushInFlight`. -/
  | submitted (cmd : Command)
  /-- At `pushRequestFront`; a deferred VH command ends the pass. -/
  | putBack (cmd : Command) (defer : Bool)
  /-- At `pushCompletion` after a submit function that failed. -/
  | rejected (cmd : Command)
  /-- At `pushCompletion` after a VH function. -/
  | executed (cmd : Command)
  /-- At the test for a terminated VE process. -/
  | idle
  deriving DecidableEq

/-- What a step of a pass leads to. -/
inductive PassOut
  | next (p : PassPc)
  | ret (rv : Int)
  | startVH (cmd : Command)
  | throws
  deriving DecidableEq

/-- What the environment or the scheduler decides in a step. Where nothing is decided, or the
default happens, it is `tau`. -/
inductive Env
  | tau
  /-- `urpc_get_cmd` returns a reply. -/
  | reply (req : Int) (m : Reply)
  /-- `urpc_next_send_slot` fails. -/
  | noSlot
  /-- `urpc_generic_send` returns a request number, `-EAGAIN`, or another error. -/
  | sent (req : Int)
  | again
  | refused
  /-- `inflight.popNoWait` takes the entry of this request; the order of the map is not specified. -/
  | pick (req : Int)
  /-- `waitpid` finds the VE process terminated. -/
  | dead
  /-- The receiver flag says that the VE side has exited. -/
  | exited
  /-- A VH function returns. -/
  | vhReturn (val : Word)
  /-- The condition variable wakes without a notification. -/
  | spurious
  /-- A blocking receive times out. -/
  | timeout
  /-- A VH function does not catch an exception. -/
  | uncaught
  deriving DecidableEq

namespace Shared

variable {n : Nat}

/-- URPC accepts a request: the number is new and fits in an `int`. -/
def accepts (sh : Shared n) (req : Int) : Bool := req ∉ sh.used && 0 ≤ req && req < 2 ^ 31

/-- A request number is handed out. -/
def send (sh : Shared n) (req : Int) : Shared n :=
  { sh with pending := sh.pending ++ [req], used := req :: sh.used }

end Shared

/-- One step of `_progress_nolock(execVH)` on thread `t`. -/
def passStep {n : Nat} (execVH : Bool) (t : Tid n) (sh : Shared n) : PassPc → Env → Option (Shared n × PassOut)
  | .poll, .reply req m =>
      if req ∈ sh.pending then some ({ sh with pending := sh.pending.erase req }, .next (.reply req m))
      else none
  | .poll, .noSlot => some (sh, .ret 0)
  | .poll, .tau => some (sh, .next .tryPop)
  | .reply req m, .tau =>
      match sh.comq.popInFlight req with
      | none => some ({ sh with thrown := true }, .throws)
      | some (cmd, q) => some ({ sh with comq := q }, .next (.unpack cmd m))
  | .unpack cmd m, .tau =>
      let r := sh.unpack t cmd m
      some (r.1, .next (.received r.2.1 r.2.2))
  | .received cmd failed, .tau =>
      let sh' := if cmd.nowait then sh.emit (.discard cmd.msgid)
        else { sh with comq := sh.comq.pushCompletion cmd }
      some (sh', .next (if failed then .failed else .poll))
  | .failed, .tau => some ({ sh with state := .exit }, .next .cancelRequest)
  | .cancelRequest, .tau =>
      match sh.comq.tryPopRequest with
      | none => some (sh, .next .cancelInflight)
      | some (cmd, q) =>
          some ({ sh with comq := q, log := sh.log ++ [.cancel cmd.msgid true] }, .next (.cancelledRequest cmd))
  | .cancelledRequest cmd, .tau =>
      some ({ sh with comq := sh.comq.pushCompletion (cmd.setResult 0 .error) }, .next .cancelRequest)
  | .cancelInflight, .pick req =>
      match sh.comq.popInFlight req with
      | none => none
      | some (cmd, q) =>
          some ({ sh with comq := q, log := sh.log ++ [.cancel cmd.msgid false] }, .next (.cancelledInflight cmd))
  | .cancelInflight, .tau => if sh.comq.emptyInFlight then some (sh, .ret (-1)) else none
  | .cancelledInflight cmd, .tau =>
      some ({ sh with comq := sh.comq.pushCompletion (cmd.setResult 0 .error) }, .next .cancelInflight)
  | .tryPop, .tau =>
      match sh.comq.tryPopRequest with
      | none => some (sh, .next .idle)
      | some (cmd, q) => some ({ sh with comq := q }, .next (.popped cmd))
  | .popped cmd, .tau =>
      if cmd.isVH then
        if sh.comq.emptyInFlight && execVH then some (sh.emit (.vhStart cmd.msgid), .startVH cmd)
        else some (sh, .next (.putBack cmd true))
      else none
  | .popped cmd, .sent req =>
      if !cmd.isVH && sh.accepts req then
        some ((sh.send req).emit (.submit cmd.msgid req), .next (.submitted (cmd.setURPCReq req .unfinished)))
      else none
  | .popped cmd, .again => if cmd.isVH then none else some (sh, .next (.putBack cmd false))
  | .popped cmd, .refused =>
      if cmd.isVH then none
      else some (sh.emit (.reject cmd.msgid), .next (.rejected ((cmd.setResult 0 .error).setResult (-1) .error)))
  | .submitted cmd, .tau => some ({ sh with comq := sh.comq.pushInFlight cmd }, .next .poll)
  | .putBack cmd defer, .tau =>
      some ({ sh with comq := sh.comq.pushRequestFront cmd }, if defer then .ret 1 else .next .idle)
  | .rejected cmd, .tau => some ({ sh with comq := sh.comq.pushCompletion cmd }, .next .idle)
  | .executed cmd, .tau => some ({ sh with comq := sh.comq.pushCompletion cmd }, .next .poll)
  | .idle, .tau =>
      if sh.count % 100 = 0 && !sh.procSurvival then some (sh, .next .failed)
      else some ({ sh with count := sh.count + 1 }, .ret 0)
  | .idle, .dead =>
      if sh.count % 100 = 0 && sh.procSurvival then some ({ sh with procSurvival := false }, .next .failed)
      else none
  | _, _ => none

/-- The command in the hand of a pass. -/
def PassPc.hand : PassPc → Option Command
  | .unpack cmd _ | .received cmd _ | .cancelledRequest cmd | .cancelledInflight cmd | .popped cmd
  | .submitted cmd | .putBack cmd _ | .rejected cmd | .executed cmd => some cmd
  | _ => none

/-- The command in the hand of a pass, or of the progress thread, after a step. -/
def PassOut.hand : PassOut → Option Command
  | .next p => p.hand
  | .startVH cmd => some cmd
  | _ => none

/-- The command in the hand of a pass with the result that the completion map gets. -/
def PassPc.result : PassPc → Option Command
  | .received cmd _ | .rejected cmd | .executed cmd => some cmd
  | .cancelledRequest cmd | .cancelledInflight cmd => some (cmd.setResult 0 .error)
  | _ => none

/-- The command that a pass took from the queue and has not decided about. -/
def PassPc.undecided : PassPc → Option Command
  | .popped cmd | .putBack cmd _ => some cmd
  | _ => none

end Aveo

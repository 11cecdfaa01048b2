import Aveo.Context.Calls
import Aveo.Lib.Machine

/-!
# The machine of a context

The state of all threads of a context and one step of one of them. A user thread that is in no call
may start any call. The progress thread runs `progress_main`; while it is inside a VH function of a
user, that function may make calls too, and these are the calls of thread `none`. A pass started by
a call is made with `execVH = false` and one of `progressExec` with `execVH = true`, so a VH function
never runs inside another one.
-/

namespace Aveo

open Lib

variable {n : Nat}

/-- Where the progress thread is in `progress_main`. -/
inductive Main
  /-- At `waitRequest`. -/
  | waitRequest
  /-- Inside `req_fli_cond.wait`. -/
  | cvWait
  /-- `progressExec`: at the lock, at `isActive`, in a pass, in a VH function, at the unlock. -/
  | execLock
  | execTest
  | pass (p : PassPc)
  | vh (cmd : Command)
  | execUnlock
  /-- At the test for VEO_STATE_EXIT. -/
  | stateTest
  | exited
  deriving DecidableEq

structure State (n : Nat) where
  sh : Shared n
  main : Main
  api : Tid n → Api

namespace State

def new (n : Nat) : State n := { sh := .new n, main := .waitRequest, api := fun _ => .idle }

def setApi (s : State n) (t : Tid n) (a : Api) : State n := { s with api := Function.update s.api t a }

end State

/-- One instruction of a call on thread `t`: the shared state and the thread after it. `exited` tells
whether the progress thread has ended. -/
def exec (t : Tid n) (exited : Bool) (sh : Shared n) (r : Regs) (rest : List Instr) :
    Instr → Env → Option (Shared n × Api)
  | .isAlive skip, .tau =>
      if sh.state = .exit then some (sh, ⟨.run, rest.drop skip, { r with req := requestIdInvalid }⟩)
      else some (sh, ⟨.run, rest, r⟩)
  | .isAlive skip, .exited => some (sh, ⟨.run, rest.drop skip, { r with req := requestIdInvalid }⟩)
  | .issue b kept, .tau =>
      if sh.seqNo < requestIdInvalid then
        some ({ sh with
            seqNo := sh.seqNo + 1
            internal := if kept then sh.seqNo :: sh.internal else sh.internal },
          ⟨.run, rest,
            { r with cur := some (.new sh.seqNo (b.closure r)), listed := false, req := sh.seqNo, prev := sh.seqNo }⟩)
      else none
  | .remInsert, .tau => some ({ sh with remReqid := sh.remReqid.insert r.req }, ⟨.run, rest, { r with listed := true }⟩)
  | .setNowait, .tau =>
      r.cur.map fun cmd =>
        (({ sh with remReqid := sh.remReqid.erase cmd.msgid } : Shared n).emit (.nowait cmd.msgid),
          ⟨.run, rest, { r with cur := some (cmd.setNowaitFlag true) }⟩)
  | .lockSubmit, .tau =>
      (sh.submitMtx.tryLock t).map fun m =>
        ({ sh with submitMtx := m, holds := if sh.submitMtx.depth t = 0 then sh.holds + 1 else sh.holds },
          ⟨.run, rest, { r with guards := r.guards + 1 }⟩)
  | .unlockSubmit, .tau =>
      (sh.submitMtx.unlock t).map fun m =>
        ({ sh with submitMtx := m }, ⟨.run, rest, { r with guards := r.guards - 1 }⟩)
  | .reqBlockBegin, .tau =>
      (sh.submitMtx.tryLock t).map fun m =>
        ({ sh with submitMtx := m, holds := if sh.submitMtx.depth t = 0 then sh.holds + 1 else sh.holds },
          ⟨.run, rest, r⟩)
  | .reqBlockEnd, .tau => (sh.submitMtx.unlock t).map fun m => ({ sh with submitMtx := m }, ⟨.run, rest, r⟩)
  | .pushRequest, .tau =>
      r.cur.map fun cmd =>
        ({ sh with comq := sh.comq.pushRequest cmd, log := sh.log ++ [.push t sh.holds cmd.msgid cmd.closure] },
          ⟨.run, rest, { r with cur := none }⟩)
  | .progress, .tau =>
      if sh.comq.emptyInFlight then some (sh, ⟨.run, .progressTry :: rest, r⟩) else some (sh, ⟨.run, rest, r⟩)
  | .progressTry, .tau =>
      match sh.progMtx.tryLock t with
      | some m => some ({ sh with progMtx := m }, ⟨.inPass .poll .resume, rest, r⟩)
      | none => some (sh, ⟨.run, rest, r⟩)
  | .notifyAll, .tau => some ({ sh with comq := sh.comq.notifyAll }, ⟨.run, rest, r⟩)
  | .clearPrev, .tau => some (sh, ⟨.run, rest, { r with prev := requestIdInvalid }⟩)
  | .save sub, .tau => some (sh, ⟨.run, rest, r.save sub⟩)
  | .peekTry id, .tau =>
      match sh.progMtx.tryLock t with
      | some m => some ({ sh with progMtx := m }, ⟨.inPass .poll .resume, .peekResult id :: rest, r⟩)
      | none => some (sh, ⟨.run, .peekResult id :: rest, r⟩)
  | .peekResult id, .tau =>
      let p := sh.peekResult t id
      some (p.1.emit (.answer t id p.2.1), ⟨.run, rest, r⟩)
  | .waitTry id, .tau =>
      match sh.progMtx.tryLock t with
      | some m => some ({ sh with progMtx := m }, ⟨.inPass .poll (.wait id), rest, r⟩)
      | none => some (sh, ⟨.run, .waitNotify id :: rest, r⟩)
  | .waitPeek id, .tau =>
      let p := sh.peekResult t id
      if p.2.1 = .unfinished then some (p.1, ⟨.run, .waitTry id :: rest, r⟩)
      else some (p.1.emit (.answer t id p.2.1), ⟨.run, rest, r⟩)
  | .waitNotify id, .tau => some ({ sh with comq := sh.comq.notifyAll }, ⟨.run, .waitCheck id :: rest, r⟩)
  | .waitCheck id, .tau =>
      if id ∈ sh.remReqid then some (sh, ⟨.run, .waitCompletion id :: rest, r⟩)
      else some (sh.emit (.answer t id .error), ⟨.run, rest, r⟩)
  | .waitCompletion id, .tau =>
      (sh.comq.peekCompletion id).map fun p =>
        ({ sh with comq := p.2, log := sh.log ++ [.deliver t id] }, ⟨.run, .waitErase id p.1 :: rest, r⟩)
  | .waitErase id c, .tau =>
      if id ∈ sh.remReqid then
        some (({ sh with remReqid := sh.remReqid.erase id } : Shared n).emit (.answer t id c.status), ⟨.run, rest, r⟩)
      else some (sh.emit (.answer t id .error), ⟨.run, rest, r⟩)
  | .syncWait, .tau =>
      if r.req ≠ 0 then some (sh, ⟨.run, .waitTry r.req :: rest, r⟩) else some (sh, ⟨.run, rest, r⟩)
  | .syncReturn, .tau => some (sh.emit (.syncReturn t r.req r.mark), ⟨.run, rest, r⟩)
  | .finPeek sub id, .tau =>
      let p := sh.peekResult t id
      some (p.1, ⟨.run, rest, r.seen p.2.1 p.2.2 sub⟩)
  | .terminate, .tau => some ({ sh with comq := sh.comq.terminate }, ⟨.run, rest, r⟩)
  | .join, .tau => if exited then some (sh, ⟨.run, rest, r⟩) else none
  | .setExit, .tau => some ({ sh with state := .exit }, ⟨.run, rest, r⟩)
  | .lockCtx, .tau =>
      if sh.ctxMutex = none then
        some ({ sh with ctxMutex := some (t, 0) }, ⟨.run, rest, { r with ctxGuard := true }⟩)
      else none
  | .unlockCtx, .tau => some ({ sh with ctxMutex := none }, ⟨.run, rest, { r with ctxGuard := false }⟩)
  | .newpeerSend, .sent req =>
      if sh.accepts req then
        some ({ sh.send req with direct := req :: sh.direct }, ⟨.run, rest, { r with newpeerReq := req }⟩)
      else none
  | .newpeerSend, .refused => some (sh, ⟨.run, rest.drop 1, r⟩)
  | .newpeerWait, .tau =>
      if r.newpeerReq ∈ sh.pending then
        some ({ sh with pending := sh.pending.erase r.newpeerReq }, ⟨.run, rest, r⟩)
      else none
  | .newpeerWait, .timeout => some (sh, ⟨.run, rest, r⟩)
  | _, _ => none

/-- What is left to do in a call after a pass that it made. -/
def After.code (k : After) (rv : Int) (rest : List Instr) : List Instr :=
  match k with
  | .resume => rest
  | .wait id => if 0 < rv then .waitNotify id :: rest else .waitPeek id :: rest

/-- A thread after a step of a pass that it makes in a call. An exception unwinds the call; in a VH
function that does not catch it the process terminates. -/
def Api.afterPass (a : Api) (t : Tid n) (k : After) (uncaught : Bool) (sh : Shared n) :
    PassOut → Option (Shared n × Api)
  | .next p => some (sh, { a with phase := .inPass p k })
  | .ret rv => some (sh, { a with phase := .unlock rv k })
  | .throws =>
      if uncaught && t = none then some ({ sh with terminated := true }, a)
      else some (sh, { a with phase := .run, code := Api.unwind a.regs })
  | .startVH _ => none

/-- A step of a thread inside a call. -/
def apiStep (t : Tid n) (exited : Bool) (sh : Shared n) (a : Api) (env : Env) : Option (Shared n × Api) :=
  match a.phase with
  | .run =>
      match a.code with
      | [] => none
      | i :: rest => exec t exited sh a.regs rest i env
  | .inPass p k =>
      (passStep false t sh p (if env = .uncaught then .tau else env)).bind fun r =>
        a.afterPass t k (env = .uncaught) r.1 r.2
  | .unlock rv k =>
      (sh.progMtx.unlock t).map fun m => ({ sh with progMtx := m }, { a with phase := .run, code := k.code rv a.code })

/-- The code of the VH function of a command: the finaliser retrieves its sub-requests, and a function
of the user makes calls. -/
def vhCode : Closure → List Instr
  | .finaliser writereq callreq readreq =>
      (if writereq ≠ requestIdInvalid then [.finPeek .write writereq] else []) ++
      (if callreq ≠ requestIdInvalid then [.finPeek .call callreq] else []) ++
      (if readreq ≠ requestIdInvalid then [.finPeek .read readreq] else [])
  | _ => []

/-- The command after its VH function returned. -/
def vhResult (cmd : Command) (r : Regs) (val : Word) : Command :=
  match cmd.closure with
  | .callVH => cmd.setResult val .ok
  | .finaliser _ _ _ => cmd.setResult r.result r.finalStatus
  | _ => cmd.setResult 0 .ok

/-- The context after a step of a pass of the progress thread, on which an exception is fatal. -/
def State.afterPass (s : State n) (sh : Shared n) : PassOut → State n
  | .next p => { s with sh := sh, main := .pass p }
  | .ret _ => { s with sh := sh, main := .execTest }
  | .startVH cmd =>
      ({ s with sh := sh, main := .vh cmd } : State n).setApi none
        { phase := .run, code := vhCode cmd.closure, regs := .new 0 }
  | .throws => { s with sh := { sh with terminated := true } }

/-- A step of the progress thread in `progress_main`. -/
def mainStep (s : State n) (env : Env) : Option (State n) :=
  match s.main, env with
  | .waitRequest, .tau =>
      if s.sh.comq.request.isEmpty && s.sh.comq.inflight.isEmpty && !s.sh.comq.terminateFlag then
        some { s with sh := { s.sh with comq := { s.sh.comq with reqFliCond := .sleeping } }, main := .cvWait }
      else some { s with main := if s.sh.comq.terminateFlag then .exited else .execLock }
  | .cvWait, env =>
      if (env = .tau ∧ s.sh.comq.reqFliCond = .notified) ∨ env = .spurious then
        some { s with
          sh := { s.sh with comq := { s.sh.comq with reqFliCond := .idle } }
          main := if s.sh.comq.terminateFlag then .exited else .execLock }
      else none
  | .execLock, .tau =>
      (s.sh.progMtx.tryLock none).map fun m => { s with sh := { s.sh with progMtx := m }, main := .execTest }
  | .execTest, .tau => some { s with main := if s.sh.comq.isActive then .pass .poll else .execUnlock }
  | .pass p, env => (passStep true none s.sh p env).map fun r => s.afterPass r.1 r.2
  | .vh cmd, .vhReturn val =>
      if (s.api none).phase = .run ∧ (s.api none).code = [] then
        some { s with
          sh := s.sh.emit (.vhReturn cmd.msgid)
          main := .pass (.executed (vhResult cmd (s.api none).regs val)) }
      else none
  | .execUnlock, .tau =>
      (s.sh.progMtx.unlock none).map fun m => { s with sh := { s.sh with progMtx := m }, main := .stateTest }
  | .stateTest, .tau => some { s with main := if s.sh.state = .exit then .exited else .waitRequest }
  | _, _ => none

/-- The progress thread is inside a VH function of the user. -/
def Main.inUserVH : Main → Bool
  | .vh cmd => cmd.closure = .callVH
  | _ => false

/-- A thread may start a call: a user thread at any time, the progress thread in a VH function. -/
def State.mayCall (s : State n) : Tid n → Bool
  | none => s.main.inUserVH
  | some _ => true

/-- A step: the progress thread goes on in `progress_main`, a thread goes on in its call, or a thread
starts a call. -/
inductive Label (n : Nat)
  | main (env : Env)
  | api (t : Tid n) (env : Env)
  | call (t : Tid n) (c : Call)
  deriving DecidableEq

def State.step (s : State n) (l : Label n) : Option (State n) :=
  if s.sh.terminated then none
  else match l with
    | .main env => mainStep s env
    | .api t env =>
        (apiStep t (s.main = .exited) s.sh (s.api t) env).map fun r => { s with sh := r.1 }.setApi t r.2
    | .call t c =>
        if (s.api t).phase = .run ∧ (s.api t).code = [] ∧ s.mayCall t = true then
          some (s.setApi t { phase := .run, code := c.code, regs := c.regs (pushedIds s.sh.log).length })
        else none

/-- The machine of a context that `n` user threads share. -/
def context (n : Nat) : Machine (State n) (Label n) where
  init s := s = .new n
  step := State.step

end Aveo

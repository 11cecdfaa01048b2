import Aveo.Progress.Pipeline
import Aveo.Progress.Retrieval

/-!
# Destroying a process

`ProcHandle::exitProc` closes the contexts of a process while it holds `__procs_mtx` and `ctx_mutex`, and `close` joins
the progress thread. A VH command of `veo_alloc_mem_async` or `veo_free_mem_async` with the hooks of
`veo_register_hmem_hook_functions` asks on that thread for the identifier of the process, under `__procs_mtx`.

The machine is the product of the machines of the contexts; thread `x` destroys the process. The hooks are registered
before the process starts. User threads and VH functions may at any time call a function that locks one of the two mutexes:
`_getProcIdentifier`, `numProcs`, `getProcHandle` and the constructor lock `__procs_mtx`, and `numContexts`, `getContext`,
`delContext` and `accessPciRecvSyncRegister` lock `ctx_mutex`. Of such a call the machine has the wait for the mutex and
the time in which it is held, however long. `openContext` is a call of the main context and has its own steps.
-/

namespace Aveo

open Lib

/-- Where a thread is in `veo_alloc_mem_async` or `veo_free_mem_async`. -/
inductive MemAsyncPc (k : Nat)
  | idle
  /-- In `genericAsyncReq` of a context. -/
  | request (c : Fin (k + 1))
  /-- In `veo_call_async_vh`, with the request whose result the helper will wait for. -/
  | vh (c : Fin (k + 1)) (req : ReqId)
  deriving DecidableEq

/-- Where a progress thread is in `_alloc_mem_async_hook` or `_free_mem_async_hook`. -/
inductive HookPc
  /-- In neither, or at its `callWaitResult`. -/
  | start
  | wait (req : ReqId)
  /-- At the lock in `_getProcIdentifier`. -/
  | ident
  /-- At the search in the table. -/
  | locked
  /-- In the function of the user that was registered. -/
  | called
  | ret
  deriving DecidableEq

/-- The mutexes `__procs_mtx` and `ctx_mutex`. -/
inductive ProcMutex
  | procs
  | ctx
  deriving DecidableEq

/-- A thread that may call a function of the process: the progress thread of a context, in a VH function, or a user
thread. -/
inductive Caller (k n : Nat)
  | progress (c : Fin (k + 1))
  | user (u : Fin n)
  deriving DecidableEq

/-- Where a thread is in a function that locks one of the mutexes: in none, at the lock, or behind it. -/
inductive LockPc
  | out
  | wait (m : ProcMutex)
  | held (m : ProcMutex)
  deriving DecidableEq

/-- Where thread `x` is in `exitProc`. -/
inductive ExitPc (k : Nat)
  | idle
  /-- At the lock of `__procs_mtx`, and at that of `ctx_mutex`. -/
  | lockProcs
  | lockCtx
  /-- At the next context of the loop, or at the main context, which comes last. -/
  | loop (todo : List (Fin (k + 1)))
  /-- In `close` of a context. -/
  | close (c : Fin (k + 1)) (todo : List (Fin (k + 1)))
  | done
  deriving DecidableEq

namespace ExitPc

variable {k : Nat}

def holdsProcs : ExitPc k → Bool
  | .lockCtx | .loop _ | .close _ _ => true
  | _ => false

def holdsCtx : ExitPc k → Bool
  | .loop _ | .close _ _ => true
  | _ => false

/-- Thread `x` is in `exitProc`. -/
def running : ExitPc k → Bool
  | .idle | .done => false
  | _ => true

end ExitPc

/-- The status that a thread was last told for a request. -/
def Shared.answerTo {n : Nat} (sh : Shared n) (t : Tid n) (id : ReqId) : Option CommandState :=
  sh.log.reverse.findSome? fun e =>
    match e with
    | .answer t' id' status => if t' = t ∧ id' = id then some status else none
    | _ => none

/-- A process with its contexts, the main context being context 0. `hooked` has the VH requests of the helpers, each
with the request that it waits for. -/
structure ProcHandle (k n : Nat) where
  ctx : Fin (k + 1) → State n
  exitPc : ExitPc k
  memAsync : Fin n → MemAsyncPc k
  hooked : Fin (k + 1) → List (ReqId × ReqId)
  hook : Fin (k + 1) → HookPc
  lock : Caller k n → LockPc

namespace ProcHandle

variable {k n : Nat}

def new (k n : Nat) : ProcHandle k n where
  ctx _ := .new n
  exitPc := .idle
  memAsync _ := .idle
  hooked _ := []
  hook _ := .start
  lock _ := .out

inductive Label (k n : Nat)
  /-- A thread of a context takes a step. -/
  | ctx (c : Fin (k + 1)) (l : Aveo.Label n)
  /-- Thread `x` calls `exitProc` or goes on in it. -/
  | exitProc
  /-- A user thread calls `veo_alloc_mem_async` or `veo_free_mem_async`, and goes on after one of its requests; or
  an exception has left `genericAsyncReq`. -/
  | memAsync (c : Fin (k + 1)) (u : Fin n)
  | memNext (u : Fin n)
  | memCatch (u : Fin n)
  /-- A progress thread goes on in a helper, whose result is `val`. -/
  | hook (c : Fin (k + 1)) (val : Word)
  /-- A thread calls a function that locks a mutex, and goes on in it. -/
  | lock (t : Caller k n) (m : ProcMutex)
  | lockNext (t : Caller k n)
  deriving DecidableEq

/-- A thread is in no call on a context. -/
def idleIn (s : ProcHandle k n) (t : Tid n) (c : Fin (k + 1)) : Bool :=
  ((s.ctx c).api t).phase = .run && ((s.ctx c).api t).code.isEmpty

/-- A user thread is in no call at all. -/
def free (x : Fin n) (s : ProcHandle k n) (u : Fin n) : Bool :=
  (decide (∀ c, s.idleIn (some u) c = true) && s.memAsync u = .idle) && s.lock (.user u) = .out && !(u = x && s.exitPc.running)

/-- The request that the helper waits for which the progress thread of a context runs. -/
def helper (s : ProcHandle k n) (c : Fin (k + 1)) : Option ReqId :=
  match (s.ctx c).main with
  | .vh cmd => (s.hooked c).lookup cmd.msgid
  | _ => none

/-- A VH function of the user has the progress thread: it is none of the helpers, or the function that a helper has called,
and it is in no function that locks a mutex. -/
def userVH (s : ProcHandle k n) (c : Fin (k + 1)) : Bool :=
  ((s.helper c).isNone || s.hook c = .called) && s.lock (.progress c) = .out

/-- A thread is where it may call a function of the process. -/
def mayLock (x : Fin n) (s : ProcHandle k n) : Caller k n → Bool
  | .progress c => (s.ctx c).mayCall none && s.idleIn none c && s.userVH c
  | .user u => s.free x u

/-- No thread is in a function that has locked the mutex. -/
def notHeld (s : ProcHandle k n) (m : ProcMutex) : Bool :=
  decide (∀ c, s.lock (.progress c) ≠ .held m) && decide (∀ u, s.lock (.user u) ≠ .held m)

def mutexFree (s : ProcHandle k n) : ProcMutex → Bool
  | .procs => !s.exitPc.holdsProcs && decide (∀ c, s.hook c ≠ .locked) && s.notHeld .procs
  | .ctx => !s.exitPc.holdsCtx && (s.ctx 0).sh.ctxMutex = none && s.notHeld .ctx

/-- A step of a context is one of a thread that is not outside in `exitProc`, `veo_alloc_mem_async`, a helper or a function
that locks a mutex. `openContext` works on the main context and waits for `ctx_mutex`. -/
def allows (x : Fin n) (s : ProcHandle k n) (c : Fin (k + 1)) : Aveo.Label n → Bool
  | .main (.vhReturn _) => (s.helper c).isNone && s.lock (.progress c) = .out
  | .main _ => true
  | .call none call => s.userVH c && (call ≠ .openContext || c = 0)
  | .call (some u) call => s.free x u && (call ≠ .openContext || c = 0)
  | .api t _ => ((s.ctx c).api t).code.head? ≠ some .lockCtx || s.mutexFree .ctx

def setCtx (s : ProcHandle k n) (c : Fin (k + 1)) (st : State n) : ProcHandle k n :=
  { s with ctx := Function.update s.ctx c st }

/-- The VH request that a step of a context pushed in `veo_alloc_mem_async` or `veo_free_mem_async`. -/
def pushedHook (s : ProcHandle k n) (c : Fin (k + 1)) (st : State n) : List (ReqId × ReqId) :=
  match (st.sh.log.drop (s.ctx c).sh.log.length).head? with
  | some (.push (some u) _ id _) =>
      match s.memAsync u with
      | .vh c' req => if c' = c then [(id, req)] else []
      | _ => []
  | _ => []

def stepCtx (x : Fin n) (s : ProcHandle k n) (c : Fin (k + 1)) (l : Aveo.Label n) : Option (ProcHandle k n) :=
  if s.allows x c l then
    ((s.ctx c).step l).map fun st =>
      { s.setCtx c st with hooked := Function.update s.hooked c (s.pushedHook c st ++ s.hooked c) }
  else none

/-- `exitProc` on thread `x`. -/
def stepExit (x : Fin n) (s : ProcHandle k n) : Option (ProcHandle k n) :=
  match s.exitPc with
  | .idle => if s.free x x then some { s with exitPc := .lockProcs } else none
  | .lockProcs => if s.mutexFree .procs then some { s with exitPc := .lockCtx } else none
  | .lockCtx =>
      if s.mutexFree .ctx then some { s with exitPc := .loop ((List.finRange (k + 1)).tail ++ [0]) } else none
  | .loop (c :: todo) =>
      ((s.ctx c).step (.call (some x) .close)).map fun st => { s.setCtx c st with exitPc := .close c todo }
  | .loop [] => some { s with exitPc := .done }
  | .close c todo => if s.idleIn (some x) c then some { s with exitPc := .loop todo } else none
  | .done => none

/-- `veo_alloc_mem_async` and `veo_free_mem_async` after one of their requests. -/
def stepMem (s : ProcHandle k n) (u : Fin n) : Option (ProcHandle k n) :=
  match s.memAsync u with
  | .idle => none
  | .request c =>
      if s.idleIn (some u) c then
        ((s.ctx c).step (.call (some u) .callVHAsync)).map fun st =>
          { s.setCtx c st with
            memAsync := Function.update s.memAsync u (.vh c ((s.ctx c).api (some u)).regs.req) }
      else none
  | .vh c _ =>
      if s.idleIn (some u) c then some { s with memAsync := Function.update s.memAsync u .idle } else none

/-- `_alloc_mem_async_hook` and `_free_mem_async_hook` with `_alloc_hmem_async_hook` and `_free_hmem_async_hook`. -/
def stepHook (s : ProcHandle k n) (c : Fin (k + 1)) (val : Word) : Option (ProcHandle k n) :=
  match s.hook c with
  | .start =>
      (s.helper c).bind fun req =>
        ((s.ctx c).step (.call none (.callWaitResult req))).map fun st =>
          { s.setCtx c st with hook := Function.update s.hook c (.wait req) }
  | .wait req =>
      if s.idleIn none c then
        some { s with
          hook := Function.update s.hook c (if (s.ctx c).sh.answerTo none req = some .ok then .ident else .ret) }
      else none
  | .ident => if s.mutexFree .procs then some { s with hook := Function.update s.hook c .locked } else none
  | .locked => some { s with hook := Function.update s.hook c .called }
  | .called =>
      if s.idleIn none c && s.lock (.progress c) = .out then some { s with hook := Function.update s.hook c .ret } else none
  | .ret =>
      ((s.ctx c).step (.main (.vhReturn val))).map fun st =>
        { s.setCtx c st with hook := Function.update s.hook c .start }

/-- A function that locks a mutex. -/
def stepLock (s : ProcHandle k n) (t : Caller k n) : Option (ProcHandle k n) :=
  match s.lock t with
  | .out => none
  | .wait m => if s.mutexFree m then some { s with lock := Function.update s.lock t (.held m) } else none
  | .held _ => some { s with lock := Function.update s.lock t .out }

def step (x : Fin n) (s : ProcHandle k n) : Label k n → Option (ProcHandle k n)
  | .ctx c l => s.stepCtx x c l
  | .exitProc => s.stepExit x
  | .memAsync c u =>
      if s.free x u then
        ((s.ctx c).step (.call (some u) (.genericAsyncReq false))).map fun st =>
          { s.setCtx c st with memAsync := Function.update s.memAsync u (.request c) }
      else none
  | .memNext u => s.stepMem u
  | .memCatch u =>
      match s.memAsync u with
      | .request c =>
          if s.idleIn (some u) c && (s.ctx c).sh.thrown then
            some { s with memAsync := Function.update s.memAsync u .idle }
          else none
      | _ => none
  | .hook c val => s.stepHook c val
  | .lock t m => if s.mayLock x t then some { s with lock := Function.update s.lock t (.wait m) } else none
  | .lockNext t => s.stepLock t

/-- `exitProc` waits in `pthread_join` for the progress thread of a context, and that thread waits for a mutex that
`exitProc` holds: in a helper, in `openContext` or in another function that locks one. -/
def Deadlock (x : Fin n) (s : ProcHandle k n) (c : Fin (k + 1)) : Prop :=
  (∃ todo, s.exitPc = .close c todo) ∧ (∃ rest, ((s.ctx c).api (some x)).code = .join :: rest) ∧
    (s.hook c = .ident ∨ ((s.ctx c).api none).code.head? = some .lockCtx ∨ ∃ m, s.lock (.progress c) = .wait m)

end ProcHandle

/-- The machine of a process with `k + 1` contexts that thread `x` of `n` destroys. -/
def procHandle (k n : Nat) (x : Fin n) : Machine (ProcHandle k n) (ProcHandle.Label k n) where
  init s := s = .new k n
  step := ProcHandle.step x

namespace ProcHandle

variable {k n : Nat} {x : Fin n} {s s' : ProcHandle k n} {l : Label k n} {c : Fin (k + 1)}

/-! ### What a step does -/

inductive StepCase (x : Fin n) (s : ProcHandle k n) : Label k n → ProcHandle k n → Prop
  | ctx {c : Fin (k + 1)} {l : Aveo.Label n} {st : State n} (hallows : s.allows x c l = true)
      (h : (s.ctx c).step l = some st) :
      StepCase x s (.ctx c l)
        { s.setCtx c st with hooked := Function.update s.hooked c (s.pushedHook c st ++ s.hooked c) }
  | exit {pc : ExitPc k} (hpc : pc.holdsProcs = true → s.exitPc.holdsProcs = true ∨ s.exitPc = .lockProcs) :
      StepCase x s .exitProc { s with exitPc := pc }
  | close {c : Fin (k + 1)} {todo : List (Fin (k + 1))} {st : State n} (hpc : s.exitPc.holdsProcs = true)
      (h : (s.ctx c).step (.call (some x) .close) = some st) :
      StepCase x s .exitProc { s.setCtx c st with exitPc := .close c todo }
  | memAsync {c : Fin (k + 1)} {u : Fin n} {st : State n}
      (h : (s.ctx c).step (.call (some u) (.genericAsyncReq false)) = some st) :
      StepCase x s (.memAsync c u) { s.setCtx c st with memAsync := Function.update s.memAsync u (.request c) }
  | memVH {c : Fin (k + 1)} {u : Fin n} {req : ReqId} {st : State n} (hpc : s.memAsync u ≠ .idle)
      (h : (s.ctx c).step (.call (some u) .callVHAsync) = some st) :
      StepCase x s (.memNext u) { s.setCtx c st with memAsync := Function.update s.memAsync u (.vh c req) }
  | memEnd {u : Fin n} {l : Label k n} : StepCase x s l { s with memAsync := Function.update s.memAsync u .idle }
  | hookStart {c : Fin (k + 1)} {req : ReqId} {val : Word} {st : State n} (hhelper : s.helper c = some req)
      (h : (s.ctx c).step (.call none (.callWaitResult req)) = some st) :
      StepCase x s (.hook c val) { s.setCtx c st with hook := Function.update s.hook c (.wait req) }
  | hookNext {c : Fin (k + 1)} {pc : HookPc} {val : Word} (hpc : s.hook c ≠ .start) :
      StepCase x s (.hook c val) { s with hook := Function.update s.hook c pc }
  | hookRet {c : Fin (k + 1)} {val : Word} {st : State n} (h : (s.ctx c).step (.main (.vhReturn val)) = some st) :
      StepCase x s (.hook c val) { s.setCtx c st with hook := Function.update s.hook c .start }
  | lock {t : Caller k n} {m : ProcMutex} :
      StepCase x s (.lock t m) { s with lock := Function.update s.lock t (.wait m) }
  | lockNext {t : Caller k n} {pc : LockPc} (hpc : s.lock t ≠ .out) :
      StepCase x s (.lockNext t) { s with lock := Function.update s.lock t pc }

theorem stepExit_cases (h : s.stepExit x = some s') : StepCase x s .exitProc s' := by
  unfold stepExit at h
  split at h
  · split at h <;> cases h
    exact .exit nofun
  · rename_i hpc
    split at h <;> cases h
    exact .exit fun _ => .inr hpc
  · rename_i hpc
    split at h <;> cases h
    exact .exit fun _ => .inl (by rw [hpc]; rfl)
  · rename_i c todo hpc
    obtain ⟨st, hst, rfl⟩ := Option.map_eq_some_iff.mp h
    exact .close (by rw [hpc]; rfl) hst
  · cases h
    exact .exit nofun
  · rename_i c todo hpc
    split at h <;> cases h
    exact .exit fun _ => .inl (by rw [hpc]; rfl)
  · cases h

theorem stepHook_cases {val : Word} (h : s.stepHook c val = some s') : StepCase x s (.hook c val) s' := by
  unfold stepHook at h
  split at h
  · obtain ⟨req, hreq, h⟩ := Option.bind_eq_some_iff.mp h
    obtain ⟨st, hst, rfl⟩ := Option.map_eq_some_iff.mp h
    exact .hookStart hreq hst
  · rename_i hpc
    split at h <;> cases h
    exact .hookNext (by rw [hpc]; nofun)
  · rename_i hpc
    split at h <;> cases h
    exact .hookNext (by rw [hpc]; nofun)
  · rename_i hpc
    cases h
    exact .hookNext (by rw [hpc]; nofun)
  · rename_i hpc
    split at h <;> cases h
    exact .hookNext (by rw [hpc]; nofun)
  · obtain ⟨st, hst, rfl⟩ := Option.map_eq_some_iff.mp h
    exact .hookRet hst

theorem step_cases (h : s.step x l = some s') : StepCase x s l s' := by
  cases l with
  | ctx c l =>
    simp only [step, stepCtx] at h
    split at h
    · rename_i hallows
      obtain ⟨st, hst, rfl⟩ := Option.map_eq_some_iff.mp h
      exact .ctx hallows hst
    · cases h
  | exitProc => exact stepExit_cases h
  | memAsync c u =>
    simp only [step] at h
    split at h
    · obtain ⟨st, hst, rfl⟩ := Option.map_eq_some_iff.mp h
      exact .memAsync hst
    · cases h
  | memNext u =>
    simp only [step, stepMem] at h
    split at h
    · cases h
    · rename_i c hpc
      split at h
      · obtain ⟨st, hst, rfl⟩ := Option.map_eq_some_iff.mp h
        exact .memVH (by rw [hpc]; nofun) hst
      · cases h
    · split at h <;> cases h
      exact .memEnd
  | memCatch u =>
    simp only [step] at h
    split at h
    · split at h <;> cases h
      exact .memEnd
    · cases h
  | hook c val => exact stepHook_cases h
  | lock t m =>
    simp only [step] at h
    split at h <;> cases h
    exact .lock
  | lockNext t =>
    simp only [step, stepLock] at h
    split at h
    · cases h
    · rename_i hpc
      split at h <;> cases h
      exact .lockNext (by rw [hpc]; nofun)
    · rename_i hpc
      cases h
      exact .lockNext (by rw [hpc]; nofun)

/-- What a step does to one context: nothing; a step of a thread that is inside it; a call that is made from outside; or
the return of a helper. -/
inductive CtxStep (x : Fin n) (s s' : ProcHandle k n) (l : Label k n) (c : Fin (k + 1)) : Prop
  | same (h : s'.ctx c = s.ctx c)
  | inside {l' : Aveo.Label n} (hl : l = .ctx c l') (hallows : s.allows x c l' = true)
      (h : (s.ctx c).step l' = some (s'.ctx c))
  | call {t : Tid n} {call : Call} (hcall : call ≠ .openContext) (h : (s.ctx c).step (.call t call) = some (s'.ctx c))
  | vhReturn {val : Word} (hhook : s'.hook c = .start) (h : (s.ctx c).step (.main (.vhReturn val)) = some (s'.ctx c))

/-- A step that changes one context. -/
theorem CtxStep.of_setCtx {c' : Fin (k + 1)} {st : State n} (hctx : s'.ctx = Function.update s.ctx c' st)
    (h : c = c' → s'.ctx c = st → CtxStep x s s' l c) : CtxStep x s s' l c := by
  by_cases hc : c = c'
  · subst hc
    exact h rfl (by rw [hctx, Function.update_self])
  · exact .same (by rw [hctx, Function.update_of_ne hc])

theorem StepCase.ctxStep (h : StepCase x s l s') (c : Fin (k + 1)) : CtxStep x s s' l c := by
  cases h with
  | ctx hallows h =>
    refine .of_setCtx rfl ?_
    rintro rfl heq
    exact .inside rfl hallows (h.trans (congrArg some heq.symm))
  | exit | memEnd | hookNext | lock | lockNext => exact .same rfl
  | close hpc h | memVH hpc h | hookStart hpc h =>
    refine .of_setCtx rfl ?_
    rintro rfl heq
    exact .call (by rintro ⟨⟩) (h.trans (congrArg some heq.symm))
  | memAsync h =>
    refine .of_setCtx rfl ?_
    rintro rfl heq
    exact .call (by rintro ⟨⟩) (h.trans (congrArg some heq.symm))
  | hookRet h =>
    refine .of_setCtx rfl ?_
    rintro rfl heq
    exact .vhReturn (Function.update_self ..) (h.trans (congrArg some heq.symm))

theorem pushedHook_eq_nil {st : State n} (h : ∀ u, s.memAsync u = .idle) : s.pushedHook c st = [] := by
  unfold pushedHook
  split
  · rw [h]
  · rfl

/-- The list of helpers grows, and only inside `veo_alloc_mem_async` or `veo_free_mem_async`. -/
theorem StepCase.hooked (h : StepCase x s l s') (c : Fin (k + 1)) :
    s.hooked c <:+ s'.hooked c ∧ ((∀ u, s.memAsync u = .idle) → s'.hooked c = s.hooked c) := by
  cases h with
  | @ctx c' l st hallows h =>
    by_cases hc : c = c'
    · subst hc
      have heq : Function.update s.hooked c (s.pushedHook c st ++ s.hooked c) c = s.pushedHook c st ++ s.hooked c :=
        Function.update_self ..
      refine ⟨⟨_, heq.symm⟩, fun hidle => heq.trans ?_⟩
      rw [pushedHook_eq_nil hidle, List.nil_append]
    · have heq : Function.update s.hooked c' (s.pushedHook c' st ++ s.hooked c') c = s.hooked c :=
        Function.update_of_ne hc ..
      exact ⟨⟨[], heq.symm⟩, fun _ => heq⟩
  | _ => exact ⟨⟨[], rfl⟩, fun _ => rfl⟩

/-! ### Helpers -/

/-- A VH function runs until it returns. -/
theorem main_vh_step {st st' : State n} {l : Aveo.Label n} {cmd : Command} (h : st.step l = some st')
    (hmain : st.main = .vh cmd) : st'.main = .vh cmd ∨ ∃ val, l = .main (.vhReturn val) := by
  cases Aveo.step_cases h with
  | out hout =>
    rw [hmain] at hout
    cases hout
  | execLock heq | execTest heq | execUnlock heq | pass heq =>
    rw [hmain] at heq
    cases heq
  | vhReturn => exact .inr ⟨_, rfl⟩
  | exec | apiPass | unlock | call => exact .inl hmain

theorem helper_isSome :
    (s.helper c).isSome = true ↔ ∃ cmd, (s.ctx c).main = .vh cmd ∧ ∃ p ∈ s.hooked c, p.1 = cmd.msgid := by
  unfold helper
  cases (s.ctx c).main with
  | vh cmd =>
    simp only [List.lookup_isSome_iff, beq_iff_eq, Main.vh.injEq, exists_eq_left']
    exact exists_congr fun p => and_congr_right fun _ => eq_comm
  | _ => simp

/-- A progress thread that is inside a helper runs it as the function of a VH command. -/
def InHelper (s : ProcHandle k n) : Prop := ∀ c, s.hook c ≠ .start → (s.helper c).isSome = true

theorem ne_start_of_update {c' : Fin (k + 1)} {pc : HookPc} (hc : Function.update s.hook c' pc c ≠ .start) (heq : c ≠ c') :
    s.hook c ≠ .start := by
  rwa [Function.update_of_ne heq] at hc

/-- Where a progress thread comes into a helper. -/
theorem StepCase.hook (h : StepCase x s l s') (c : Fin (k + 1)) (hc : s'.hook c ≠ .start) :
    s.hook c ≠ .start ∨ (s.helper c).isSome = true := by
  cases h with
  | @hookStart c' req val st hhelper h =>
    by_cases heq : c = c'
    · subst heq
      exact .inr (Option.isSome_iff_exists.mpr ⟨req, hhelper⟩)
    · exact .inl (ne_start_of_update hc heq)
  | @hookNext c' pc val hpc =>
    by_cases heq : c = c'
    · exact .inl (heq ▸ hpc)
    · exact .inl (ne_start_of_update hc heq)
  | @hookRet c' val st h =>
    by_cases heq : c = c'
    · subst heq
      exact absurd (Function.update_self ..) hc
    · exact .inl (ne_start_of_update hc heq)
  | _ => exact .inl hc

theorem InHelper.step (hi : s.InHelper) (h : StepCase x s l s') : s'.InHelper := by
  intro c hc
  have hold : (s.helper c).isSome = true := (h.hook c hc).elim (hi c) id
  obtain ⟨cmd, hmain, p, hp, hid⟩ := helper_isSome.mp hold
  refine helper_isSome.mpr ⟨cmd, ?_, p, (h.hooked c).1.subset hp, hid⟩
  cases h.ctxStep c with
  | same hctx => rw [hctx, hmain]
  | inside hl hallows hstep =>
    refine (main_vh_step hstep hmain).resolve_right ?_
    rintro ⟨val, rfl⟩
    have hnone : (s.helper c).isNone = true := (Bool.and_eq_true_iff.mp hallows).1
    rw [Option.isNone_iff_eq_none.mp hnone] at hold
    cases hold
  | call hcall hstep =>
    refine (main_vh_step hstep hmain).resolve_right ?_
    rintro ⟨val, ⟨⟩⟩
  | vhReturn hhook => exact absurd hhook hc

/-! ### No deadlock if nothing is left to lock -/

/-- No progress thread is going to lock a mutex: every VH request of a helper is completed and no thread is about to push one,
and no VH function is in a function that locks a mutex or has yet to lock `ctx_mutex` in `openContext`. -/
structure Settled (s : ProcHandle k n) : Prop where
  idle : ∀ u, s.memAsync u = .idle
  completed : ∀ c, ∀ p ∈ s.hooked c, (s.ctx c).sh.Completed p.1
  lock : ∀ c, s.lock (.progress c) = .out
  lockCtx : ∀ c, .lockCtx ∉ ((s.ctx c).api none).code

instance (s : ProcHandle k n) : Decidable s.Settled :=
  decidable_of_iff ((∀ u, s.memAsync u = .idle) ∧ (∀ c, ∀ p ∈ s.hooked c, (s.ctx c).sh.Completed p.1) ∧
      (∀ c, s.lock (.progress c) = .out) ∧ ∀ c, .lockCtx ∉ ((s.ctx c).api none).code)
    ⟨fun h => ⟨h.1, h.2.1, h.2.2.1, h.2.2.2⟩, fun h => ⟨h.idle, h.completed, h.lock, h.lockCtx⟩⟩

/-- A thread starts `veo_alloc_mem_async` or `veo_free_mem_async`, or a VH function calls a function that locks one of the
mutexes. -/
def Label.disturbs : Label k n → Bool
  | .memAsync _ _ | .lock (.progress _) _ | .ctx _ (.call none .openContext) => true
  | _ => false

/-- When `exitProc` locks `__procs_mtx` no progress thread is going to lock a mutex, and while it holds `__procs_mtx` nothing
is started that would. -/
def undisturbed : Machine.Cond (ProcHandle k n) (Label k n) := fun s l _ =>
  (l = .exitProc → s.exitPc = .lockProcs → s.Settled) ∧ (s.exitPc.holdsProcs = true → l.disturbs = false)

instance : Decidable (undisturbed s l s') :=
  inferInstanceAs (Decidable ((l = .exitProc → s.exitPc = .lockProcs → s.Settled) ∧
    (s.exitPc.holdsProcs = true → l.disturbs = false)))

structure Safe (s : ProcHandle k n) : Prop where
  reachable : ∀ c, (context n).Reachable Machine.anyStep (s.ctx c)
  helper : s.InHelper
  settled : s.exitPc.holdsProcs = true → s.Settled

theorem CtxStep.reachable (h : CtxStep x s s' l c) (hs : (context n).Reachable Machine.anyStep (s.ctx c)) :
    (context n).Reachable Machine.anyStep (s'.ctx c) := by
  cases h with
  | same h => rwa [h]
  | @inside l' _ _ h => exact hs.step (l := l') h trivial
  | @call t call _ h => exact hs.step (l := .call t call) h trivial
  | @vhReturn val _ h => exact hs.step (l := .main (.vhReturn val)) h trivial

theorem CtxStep.completed (h : CtxStep x s s' l c) (hs : (context n).Reachable Machine.anyStep (s.ctx c)) {id : ReqId}
    (hid : (s.ctx c).sh.Completed id) : (s'.ctx c).sh.Completed id := by
  cases h with
  | same h => rwa [h]
  | inside _ _ h | call _ h | vhReturn _ h => exact (moves_step (Tracked.of_reachable hs) h).completed hid

theorem CtxStep.lockCtx (h : CtxStep x s s' l c) (hl : l.disturbs = false)
    (hs : .lockCtx ∉ ((s.ctx c).api none).code) : .lockCtx ∉ ((s'.ctx c).api none).code := by
  intro hmem
  cases h with
  | same h =>
    rw [h] at hmem
    exact hs hmem
  | inside hin _ h =>
    refine (code_step_call h rfl hmem).elim hs fun hcall => ?_
    rw [hin, hcall] at hl
    cases hl
  | call hcall h =>
    refine (code_step_call h rfl hmem).elim hs fun heq => hcall ?_
    cases heq
    rfl
  | vhReturn _ h => exact (code_step_call h rfl hmem).elim hs (by rintro ⟨⟩)

/-- A progress thread that is in no function that locks a mutex comes into one only by a step that disturbs. -/
theorem StepCase.lock_progress (h : StepCase x s l s') (hl : l.disturbs = false) (hs : ∀ c, s.lock (.progress c) = .out)
    (c : Fin (k + 1)) : s'.lock (.progress c) = .out := by
  cases h with
  | @lock t m =>
    cases t with
    | progress c' => cases hl
    | user u =>
      show Function.update s.lock (.user u) (.wait m) (.progress c) = .out
      rw [Function.update_of_ne (by rintro ⟨⟩), hs]
  | @lockNext t pc hpc =>
    have hne : Caller.progress c ≠ t := by
      rintro rfl
      exact hpc (hs c)
    show Function.update s.lock t pc (.progress c) = .out
    rw [Function.update_of_ne hne, hs]
  | _ => exact hs c

theorem StepCase.idle (h : StepCase x s l s') (hl : l.disturbs = false) (hs : ∀ u, s.memAsync u = .idle) (u : Fin n) :
    s'.memAsync u = .idle := by
  cases h with
  | memAsync => cases hl
  | memVH hpc => exact absurd (hs _) hpc
  | @memEnd u' =>
    show Function.update s.memAsync u' .idle u = .idle
    by_cases hu : u = u'
    · rw [hu, Function.update_self]
    · rw [Function.update_of_ne hu, hs]
  | _ => exact hs u

theorem Settled.step (hs : s.Settled) (h : StepCase x s l s') (hl : l.disturbs = false)
    (hctx : ∀ c, (context n).Reachable Machine.anyStep (s.ctx c)) : s'.Settled where
  idle := h.idle hl hs.idle
  completed c p hp := by
    rw [(h.hooked c).2 hs.idle] at hp
    exact (h.ctxStep c).completed (hctx c) (hs.completed c p hp)
  lock := h.lock_progress hl hs.lock
  lockCtx c := (h.ctxStep c).lockCtx hl (hs.lockCtx c)

/-- `exitProc` holds `__procs_mtx` after a step if it held it before, or if it locks it in that step. -/
theorem StepCase.holdsProcs (h : StepCase x s l s') (hholds : s'.exitPc.holdsProcs = true) :
    s.exitPc.holdsProcs = true ∨ l = .exitProc ∧ s.exitPc = .lockProcs := by
  cases h with
  | exit hpc => exact (hpc hholds).imp_right fun hlock => ⟨rfl, hlock⟩
  | close hpc => exact .inl hpc
  | _ => exact .inl hholds

theorem Safe.step (hs : s.Safe) (hstep : s.step x l = some s') (hl : undisturbed s l s') : s'.Safe := by
  have h := step_cases hstep
  refine ⟨fun c => (h.ctxStep c).reachable (hs.reachable c), hs.helper.step h, fun hholds => ?_⟩
  rcases h.holdsProcs hholds with hheld | ⟨rfl, hlock⟩
  · exact (hs.settled hheld).step h (hl.2 hheld) hs.reachable
  · exact (hl.1 rfl hlock).step h rfl hs.reachable

theorem Safe.of_reachable (h : (procHandle k n x).Reachable undisturbed s) : s.Safe := by
  refine h.invariant (I := Safe) ?_ fun _ _ _ _ hstep hl hs => hs.step hstep hl
  rintro s rfl
  exact ⟨fun c => .init rfl, fun c hc => absurd rfl hc, nofun⟩

/-- `exitProc` never waits for a progress thread that waits for a mutex of `exitProc`, if no progress thread is going to lock
one when `exitProc` locks `__procs_mtx`, and nothing is started later that would. -/
theorem exit_without_deadlock (h : (procHandle k n x).Reachable undisturbed s) (c : Fin (k + 1)) : ¬ s.Deadlock x c := by
  have hs := Safe.of_reachable h
  rintro ⟨⟨todo, hpc⟩, -, hblocked⟩
  have hsettled := hs.settled (by rw [hpc]; rfl)
  rcases hblocked with hident | hlock | ⟨m, hwait⟩
  · obtain ⟨cmd, hmain, p, hp, hid⟩ := helper_isSome.mp (hs.helper c (by rw [hident]; nofun))
    have hdone := hsettled.completed c p hp
    rw [hid] at hdone
    exact (Tracked.of_reachable (hs.reachable c)).not_completed_of_vh hmain hdone
  · exact hsettled.lockCtx c (List.mem_of_mem_head? hlock)
  · rw [hsettled.lock c] at hwait
    cases hwait

/-- The user thread goes on in a call, and so does a VH function. -/
def userSteps (m : Nat) : List (Label 0 1) := List.replicate m (.ctx 0 (.api (some 0) .tau))

def mainSteps (m : Nat) : List (Label 0 1) := List.replicate m (.ctx 0 (.main .tau))

def vhSteps (m : Nat) : List (Label 0 1) := List.replicate m (.ctx 0 (.api none .tau))

/-- `veo_alloc_mem_async` is called; its first request is submitted, the VH request of the helper is queued, and the
progress thread has left `waitRequest`. -/
def allocTrace : List (Label 0 1) :=
  List.flatten [[.memAsync 0 0], userSteps 10, [.ctx 0 (.api (some 0) (.sent 0))], userSteps 6, [.memNext 0], userSteps 7,
    [.memNext 0], mainSteps 1]

/-- The reply comes, and the progress thread runs the helper up to the lock in `_getProcIdentifier`. -/
def helperTrace : List (Label 0 1) :=
  List.flatten [mainSteps 2, [.ctx 0 (.main (.reply 0 (.result 4096)))], mainSteps 6, [.hook 0 0], vhSteps 6, [.hook 0 0]]

/-- `exitProc` locks both mutexes and waits in `close` of the main context. -/
def exitTrace : List (Label 0 1) := List.flatten [List.replicate 4 .exitProc, userSteps 1]

/-- `exitProc` joins the progress thread, which waits in a helper for `__procs_mtx`. -/
theorem exit_deadlocks : ∃ s : ProcHandle 0 1, (procHandle 0 1 0).Reachable Machine.anyStep s ∧ s.Deadlock 0 0 := by
  have hrun := Machine.exists_reachable_of_run (M := procHandle 0 1 0) (s := .new 0 1) (allocTrace ++ exitTrace ++ helperTrace)
    (fun s => decide (s.exitPc = .close 0 [] ∧ ((s.ctx 0).api (some 0)).code = .join :: ifAlive [.setExit] ∧
      s.hook 0 = .ident)) rfl (by decide +kernel)
  obtain ⟨s, hs, hp⟩ := hrun
  obtain ⟨hpc, hcode, hhook⟩ := of_decide_eq_true hp
  exact ⟨s, hs, ⟨_, hpc⟩, ⟨_, hcode⟩, .inl hhook⟩

/-- The helper returns before `exitProc` is called. -/
theorem exit_without_deadlock_after :
    ∃ s : ProcHandle 0 1, s.exitPc = .close 0 [] ∧ s.hooked 0 = [(1, 0)] ∧ ∀ c, ¬ s.Deadlock 0 c := by
  have hrun := Machine.exists_reachable_of_runCond (M := procHandle 0 1 0) (s := .new 0 1) (C := undisturbed)
    (c := fun s l s' => decide (undisturbed s l s')) (fun _ _ _ hc => of_decide_eq_true hc)
    (allocTrace ++ helperTrace ++ List.replicate 4 (.hook 0 0) ++ mainSteps 1 ++ exitTrace)
    (fun s => decide (s.exitPc = .close 0 [] ∧ s.hooked 0 = [(1, 0)])) rfl (by decide +kernel)
  obtain ⟨s, hs, hp⟩ := hrun
  obtain ⟨hpc, hhooked⟩ := of_decide_eq_true hp
  exact ⟨s, hpc, hhooked, fun c => exit_without_deadlock hs c⟩

end ProcHandle

end Aveo

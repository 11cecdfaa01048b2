import Aveo.Context.State

/-!
# Hooks on allocation and free

`veo_alloc_mem` and `veo_free_mem` wait for their request and call the hook themselves. The asynchronous functions queue
a VH command behind the request if a hook is registered; the command waits for the result on the progress thread and looks
the hook up again. What becomes of the request and of the VH command is decided outside. The hook of `veo_alloc_mem` is
given the pointer of the caller at which the address is stored, and the one of `veo_alloc_mem_async` the address.
-/

namespace Aveo

/-- The functions that may have a hook. -/
inductive MemApi
  | veoAllocMem
  | veoFreeMem
  | veoAllocMemAsync
  | veoFreeMemAsync
  deriving DecidableEq

/-- The keys of `static_hooks`. -/
abbrev StaticHooks := MemApi → Bool

/-- What an alloc hook is given: an address, or a pointer to where one is stored. -/
inductive AddrArg
  | value (addr : Word)
  | pointer (addr : Word)
  deriving DecidableEq

/-- A hook is called, with the address and for an allocation with the size. -/
inductive HookCall
  | alloc (addr : AddrArg) (size : Word)
  | free (addr : Word)
  deriving DecidableEq

/-- What becomes of a request of `genericAsyncReq`. Only the functions here know its ID. -/
inductive Request
  | thrown
  | notAccepted
  | sendFailed
  | cancelled
  | answered (m : Reply)
  deriving DecidableEq

/-- What a request ID that the user got delivers. -/
inductive Delivery
  | invalid
  | nothing
  | result (status : CommandState) (val : Word)
  deriving DecidableEq

namespace Request

/-- The command in the completion map. -/
def completed : Request → Option Command
  | .thrown | .notAccepted => none
  | .sendFailed | .cancelled => some ((Command.new 0 .generic).setResult 0 .error)
  | .answered m => some ((Shared.new 0).unpack none ((Command.new 0 .generic).setURPCReq 0 .unfinished) m).2.1

/-- `callWaitResult`: the status, and the value in the variable that was zero before. -/
def callWaitResult (r : Request) : CommandState × Word :=
  match r.completed with
  | none => (.error, 0)
  | some c => (c.status, c.retval)

def delivery (r : Request) : Delivery :=
  match r.completed with
  | none => .invalid
  | some c => .result c.status c.retval

/-- `ProcHandle::allocBuff`. -/
def allocBuff (r : Request) : Word :=
  let rv := r.callWaitResult
  if rv.1 ≠ .ok then 0 else rv.2

end Request

/-- `veo_alloc_mem` with the pointer `addr`: the return value, what is stored there, and the calls of the hook. -/
def veoAllocMem (hooks : StaticHooks) (r : Request) (addr size : Word) : Int × Option Word × List HookCall :=
  if r = .thrown then (-2, none, [])
  else
    let stored := r.allocBuff
    if stored = 0 then (-1, some stored, [])
    else (0, some stored, if hooks .veoAllocMem then [.alloc (.pointer addr) size] else [])

/-- `veo_free_mem`; `freeBuff` returns nothing. -/
def veoFreeMem (hooks : StaticHooks) (r : Request) (addr : Word) : Int × List HookCall :=
  if r = .thrown then (-1, [])
  else (0, if hooks .veoFreeMem then [.free addr] else [])

/-! ### The asynchronous functions -/

/-- What becomes of a VH command: the context is not alive, the queue is closed, it is cancelled, or it is run. -/
inductive Helper
  | notAccepted
  | lost
  | cancelled
  | run
  deriving DecidableEq

/-- `callVHAsync`, with what the function returns and the hooks it calls. -/
def Helper.callVHAsync (helper : Helper) (func : Word × List HookCall) : Delivery × List HookCall :=
  match helper with
  | .notAccepted => (.invalid, [])
  | .lost => (.nothing, [])
  | .cancelled => (.result .error 0, [])
  | .run => (.result .ok func.1, func.2)

/-- `_alloc_mem_async_hook`. -/
def allocMemAsyncHook (hooks : StaticHooks) (r : Request) (size : Word) : Word × List HookCall :=
  let rv := r.callWaitResult
  if rv.1 ≠ .ok then (0, [])
  else (rv.2, if hooks .veoAllocMemAsync then [.alloc (.value rv.2) size] else [])

/-- `_free_mem_async_hook`. -/
def freeMemAsyncHook (hooks : StaticHooks) (r : Request) (addr : Word) : Word × List HookCall :=
  let rv := r.callWaitResult
  if rv.1 ≠ .ok then (-1, [])
  else (0, if hooks .veoFreeMemAsync then [.free addr] else [])

/-- `veo_alloc_mem_async`; `later` are the hooks when the VH command is run. -/
def veoAllocMemAsync (hooks later : StaticHooks) (helper : Helper) (r : Request) (size : Word) : Delivery × List HookCall :=
  if r = .thrown then (.invalid, [])
  else if hooks .veoAllocMemAsync then helper.callVHAsync (allocMemAsyncHook later r size)
  else (r.delivery, [])

/-- `veo_free_mem_async`. -/
def veoFreeMemAsync (hooks later : StaticHooks) (helper : Helper) (r : Request) (addr : Word) : Delivery × List HookCall :=
  if r = .thrown then (.invalid, [])
  else if hooks .veoFreeMemAsync then helper.callVHAsync (freeMemAsyncHook later r addr)
  else (r.delivery, [])

/-! ### Hooks and success -/

variable {hooks later : StaticHooks} {helper : Helper} {r : Request} {size addr ptr : Word}

namespace Request

end Request

section

variable (hhooks : ∀ f, hooks f = true) (hlater : ∀ f, later f = true)

include hhooks

include hlater

omit hhooks hlater

include hhooks hlater

end

end Aveo

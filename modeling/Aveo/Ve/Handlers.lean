import Aveo.Lib.Memory
import Aveo.Queue.Command

/-!
# The request handlers of the VE

The handlers of `veo_urpc.c` and `veo_urpc_ve.c`. A VE thread serves one peer and calls them for the requests that the
VH sends on it. URPC is not part of the repository: unpacking a payload gives back the values that were packed, and a
reply that is sent gets the next number of its peer. What the C library and the called functions do is decided outside,
and so is whether URPC sends a reply.
-/

namespace Aveo

open Lib

/-- The messages that handlers send. -/
inductive VeReply
  | ack
  | result (val : Word)
  | resStk (val : Word) (stack : List Byte)
  | sendbuff (dst : Word) (buff : List Byte)

/-- A reply with its URPC number and the number of the request whose handler sent it. -/
structure SentReply where
  id : Nat
  req : Nat
  msg : VeReply

/-- The VE thread of a peer: the memory of its process, the number of VE peers, and the replies it sent. -/
structure Ve where
  mem : Mem
  numVePeers : Nat
  replies : List SentReply

/-- How a handler ends: it returns, CHECK_REQ makes it return, or the thread ends in it. -/
inductive HandlerEnd
  | ret (rc : Int)
  | mismatch
  | exits
  deriving DecidableEq

/-- What `urpc_generic_send` does with a reply: it sends it, or it returns a negative number, such as for a buffer that does
not fit into one transfer. -/
inductive SendEnd
  | sent
  | refused (err : Nat)
  deriving DecidableEq

namespace Ve

/-- `urpc_generic_send` by the handler of request `req`: what it returns, which is the number of a reply that is sent, and the
state. -/
def send (ve : Ve) (req : Nat) (msg : VeReply) : SendEnd → Int × Ve
  | .sent => (ve.replies.length, { ve with replies := ve.replies ++ [⟨ve.replies.length, req, msg⟩] })
  | .refused err => (Int.negSucc err, ve)

@[simp] theorem send_mem (ve : Ve) (req : Nat) (msg : VeReply) (out : SendEnd) : (ve.send req msg out).2.mem = ve.mem := by
  cases out <;> rfl

/-- One reply is added, or none. -/
theorem send_replies (ve : Ve) (req : Nat) (msg : VeReply) (out : SendEnd) : (ve.send req msg out).2.replies = ve.replies ∨
    ∃ msg', (ve.send req msg out).2.replies = ve.replies ++ [⟨ve.replies.length, req, msg'⟩] := by
  cases out with
  | sent => exact .inr ⟨msg, rfl⟩
  | refused err => exact .inl rfl

/-- A reply that came was sent. -/
theorem eq_of_send_replies {ve : Ve} {req : Nat} {msg : VeReply} {out : SendEnd} {r : SentReply}
    (h : (ve.send req msg out).2.replies = ve.replies ++ [r]) : r = ⟨ve.replies.length, req, msg⟩ := by
  cases out with
  | sent => exact (List.singleton_inj.mp (List.append_cancel_left h)).symm
  | refused err => exact absurd (congrArg List.length h) (by simp [send])

end Ve

/-- CHECK_REQ, and the value that is returned after it. -/
def checkReq (newReq : Int) (req : Nat) (rc : Int) : HandlerEnd := if newReq ≠ req then .mismatch else .ret rc

theorem checkReq_ne_exits (newReq : Int) (req : Nat) (rc : Int) : checkReq newReq req rc ≠ .exits := by
  unfold checkReq
  split <;> nofun

/-- The handlers that send a reply, keep its number in an `int64_t` and check it. -/
def replyChecked (ve : Ve) (req : Nat) (msg : VeReply) (out : SendEnd) : Ve × HandlerEnd :=
  let sent := ve.send req msg out
  (sent.2, checkReq sent.1 req 0)

/-- The handlers that do not look at the number of their reply. -/
def replyUnchecked (ve : Ve) (req : Nat) (msg : VeReply) (out : SendEnd) : Ve × HandlerEnd := ((ve.send req msg out).2, .ret 0)

def pingHandler (ve : Ve) (req : Nat) (out : SendEnd) : Ve × HandlerEnd := replyUnchecked ve req .ack out

def exitHandler (ve : Ve) (req : Nat) (out : SendEnd) : Ve × HandlerEnd := ((ve.send req .ack out).2, .exits)

/-- `dlopen` gives the handle, or zero. -/
def loadlibHandler (ve : Ve) (req : Nat) (handle : Word) (out : SendEnd) : Ve × HandlerEnd :=
  replyChecked ve req (.result handle) out

/-- `dlclose` gives the return code. -/
def unloadlibHandler (ve : Ve) (req : Nat) (rc : BitVec 32) (out : SendEnd) : Ve × HandlerEnd :=
  replyChecked ve req (.result (rc.signExtend 64)) out

/-- The symbol is looked up by `dlsym` if there is a library; an entry of the static table goes before it. -/
def getsymHandler (symtable : List (String × Word)) (ve : Ve) (req : Nat) (libhndl : Word) (sym : String) (dlsym : Word)
    (out : SendEnd) : Ve × HandlerEnd :=
  let symaddr := if libhndl ≠ 0 then dlsym else 0
  replyChecked ve req (.result (((symtable.find? (·.1 = sym)).map Prod.snd).getD symaddr)) out

/-- `malloc` gives the address. -/
def allocHandler (ve : Ve) (req : Nat) (addr : Word) (out : SendEnd) : Ve × HandlerEnd :=
  replyChecked ve req (.result addr) out

def freeHandler (ve : Ve) (req : Nat) (out : SendEnd) : Ve × HandlerEnd := replyChecked ve req .ack out

def sendbuffHandler (ve : Ve) (req : Nat) (dst : Word) (buff : List Byte) (out : SendEnd) : Ve × HandlerEnd :=
  replyChecked { ve with mem := ve.mem.write dst buff } req .ack out

def recvbuffHandler (ve : Ve) (req : Nat) (src dst size : Word) (out : SendEnd) : Ve × HandlerEnd :=
  replyChecked ve req (.sendbuff dst (ve.mem.read src size.toNat)) out

def memcpyHandler (ve : Ve) (req : Nat) (dst buff buffsz : Word) (out : SendEnd) : Ve × HandlerEnd :=
  replyChecked { ve with mem := ve.mem.write dst (ve.mem.read buff buffsz.toNat) } req .ack out

def pcircvsycHandler (ve : Ve) (req : Nat) (out : SendEnd) : Ve × HandlerEnd := replyUnchecked ve req .ack out

/-- `newpeer_handler`; `pthread_create` gives the return code. The number of the reply is kept in an `int`. -/
def newpeerHandler (ve : Ve) (req : Nat) (rc : BitVec 32) (out : SendEnd) : Ve × HandlerEnd :=
  if rc ≠ 0 then ((ve.send req (.result (rc.signExtend 64)) out).2, .ret (-1))
  else
    let sent := { ve with numVePeers := ve.numVePeers + 1 }.send req (.result (rc.signExtend 64)) out
    (sent.2, checkReq (BitVec.ofInt 32 sent.1).toInt req rc.toInt)

/-- The four commands of a call. -/
inductive CallCmd
  | call
  | stkIn
  | stkOut
  | stkInOut
  deriving DecidableEq

/-- The payload of a call. A call without a stack has no more than the address and the registers. For a stack that is
only copied out, `stack` is the room for it in the payload. -/
structure CallPayload where
  addr : Word
  regs : List Word
  stackTop : Word
  recvSp : Word
  stack : List Byte

/-- A VE function: from its address, the registers that are set and the memory to the result and the memory, unless
the thread ends in it. -/
abbrev VeFunction := Word → List Word → Mem → Option (Word × Mem)

def maxArgsInRegs : Nat := 8

/-- Words are copied back into the payload; bytes after the last whole word stay as they are. -/
def copyBack (mem : Mem) (stackTop : Word) (stack : List Byte) : List Byte :=
  mem.read stackTop (stack.length / 8 * 8) ++ stack.drop (stack.length / 8 * 8)

/-- The memory in which the function is called. -/
def stackIn (cmd : CallCmd) (p : CallPayload) (mem : Mem) : Mem :=
  if cmd = .stkIn ∨ cmd = .stkInOut then mem.write p.stackTop p.stack else mem

/-- The reply to a call that returned. -/
def callReply (cmd : CallCmd) (p : CallPayload) (result : Word) (mem : Mem) : VeReply :=
  if cmd = .stkOut ∨ cmd = .stkInOut then .resStk result (copyBack mem p.stackTop p.stack) else .result result

/-- `call_handler` with stack pointer `sp`. -/
def callHandler (sp : Word) (ve : Ve) (req : Nat) (cmd : CallCmd) (p : CallPayload) (fn : VeFunction) (out : SendEnd) :
    Ve × HandlerEnd :=
  let recvSp := if cmd = .call then 0 else p.recvSp
  if cmd = .call ∧ p.addr = 0 then
    -- the current stack pointer is asked for
    replyChecked ve req (.result sp) out
  else if recvSp ≠ 0 ∧ recvSp ≠ sp then (ve, .ret (-1))
  else
    match fn p.addr (p.regs.take maxArgsInRegs) (stackIn cmd p ve.mem) with
    | none => (ve, .exits)
    | some (result, mem) => replyChecked { ve with mem := mem } req (callReply cmd p result mem) out

end Aveo

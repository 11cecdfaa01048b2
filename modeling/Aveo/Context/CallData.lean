import Aveo.Args.CopyOut
import Aveo.Transfer.Data

/-!
# The bytes of a call

`doCallAsync` from the arguments to the delivery of the request it returns. If the stack image fits into the message, one
command carries it. If not, the tail of it goes through `asyncWriteMem` before the call and comes back through
`asyncReadMem` after it, both computed from the same limit as the part that `send_call_nolock` cuts off.

The commands are executed one after the other. Those that read the buffer of the image on the VH are submitted before the
replies that write it can come, so it makes no difference when they are submitted. The buffer is a fresh array of
`setup`: no argument points into it.
-/

namespace Aveo

open Lib

/-- What `doCallAsync` takes over of the arguments after `setup`; `stack` is the address of the buffer with the image. -/
structure CallData where
  addr : Word
  numArgs : Nat
  regs : List Word
  stackTop : Word
  stackSize : Word
  copyin : Bool
  copyout : Bool
  stack : Word

def CallData.of (addr stack : Word) (args : List Arg) (img : StackImage) : CallData :=
  { addr := addr, numArgs := args.length, regs := getRegVal args img, stackTop := img.stackTop, stackSize := img.stackSize,
    copyin := img.copiedIn, copyout := img.copiedOut, stack := stack }

/-- What becomes of the command of a call. -/
inductive CallFate
  | answered
  | refused
  | exception (ve : Ve) (exc : Word)

/-- What a call meets outside of the repository: the capacity of a URPC message, ALIGN8B and the settings of the transfers,
the stack pointer of the handler on the VE, the bytes that a payload has in place of what is not sent, the VE
function, and what becomes of the commands. -/
structure CallEnv where
  maxSend : Word
  align8b : Word → Word
  sendfrag : Option String
  sendcut : Option String
  recvfrag : Option String
  recvcut : Option String
  fuel : Nat
  veSp : Word
  room : Nat → Byte
  fn : VeFunction
  write : Nat → Fate
  call : CallFate
  read : Nat → Fate

def sendCallCmdSizeWithoutData : Word := 40

namespace CallEnv

variable (env : CallEnv) (c : CallData)

def maxArgsSize : Word := env.maxSend - sendCallCmdSizeWithoutData

/-- `send_call_nolock`: the command and its payload. -/
def sendCallNolock (vh : Mem) : CallCmd × CallPayload :=
  let regsz := BitVec.ofNat 64 (c.regs.length * 8)
  let size := if env.maxArgsSize - regsz < c.stackSize then env.maxArgsSize - regsz else c.stackSize
  if !(c.copyin || c.copyout) then (.call, ⟨c.addr, c.regs, 0, 0, []⟩)
  else if c.copyin && !c.copyout then (.stkIn, ⟨c.addr, c.regs, c.stackTop, env.veSp, vh.read c.stack size.toNat⟩)
  else if c.copyin && c.copyout then (.stkInOut, ⟨c.addr, c.regs, c.stackTop, env.veSp, vh.read c.stack size.toNat⟩)
  -- only the room for the stack is sent
  else (.stkOut, ⟨c.addr, c.regs, c.stackTop, env.veSp, (List.range size.toNat).map env.room⟩)

/-- `unpack_call_result` with a stack in the message. -/
def unpackStack (copyoutFunc : List Byte → Mem → Option Mem) (stack_ : Option Word) (vh : Mem) (payload : List Byte) : Option Mem :=
  match stack_ with
  | some stack => some (vh.write stack payload)
  | none => copyoutFunc payload vh

/-- The command of `simpleCallAsync`, if it is answered, with the status and the result. -/
def simpleCallAsync (stack_ : Option Word) (copyoutFunc : List Byte → Mem → Option Mem) (s : Sides) :
    Option (Sides × CommandState × Word) :=
  match env.call with
  | .answered =>
      let m := env.sendCallNolock c s.vh
      let ve := (callHandler env.veSp s.ve s.ve.replies.length m.1 m.2 env.fn .sent).1
      match ve.replies[s.ve.replies.length]?.map SentReply.msg with
      | none => none
      | some (.result val) => some ({ s with ve := ve }, .ok, val)
      | some (.resStk val stack) =>
          (unpackStack copyoutFunc stack_ s.vh stack).map fun vh => ({ vh := vh, ve := ve }, .ok, val)
      | some _ => some ({ s with ve := ve }, .exception, 0)
  | .refused => some (s, .error, 0)
  | .exception ve exc => some ({ s with ve := ve }, .exception, exc)

def regArgsSz : Word := BitVec.ofNat 64 ((if numArgsOnRegister < c.numArgs then numArgsOnRegister else c.numArgs) * 8)

/-- The call goes without a transfer of its own for the stack. -/
def isSimple : Bool := !(c.copyin || c.copyout) || c.stackSize ≤ env.maxArgsSize - regArgsSz c

def extraStk : Word := c.stackTop + env.maxArgsSize - regArgsSz c

def extraBuf : Word := c.stack + env.maxArgsSize - regArgsSz c

def extraSize : Word := c.stackSize - env.maxArgsSize + regArgsSz c

/-- The transfer of the tail to the VE. -/
def writeTail (s : Sides) : Option (Sides × CommandState) :=
  if c.copyin then
    asyncWriteMem env.align8b env.maxSend env.sendfrag env.sendcut env.write env.fuel s (env.extraStk c) (env.extraBuf c)
      (env.extraSize c)
  else some (s, .ok)

/-- The transfer of the tail back. -/
def readTail (s : Sides) : Option (Sides × CommandState) :=
  if c.copyout then
    asyncReadMem env.align8b env.maxSend env.recvfrag env.recvcut env.read env.fuel s (env.extraBuf c) (env.extraStk c)
      (env.extraSize c)
  else some (s, .ok)

/-- The finaliser, with the status of the write, the status and result of the call, and the status of the read. -/
def finalise (copyoutFunc : List Byte → Mem → Option Mem) (writestat callstat : CommandState) (result : Word) (readstat : CommandState)
    (s : Sides) : Option (Sides × CommandState × Word) :=
  let vh := if readstat = .ok && c.copyout then copyoutFunc (s.vh.read c.stack c.stackSize.toNat) s.vh else some s.vh
  vh.map fun vh =>
    ({ s with vh := vh }, if writestat ≠ .ok then writestat else if callstat ≠ .ok then callstat else readstat, result)

/-- `doCallAsync` to the delivery of its request. -/
def doCallAsync (copyoutFunc : List Byte → Mem → Option Mem) (s : Sides) : Option (Sides × CommandState × Word) :=
  if env.isSimple c then env.simpleCallAsync c none copyoutFunc s
  else
    (env.writeTail c s).bind fun w =>
    (env.simpleCallAsync c (some c.stack) copyoutFunc w.1).bind fun r =>
    (env.readTail c r.1).bind fun q => finalise c copyoutFunc w.2 r.2.1 r.2.2 q.2 q.1

/-- The state in which the call is made, if the tail was sent first where that is needed. -/
def Ready (s s' : Sides) : Prop := if env.isSimple c then s' = s else env.writeTail c s = some (s', .ok)

/-- The registers and the memory with which the handler calls the VE function. -/
def callInput (s : Sides) : List Word × Mem :=
  let m := env.sendCallNolock c s.vh
  (m.2.regs.take maxArgsInRegs, stackIn m.1 m.2 s.ve.mem)

/-! ### The part that the message carries -/

/-- The number of bytes of the image in the message of the call. -/
def sentSize : Nat := min c.stackSize.toNat (env.maxArgsSize - regArgsSz c).toNat

end CallEnv

namespace CallData

/-- The registers are those of the arguments, and the call is not the one that asks for the stack pointer. -/
structure Valid (c : CallData) : Prop where
  regs : c.regs.length = if numArgsOnRegister < c.numArgs then numArgsOnRegister else c.numArgs
  addr : c.addr ≠ 0

/-- The memory in which the VE function has to be called. -/
def input (c : CallData) (s : Sides) : Mem :=
  if c.copyin then s.ve.mem.write c.stackTop (s.vh.read c.stack c.stackSize.toNat) else s.ve.mem

theorem Valid.length_le {c : CallData} (h : c.Valid) : c.regs.length ≤ numArgsOnRegister := by
  rw [h.regs]
  split <;> omega

end CallData

namespace CallEnv

section

variable {env : CallEnv} {c : CallData} {s s' : Sides}

theorem sendCallNolock_eq (hc : c.Valid) (vh : Mem) :
    env.sendCallNolock c vh =
      match c.copyin, c.copyout with
      | false, false => (.call, ⟨c.addr, c.regs, 0, 0, []⟩)
      | true, false => (.stkIn, ⟨c.addr, c.regs, c.stackTop, env.veSp, vh.read c.stack (env.sentSize c)⟩)
      | true, true => (.stkInOut, ⟨c.addr, c.regs, c.stackTop, env.veSp, vh.read c.stack (env.sentSize c)⟩)
      | false, true => (.stkOut, ⟨c.addr, c.regs, c.stackTop, env.veSp, (List.range (env.sentSize c)).map env.room⟩) := by
  have hregsz : BitVec.ofNat 64 (c.regs.length * 8) = regArgsSz c := by rw [hc.regs, regArgsSz]
  have hsize : (if env.maxArgsSize - regArgsSz c < c.stackSize then env.maxArgsSize - regArgsSz c else c.stackSize).toNat =
      env.sentSize c := by
    rw [sentSize]
    split
    · rename_i hlt
      exact (Nat.min_eq_right (Nat.le_of_lt hlt)).symm
    · rename_i hle
      exact (Nat.min_eq_left (BitVec.not_lt.mp hle)).symm
  rw [sendCallNolock]
  simp only [hregsz, hsize]
  cases c.copyin <;> cases c.copyout <;> rfl

theorem callInput_eq (hc : c.Valid) : env.callInput c s =
    (c.regs, if c.copyin then s.ve.mem.write c.stackTop (s.vh.read c.stack (env.sentSize c)) else s.ve.mem) := by
  have htake : c.regs.take maxArgsInRegs = c.regs := List.take_of_length_le hc.length_le
  rw [callInput, sendCallNolock_eq hc]
  cases c.copyin <;> cases c.copyout <;> simp only [htake, stackIn] <;> rfl

/-- Without a transfer of its own the whole image is sent. -/
theorem sentSize_of_simple (h : env.isSimple c = true) (hstack : (c.copyin || c.copyout) = true) :
    env.sentSize c = c.stackSize.toNat := by
  rw [isSimple, hstack, Bool.not_true, Bool.false_or] at h
  exact Nat.min_eq_left (of_decide_eq_true h)

/-- Otherwise the rest of it is what the transfers are for: they are computed from the same limit. -/
structure Cut (env : CallEnv) (c : CallData) : Prop where
  stack : (c.copyin || c.copyout) = true
  le : env.sentSize c ≤ c.stackSize.toNat
  stk : env.extraStk c = c.stackTop + BitVec.ofNat 64 (env.sentSize c)
  buf : env.extraBuf c = c.stack + BitVec.ofNat 64 (env.sentSize c)
  size : (env.extraSize c).toNat = c.stackSize.toNat - env.sentSize c

theorem cut_of_not_simple (h : env.isSimple c = false) : Cut env c := by
  rw [isSimple, Bool.or_eq_false_iff, Bool.not_eq_false', decide_eq_false_iff_not] at h
  obtain ⟨hstack, hlt⟩ := h
  have hlt : (env.maxArgsSize - regArgsSz c).toNat < c.stackSize.toNat := BitVec.not_le.mp hlt
  have hsent : env.sentSize c = (env.maxArgsSize - regArgsSz c).toNat := Nat.min_eq_right (Nat.le_of_lt hlt)
  have hword : BitVec.ofNat 64 (env.sentSize c) = env.maxArgsSize - regArgsSz c := by
    rw [hsent, BitVec.ofNat_toNat, BitVec.setWidth_eq]
  have hrest : env.extraSize c = c.stackSize - (env.maxArgsSize - regArgsSz c) := by
    rw [extraSize, sub_add]
  refine ⟨hstack, by omega, ?_, ?_, ?_⟩
  · rw [extraStk, hword, add_sub_assoc]
  · rw [extraBuf, hword, add_sub_assoc]
  · rw [hrest, hsent, BitVec.toNat_sub_of_le (Nat.le_of_lt hlt)]

/-- A read of the whole image, at the limit. -/
theorem Cut.read (h : Cut env c) (m : Mem) (a : Word) : m.read a c.stackSize.toNat =
    m.read a (env.sentSize c) ++ m.read (a + BitVec.ofNat 64 (env.sentSize c)) (env.extraSize c).toNat := by
  rw [h.size, ← Mem.read_append, Nat.add_sub_cancel' h.le]

theorem Cut.length_le (h : Cut env c) : env.sentSize c + (env.extraSize c).toNat ≤ 2 ^ 64 := by
  have := c.stackSize.isLt
  have := h.le
  rw [h.size]
  omega

/-! ### The input of the function -/

/-- The function is called with the registers and the whole image, whichever way the image went. -/
theorem callInput_of_ready (hc : c.Valid) (h : env.Ready c s s') : s'.vh = s.vh ∧ env.callInput c s' = (c.regs, c.input s) := by
  rw [callInput_eq hc, CallData.input]
  rw [Ready] at h
  split at h
  · rename_i hsimple
    subst h
    refine ⟨rfl, ?_⟩
    cases hin : c.copyin with
    | false => rfl
    | true => rw [sentSize_of_simple hsimple (by rw [hin]; rfl)]
  · rename_i hlarge
    have hcut := cut_of_not_simple (Bool.not_eq_true _ ▸ hlarge)
    rw [writeTail] at h
    split at h
    · rename_i hin
      obtain ⟨hvh, hve⟩ := asyncWriteMem_ok h
      refine ⟨hvh, ?_⟩
      rw [if_pos hin, if_pos hin, hve, hvh, hcut.stk, hcut.buf, hcut.read]
      -- The head is stored after the tail.
      have happend := @Mem.write_append_rev s.ve.mem c.stackTop (s.vh.read c.stack (env.sentSize c))
        (s.vh.read (c.stack + BitVec.ofNat 64 (env.sentSize c)) (env.extraSize c).toNat)
        (by rw [List.length_append, Mem.length_read, Mem.length_read]; exact hcut.length_le)
      rw [Mem.length_read] at happend
      rw [happend]
    · rename_i hin
      cases h
      exact ⟨rfl, by rw [if_neg hin, if_neg hin]⟩

/-! ### The command of the call -/

theorem copyBack_of_dvd {mem : Mem} {stackTop : Word} {stack : List Byte} (h : 8 ∣ stack.length) :
    copyBack mem stackTop stack = mem.read stackTop stack.length := by
  rw [copyBack, Nat.div_mul_cancel h, List.drop_length, List.append_nil]

/-- The reply of the handler to a call whose function returns. -/
theorem callReply_eq (hc : c.Valid) (hwords : c.copyout = true → 8 ∣ env.sentSize c) (vh : Mem) (val : Word) (mem : Mem) :
    callReply (env.sendCallNolock c vh).1 (env.sendCallNolock c vh).2 val mem =
      if c.copyout then .resStk val (mem.read c.stackTop (env.sentSize c)) else .result val := by
  rw [sendCallNolock_eq hc]
  cases c.copyin <;> cases hout : c.copyout
  · rfl
  · simp only [callReply]
    rw [if_pos (by simp), copyBack_of_dvd (by simpa using hwords hout)]
    simp
  · rfl
  · simp only [callReply]
    rw [if_pos (by simp), copyBack_of_dvd (by simpa using hwords hout)]
    simp

/-- The handler calls the function with its input and sends the reply. -/
theorem callHandler_eq (hc : c.Valid) (s : Sides) :
    callHandler env.veSp s.ve s.ve.replies.length (env.sendCallNolock c s.vh).1 (env.sendCallNolock c s.vh).2 env.fn .sent =
      match env.fn c.addr (env.callInput c s).1 (env.callInput c s).2 with
      | none => (s.ve, .exits)
      | some (val, mem) => replyChecked { s.ve with mem := mem } s.ve.replies.length
          (callReply (env.sendCallNolock c s.vh).1 (env.sendCallNolock c s.vh).2 val mem) .sent := by
  have haddr : (env.sendCallNolock c s.vh).2.addr = c.addr := by
    rw [sendCallNolock_eq hc]
    cases c.copyin <;> cases c.copyout <;> rfl
  have hsp : (env.sendCallNolock c s.vh).1 = .call ∨ (env.sendCallNolock c s.vh).2.recvSp = env.veSp := by
    rw [sendCallNolock_eq hc]
    cases c.copyin <;> cases c.copyout <;> simp
  rw [callHandler, haddr, if_neg (fun h => hc.addr h.2), if_neg]
  · rfl
  · rintro ⟨hne, hne'⟩
    rcases hsp with hcmd | hsame
    · exact hne (if_pos hcmd)
    · split at hne'
      · rename_i hcmd
        exact hne (if_pos hcmd)
      · exact hne' hsame

/-- A call that is answered: the function is called with its input, and the result function takes the stack from the
reply if it is copied out. -/
theorem simpleCallAsync_eq (hc : c.Valid) (hwords : c.copyout = true → 8 ∣ env.sentSize c) (hcall : env.call = .answered)
    (stack_ : Option Word) (f : List Byte → Mem → Option Mem) (s : Sides) :
    ∃ ve : Mem → Word → Ve, (∀ mem val, (ve mem val).mem = mem) ∧
      env.simpleCallAsync c stack_ f s = (env.fn c.addr c.regs (env.callInput c s).2).bind fun r =>
        (if c.copyout then unpackStack f stack_ s.vh (r.2.read c.stackTop (env.sentSize c)) else some s.vh).map fun vh =>
          ({ vh := vh, ve := ve r.2 r.1 }, .ok, r.1) := by
  have hregs : (env.callInput c s).1 = c.regs := by rw [callInput_eq hc]
  refine ⟨fun mem val => ({ s.ve with mem := mem }.send s.ve.replies.length
    (callReply (env.sendCallNolock c s.vh).1 (env.sendCallNolock c s.vh).2 val mem) .sent).2, fun _ _ => rfl, ?_⟩
  simp only [simpleCallAsync, hcall]
  rw [callHandler_eq hc, hregs]
  cases hfn : env.fn c.addr c.regs (env.callInput c s).2 with
  | none => simp
  | some r =>
    have hreply := callReply_eq hc hwords s.vh r.1 r.2
    simp only [replyChecked, Ve.send, List.getElem?_concat_length, Option.map_some, Option.bind_some]
    rw [hreply]
    cases c.copyout <;> rfl

theorem call_of_ok {stack_ : Option Word} {f : List Byte → Mem → Option Mem} {val : Word}
    (h : env.simpleCallAsync c stack_ f s = some (s', .ok, val)) : env.call = .answered := by
  cases hcall : env.call with
  | answered => rfl
  | refused =>
    rw [simpleCallAsync, hcall] at h
    cases h
  | exception ve exc =>
    rw [simpleCallAsync, hcall] at h
    cases h

/-- The result of a call that succeeds is the one of the function. -/
theorem fn_of_simpleCallAsync (hc : c.Valid) {stack_ : Option Word} {f : List Byte → Mem → Option Mem} {val : Word}
    (h : env.simpleCallAsync c stack_ f s = some (s', .ok, val)) :
    env.fn c.addr c.regs (env.callInput c s).2 = some (val, s'.ve.mem) := by
  have hregs : (env.callInput c s).1 = c.regs := by rw [callInput_eq hc]
  simp only [simpleCallAsync, call_of_ok h] at h
  rw [callHandler_eq hc, hregs] at h
  cases hfn : env.fn c.addr c.regs (env.callInput c s).2 with
  | none => simp [hfn] at h
  | some r =>
    simp only [hfn, replyChecked, Ve.send, List.getElem?_concat_length, Option.map_some, callReply] at h
    split at h
    · cases h
    · rename_i hreply
      cases h
      split at hreply <;> cases hreply
      rfl
    · rename_i hreply
      obtain ⟨vh, -, heq⟩ := Option.map_eq_some_iff.mp h
      cases heq
      split at hreply <;> cases hreply
      rfl
    · cases h

/-- Where a call that succeeds has put the part of the image that came with the reply. -/
theorem vh_of_simpleCallAsync (hc : c.Valid) (hwords : c.copyout = true → 8 ∣ env.sentSize c) {stack_ : Option Word}
    {f : List Byte → Mem → Option Mem} {val : Word} (h : env.simpleCallAsync c stack_ f s = some (s', .ok, val)) :
    (if c.copyout then unpackStack f stack_ s.vh (s'.ve.mem.read c.stackTop (env.sentSize c)) else some s.vh) = some s'.vh := by
  obtain ⟨ve, hmem, heq⟩ := simpleCallAsync_eq hc hwords (call_of_ok h) stack_ f s
  rw [heq] at h
  obtain ⟨r, -, hmap⟩ := Option.bind_eq_some_iff.mp h
  obtain ⟨vh, hvh, hres⟩ := Option.map_eq_some_iff.mp hmap
  obtain ⟨hs, -⟩ := Prod.mk.inj hres
  subst hs
  simp only [hmem]
  exact hvh

/-! ### The whole call -/

/-- A call that succeeds has called the function with its input, and `copyout_func` has had the bytes that the function
left in place of the image; on the VH nothing but the buffer of the image was written before. -/
structure Done (env : CallEnv) (c : CallData) (f : List Byte → Mem → Option Mem) (s s' : Sides) (val : Word) : Prop where
  call : env.call = .answered
  fn : env.fn c.addr c.regs (c.input s) = some (val, s'.ve.mem)
  vh : ∃ vh, (∀ x, ¬ InRange c.stack c.stackSize.toNat x → vh x = s.vh x) ∧
    (if c.copyout then f (s'.ve.mem.read c.stackTop c.stackSize.toNat) vh else some vh) = some s'.vh

theorem finalise_ok {f : List Byte → Mem → Option Mem} {writestat callstat readstat : CommandState} {result val : Word}
    (h : finalise c f writestat callstat result readstat s = some (s', .ok, val)) :
    writestat = .ok ∧ callstat = .ok ∧ readstat = .ok ∧ result = val ∧ s'.ve = s.ve ∧
      (if c.copyout then f (s.vh.read c.stack c.stackSize.toNat) s.vh else some s.vh) = some s'.vh := by
  obtain ⟨vh, hvh, hres⟩ := Option.map_eq_some_iff.mp h
  obtain ⟨hs, hres⟩ := Prod.mk.inj hres
  obtain ⟨hstat, hval⟩ := Prod.mk.inj hres
  subst hs
  split at hstat
  · rename_i hne
    exact absurd hstat hne
  · rename_i hwrite
    split at hstat
    · rename_i hne
      exact absurd hstat hne
    · rename_i hcall
      refine ⟨not_not.mp hwrite, not_not.mp hcall, hstat, hval, rfl, ?_⟩
      rw [hstat] at hvh
      simpa using hvh

theorem readTail_ok (hcut : Cut env c) (h : env.readTail c s = some (s', .ok)) : s'.ve.mem = s.ve.mem ∧
    s'.vh = if c.copyout then s.vh.write (c.stack + BitVec.ofNat 64 (env.sentSize c))
      (s.ve.mem.read (c.stackTop + BitVec.ofNat 64 (env.sentSize c)) (env.extraSize c).toNat) else s.vh := by
  rw [readTail] at h
  split at h
  · rename_i hout
    rw [← hcut.buf, ← hcut.stk, if_pos hout]
    exact asyncReadMem_ok h
  · rename_i hout
    cases h
    exact ⟨rfl, (if_neg hout).symm⟩

/-- However the image went, a call that succeeds has called the function with its input. -/
theorem fn_of_ok (hc : c.Valid) {f : List Byte → Mem → Option Mem} {val : Word}
    (h : env.doCallAsync c f s = some (s', .ok, val)) : env.fn c.addr c.regs (c.input s) = some (val, s'.ve.mem) := by
  rw [doCallAsync] at h
  split at h
  · rename_i hsimple
    obtain ⟨-, hinput⟩ := callInput_of_ready hc (by rw [Ready, if_pos hsimple] : env.Ready c s s)
    have hfn := fn_of_simpleCallAsync hc h
    rwa [hinput] at hfn
  · rename_i hlarge
    obtain ⟨⟨s₁, writestat⟩, hwrite, h⟩ := Option.bind_eq_some_iff.mp h
    obtain ⟨⟨s₂, callstat, result⟩, hcall, h⟩ := Option.bind_eq_some_iff.mp h
    obtain ⟨⟨s₃, readstat⟩, hread, h⟩ := Option.bind_eq_some_iff.mp h
    obtain ⟨rfl, rfl, rfl, rfl, hve, -⟩ := finalise_ok h
    obtain ⟨-, hinput⟩ := callInput_of_ready hc (by rw [Ready, if_neg hlarge]; exact hwrite)
    have hmem := (readTail_ok (cut_of_not_simple (Bool.not_eq_true _ ▸ hlarge)) hread).1
    have hfn := fn_of_simpleCallAsync hc hcall
    rwa [hinput, ← hmem, ← hve] at hfn

theorem done_of_large (hc : c.Valid) (hwords : c.copyout = true → 8 ∣ env.sentSize c) {f : List Byte → Mem → Option Mem} {val : Word}
    (hlarge : env.isSimple c = false) (h : env.doCallAsync c f s = some (s', .ok, val)) : Done env c f s s' val := by
  have hcut := cut_of_not_simple hlarge
  have hfn := fn_of_ok hc h
  rw [doCallAsync, if_neg (by rw [hlarge]; exact nofun)] at h
  obtain ⟨⟨s₁, writestat⟩, hwrite, h⟩ := Option.bind_eq_some_iff.mp h
  obtain ⟨⟨s₂, callstat, result⟩, hcall, h⟩ := Option.bind_eq_some_iff.mp h
  obtain ⟨⟨s₃, readstat⟩, hread, h⟩ := Option.bind_eq_some_iff.mp h
  obtain ⟨rfl, rfl, rfl, rfl, hve, hvh⟩ := finalise_ok h
  obtain ⟨hvh₁, -⟩ := callInput_of_ready hc (by rw [Ready, if_neg (by rw [hlarge]; exact nofun)]; exact hwrite)
  have hvh₂ := vh_of_simpleCallAsync hc hwords hcall
  obtain ⟨hmem₃, hvh₃⟩ := readTail_ok hcut hread
  refine ⟨call_of_ok hcall, hfn, ?_⟩
  cases hout : c.copyout with
  | false =>
    rw [hout, if_neg nofun] at hvh₂ hvh₃ hvh
    refine ⟨s.vh, fun _ _ => rfl, ?_⟩
    rw [← hvh, hvh₃, ← Option.some.inj hvh₂, hvh₁]
    rfl
  | true =>
    rw [hout, if_pos rfl] at hvh₂ hvh₃ hvh
    -- The head came with the reply, and the tail after it.
    have hwhole : s₃.vh = s.vh.write c.stack (s₂.ve.mem.read c.stackTop c.stackSize.toNat) := by
      have happend := @Mem.write_append s.vh c.stack (s₂.ve.mem.read c.stackTop (env.sentSize c))
        (s₂.ve.mem.read (c.stackTop + BitVec.ofNat 64 (env.sentSize c)) (env.extraSize c).toNat)
        (by rw [List.length_append, Mem.length_read, Mem.length_read]; exact hcut.length_le)
      rw [Mem.length_read, ← hcut.read] at happend
      rw [hvh₃, ← Option.some.inj hvh₂, hvh₁, happend]
    refine ⟨s₃.vh, fun x hx => ?_, ?_⟩
    · rw [hwhole]
      exact Mem.write_of_not_inRange (by rwa [Mem.length_read])
    · have hlt := c.stackSize.isLt
      have hback := @Mem.read_write_self s.vh c.stack (s₂.ve.mem.read c.stackTop c.stackSize.toNat)
        (by rw [Mem.length_read]; omega)
      rw [Mem.length_read, ← hwhole] at hback
      rw [hve, hmem₃, if_pos rfl, ← hback]
      exact hvh

theorem done_of_simple (hc : c.Valid) (hwords : c.copyout = true → 8 ∣ env.sentSize c) {f : List Byte → Mem → Option Mem} {val : Word}
    (hsimple : env.isSimple c = true) (h : env.doCallAsync c f s = some (s', .ok, val)) : Done env c f s s' val := by
  have hfn := fn_of_ok hc h
  rw [doCallAsync, if_pos hsimple] at h
  have hvh := vh_of_simpleCallAsync hc hwords h
  refine ⟨call_of_ok h, hfn, s.vh, fun _ _ => rfl, ?_⟩
  cases hout : c.copyout with
  | false => simpa [hout] using hvh
  | true =>
    rw [hout, sentSize_of_simple hsimple (by rw [hout, Bool.or_true])] at hvh
    exact hvh

theorem done_of_ok (hc : c.Valid) (hwords : c.copyout = true → 8 ∣ env.sentSize c) {f : List Byte → Mem → Option Mem} {val : Word}
    (h : env.doCallAsync c f s = some (s', .ok, val)) : Done env c f s s' val := by
  cases hsimple : env.isSimple c with
  | true => exact done_of_simple hc hwords hsimple h
  | false => exact done_of_large hc hwords hsimple h

/-- The way without transfers of its own ends in the same way, if `copyout_func` only writes and does not read. -/
theorem simple_of_done {env' : CallEnv} (hc : c.Valid) (hwords : c.copyout = true → 8 ∣ env'.sentSize c)
    {f : List Byte → Mem → Option Mem} {val : Word} (h : Done env c f s s' val) (hsimple : env'.isSimple c = true)
    (hfn : env'.fn = env.fn) (hcall : env'.call = env.call)
    (hf : ∀ payload m m' m₁, (∀ x, ¬ InRange c.stack c.stackSize.toNat x → m x = m' x) → f payload m = some m₁ →
      ∃ m₁', f payload m' = some m₁' ∧ ∀ x, ¬ InRange c.stack c.stackSize.toNat x → m₁ x = m₁' x) :
    ∃ s₂, env'.doCallAsync c f s = some (s₂, .ok, val) ∧ s'.ve.mem = s₂.ve.mem ∧
      ∀ x, ¬ InRange c.stack c.stackSize.toNat x → s'.vh x = s₂.vh x := by
  obtain ⟨ve, hmem, heq⟩ := simpleCallAsync_eq hc hwords (hcall.trans h.call) none f s
  obtain ⟨-, hinput⟩ := callInput_of_ready hc (by rw [Ready, if_pos hsimple] : env'.Ready c s s)
  obtain ⟨vh, hsame, hvh⟩ := h.vh
  rw [doCallAsync, if_pos hsimple, heq, hinput, hfn, h.fn, Option.bind_some]
  cases hout : c.copyout with
  | false =>
    rw [hout, if_neg nofun] at hvh
    refine ⟨_, rfl, (hmem _ _).symm, fun x hx => ?_⟩
    rw [← Option.some.inj hvh]
    exact hsame x hx
  | true =>
    rw [hout, if_pos rfl] at hvh
    obtain ⟨vh', hvh', hsame'⟩ := hf _ _ _ _ hsame hvh
    rw [sentSize_of_simple hsimple (by rw [hout, Bool.or_true]), if_pos rfl, unpackStack, hvh']
    exact ⟨_, rfl, (hmem _ _).symm, hsame'⟩

end

end CallEnv

/-! ### After `setup` -/

/-- What `callAsync` hands to `doCallAsync`. -/
theorem setup_of_callAsync {vh : Mem} {veSp addr : Word} {args : List Arg} {img : StackImage}
    (h : callAsync vh true veSp addr args = .ok (some img)) :
    addr ≠ 0 ∧ setup vh args (veSp - BitVec.ofNat 64 reservedStackSize) = .ok img := by
  rw [callAsync] at h
  split at h
  · cases h
  · rename_i haddr
    refine ⟨fun hzero => haddr (.inl hzero), ?_⟩
    cases hsetup : setup vh args (veSp - BitVec.ofNat 64 reservedStackSize) with
    | error e =>
      rw [hsetup] at h
      cases h
    | ok img' =>
      rw [hsetup] at h
      simp only [bind, Except.bind] at h
      split at h <;> cases h
      rfl

theorem callAsync_eq_some {vh : Mem} {veSp addr : Word} {args : List Arg} (haddr : addr ≠ 0) (hsize : totalSize args < 2 ^ 31)
    (hpage : veSp &&& pageMask =
      (getStackImage vh args (veSp - BitVec.ofNat 64 reservedStackSize)).stackTop &&& pageMask) :
    callAsync vh true veSp addr args = .ok (some (getStackImage vh args (veSp - BitVec.ofNat 64 reservedStackSize))) := by
  rw [callAsync, if_neg (fun h => h.elim haddr (fun h => by cases h)), (setup_eq_ok_iff _ _ _).mpr hsize]
  simp only [bind, Except.bind, if_neg (not_not.mpr hpage)]
  rfl

theorem length_getRegVal (mem : Mem) (args : List Arg) (sp : Word) : (getRegVal args (getStackImage mem args sp)).length =
    if numArgsOnRegister < args.length then numArgsOnRegister else args.length := by
  have hlen : (getStackImage mem args sp).vemva.length = args.length := length_vemva args
  rw [getRegVal, List.length_take, List.length_zipWith, hlen, Nat.min_self]
  split <;> omega

theorem valid_of_callAsync {vh : Mem} {veSp addr stack : Word} {args : List Arg} {img : StackImage}
    (h : callAsync vh true veSp addr args = .ok (some img)) : (CallData.of addr stack args img).Valid := by
  obtain ⟨haddr, hsetup⟩ := setup_of_callAsync h
  refine ⟨?_, haddr⟩
  rw [(setup_ok hsetup).1]
  exact length_getRegVal _ _ _

/-- The handler copies whole words back. -/
theorem CallEnv.dvd_sentSize {env : CallEnv} {c : CallData} (hcap : 8 ∣ env.maxSend.toNat) (hsize : 8 ∣ c.stackSize.toNat) :
    8 ∣ env.sentSize c := by
  have hregs : 8 ∣ (regArgsSz c).toNat := by
    rw [regArgsSz, BitVec.toNat_ofNat]
    omega
  have hlimit : 8 ∣ (env.maxArgsSize - regArgsSz c).toNat := by
    rw [maxArgsSize, BitVec.toNat_sub, BitVec.toNat_sub, show sendCallCmdSizeWithoutData.toNat = 40 from rfl]
    omega
  rw [sentSize]
  omega

/-- The VH memory and the VE when `doCallAsync` is called: `setup` has put the image into a fresh buffer. -/
def setupSides (vh : Mem) (ve : Ve) (stack : Word) (img : StackImage) : Sides := ⟨vh.write stack img.image, ve⟩

/-- The capacity of a message makes no difference. With any capacity in whole words the VE function gets the registers and the
memory that it would get if the image fitted, and a call that succeeds ends with the result, the VE memory and the
buffers of the arguments with which it would end then. -/
theorem large_call_refines_simple (env : CallEnv) (unlimited : Word) (vh : Mem) (ve : Ve) (addr stack : Word) (args : List Arg)
    (img : StackImage) (hcall : callAsync vh true env.veSp addr args = .ok (some img)) (hcap : 8 ∣ env.maxSend.toNat)
    (hsimple : CallEnv.isSimple { env with maxSend := unlimited } (CallData.of addr stack args img) = true)
    (hfresh : ∀ buff len intent, .onStack buff len intent ∈ args → Apart buff len.toNat stack img.stackSize.toNat) :
    let c := CallData.of addr stack args img
    let s := setupSides vh ve stack img
    (∀ s₁, env.Ready c s s₁ → env.callInput c s₁ = CallEnv.callInput { env with maxSend := unlimited } c s) ∧
      ∀ s₁ val, env.doCallAsync c (copyout args img) s = some (s₁, .ok, val) →
        ∃ s₂, CallEnv.doCallAsync { env with maxSend := unlimited } c (copyout args img) s = some (s₂, .ok, val) ∧
          s₁.ve.mem = s₂.ve.mem ∧
          ∀ buff len intent, .onStack buff len intent ∈ args → s₁.vh.read buff len.toNat = s₂.vh.read buff len.toNat := by
  intro c s
  have hc : c.Valid := valid_of_callAsync hcall
  have hdvd : 8 ∣ c.stackSize.toNat := by
    obtain ⟨himg, hsize⟩ := setup_ok (setup_of_callAsync hcall).2
    have hval : c.stackSize.toNat = (totalSize args + 15) / 16 * 16 := by
      rw [show c.stackSize = img.stackSize from rfl, himg, toNat_stackSize _ _ hsize]
    omega
  refine ⟨fun s₁ hready => ?_, fun s₁ val h => ?_⟩
  · have hready' : CallEnv.Ready { env with maxSend := unlimited } c s s := by rw [CallEnv.Ready, if_pos hsimple]
    rw [(CallEnv.callInput_of_ready hc hready).2, (CallEnv.callInput_of_ready hc hready').2]
  · have hdone := CallEnv.done_of_ok hc (fun _ => CallEnv.dvd_sentSize hcap hdvd) h
    have hwords : c.copyout = true → 8 ∣ CallEnv.sentSize { env with maxSend := unlimited } c := fun hout => by
      rw [CallEnv.sentSize_of_simple hsimple (by rw [hout, Bool.or_true])]
      exact hdvd
    obtain ⟨s₂, hs₂, hmem, hvh⟩ := CallEnv.simple_of_done hc hwords hdone hsimple rfl rfl
      fun _ _ _ _ hsame hcopy => copyout_congr hsame hcopy
    exact ⟨s₂, hs₂, hmem, fun buff len intent harg =>
      Mem.read_congr fun x hx => hvh x (hfresh buff len intent harg x hx)⟩

/-- A function that stores three bytes at the address in its first register and returns 7. -/
def storesThree : VeFunction := fun _ regs mem => some (7, mem.write (regs.headD 0) [1, 2, 3])

def roomyEnv (maxSend : Word) (fn : VeFunction) : CallEnv :=
  { maxSend := maxSend, align8b := align8bDiv, sendfrag := none, sendcut := none, recvfrag := none, recvcut := none, fuel := 8,
    veSp := 0x600000100000, room := fun _ => 0, fn := fn, write := fun _ => .answered, call := .answered,
    read := fun _ => .answered }

/-- A buffer of a hundred bytes, the image of the call and where the call starts. -/
def hundredBytes : List Arg := [.onStack 0x1000 100 .inout]

def hundredImage : StackImage := getStackImage (fun a => a.setWidth 8) hundredBytes 0x600000080000

def hundredSides : Sides := setupSides (fun a => a.setWidth 8) ⟨fun _ => 0, 0, []⟩ 0x9000 hundredImage

theorem callAsync_hundredBytes :
    callAsync (fun a => a.setWidth 8) true 0x600000100000 0x2000 hundredBytes = .ok (some hundredImage) :=
  callAsync_eq_some (by decide) (by decide) (by decide +kernel)

/-- A message of 248 bytes takes 200 bytes of the image, so the buffer is cut. -/
theorem large_call_refines_simple_hundred :
    (roomyEnv 248 storesThree).isSimple (.of 0x2000 0x9000 hundredBytes hundredImage) = false ∧
      ∃ s₁ s₂, (roomyEnv 248 storesThree).doCallAsync (.of 0x2000 0x9000 hundredBytes hundredImage)
          (copyout hundredBytes hundredImage) hundredSides = some (s₁, .ok, 7) ∧
        (roomyEnv 0x10000 storesThree).doCallAsync (.of 0x2000 0x9000 hundredBytes hundredImage)
          (copyout hundredBytes hundredImage) hundredSides = some (s₂, .ok, 7) ∧
        s₁.vh.read 0x1000 100 = s₂.vh.read 0x1000 100 := by
  have hrun : ((roomyEnv 248 storesThree).doCallAsync (.of 0x2000 0x9000 hundredBytes hundredImage)
      (copyout hundredBytes hundredImage) hundredSides).map Prod.snd = some (.ok, 7) := by decide +kernel
  obtain ⟨⟨s₁, st, val⟩, hs₁, heq⟩ := Option.map_eq_some_iff.mp hrun
  cases heq
  have hfresh : ∀ buff len intent, .onStack buff len intent ∈ hundredBytes →
      Apart buff len.toNat 0x9000 hundredImage.stackSize.toNat := by
    intro buff len intent hmem
    cases List.mem_singleton.mp hmem
    exact apart_of_le (by decide) (by decide +kernel)
  obtain ⟨s₂, hs₂, -, hread⟩ := (large_call_refines_simple (roomyEnv 248 storesThree) 0x10000 _ ⟨fun _ => 0, 0, []⟩ 0x2000 0x9000
    hundredBytes hundredImage callAsync_hundredBytes (by decide) (by decide +kernel) hfresh).2 s₁ 7 hs₁
  exact ⟨by decide +kernel, s₁, s₂, hs₁, hs₂, hread _ _ _ List.mem_cons_self⟩

end Aveo

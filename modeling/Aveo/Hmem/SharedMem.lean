import Aveo.Context.CallData
import Aveo.Hmem.Entry

/-!
# System calls on the VE

The functions of `veo_veshm.cpp` and `veo_vhveshm.cpp` make a system call in the VE process: `callSyscallWrapper` calls
`syscall_wrapper` there. Its result carries a failure as a negative error number. The kernel of the VE is not part of the
repository: a system call ends with a value or with an error, and may write to memory.
-/

namespace Aveo

open Lib

/-- How a system call ends: `syscall` returns a value, or -1 with the error in `errno`. -/
inductive SyscallEnd
  | success (val : Word)
  | failure (err : BitVec 32)
  deriving DecidableEq

namespace SyscallEnd

/-- The value that `syscall` returns. -/
def ret : SyscallEnd → Word
  | success val => val
  | failure _ => -1

/-- `errno` after it. -/
def errnoAfter (errno : BitVec 32) : SyscallEnd → BitVec 32
  | success _ => errno
  | failure err => err

/-- A value outside of -4095 to -1, or an error from 1 to 4095. -/
def Proper : SyscallEnd → Prop
  | success val => ¬ (-4095 ≤ val.toInt ∧ val.toInt ≤ -1)
  | failure err => 1 ≤ err.toInt ∧ err.toInt ≤ 4095

instance (e : SyscallEnd) : Decidable e.Proper :=
  match e with
  | success val => inferInstanceAs (Decidable (¬ (-4095 ≤ val.toInt ∧ val.toInt ≤ -1)))
  | failure err => inferInstanceAs (Decidable (1 ≤ err.toInt ∧ err.toInt ≤ 4095))

end SyscallEnd

/-- The kernel: from the arguments in the registers and the memory to the end of the call and the memory. -/
abbrev Syscalls := List Word → Mem → SyscallEnd × Mem

/-- `syscall_wrapper` after the call, on a thread with `errno` before it. -/
def syscallWrapper (errno : BitVec 32) (e : SyscallEnd) : Word :=
  if e.ret = -1 then (-(e.errnoAfter errno)).signExtend 64 else e.ret

/-- `syscall_wrapper` as a function of the VE. -/
def syscallWrapperFn (errno : BitVec 32) (sys : Syscalls) : VeFunction := fun _ regs mem =>
  some (syscallWrapper errno (sys regs mem).1, (sys regs mem).2)

/-! ### The VH side -/

def enotsup : BitVec 32 := 95
def ebusy : BitVec 32 := 16
def einval : BitVec 32 := 22
def efault : BitVec 32 := 14

/-- The process of a handle as `callSyscallWrapper` meets it: what loading the library and looking up the symbol return, if
the main context is alive, its calls, and where `setup` has put the image. -/
structure SyscallProc where
  libh : Word
  symAddr : Word
  alive : Bool
  env : CallEnv
  stack : Word
  ident : Nat

/-- The test by which `callSyscallWrapper` tells an error from a value. -/
def takenForError (result : Word) : Bool := -4096 < (result.setWidth 32).toInt && (result.setWidth 32).toInt < -1

/-- What `callSyscallWrapper` returns for the result of the wrapper, and `errno`. -/
def decodeSyscall (errno : BitVec 32) (result : Word) : Word × BitVec 32 :=
  if takenForError result then (-1, (result.setWidth 32).abs) else (result, errno)

namespace SyscallProc

variable (p : SyscallProc) (errno : BitVec 32)

/-- `Context::callSync`: what it returns, and the result. `none` if it does not return. -/
def callSync (addr : Word) (args : List Arg) (s : Sides) : Option (Int × Word × Sides) :=
  if p.alive = false then some (-1, -1, s)
  else
    match setup s.vh args (p.env.veSp - BitVec.ofNat 64 reservedStackSize) with
    | .error _ => none
    | .ok img =>
        if p.env.veSp &&& pageMask ≠ img.stackTop &&& pageMask then some (-1, -1, s)
        else
          (p.env.doCallAsync (.of addr p.stack args img) (copyout args img) (setupSides s.vh s.ve p.stack img)).map fun r =>
            (if r.2.1 ≠ .ok then -1 else 0, r.2.2, r.1)

/-- `callSyscallWrapper`: the value it returns and `errno`, which the call itself leaves at the given value. -/
def callSyscallWrapper (ca : List Arg) (s : Sides) : Option (Word × BitVec 32 × Sides) :=
  if p.libh = 0 then some (-1, enotsup, s)
  else if p.symAddr = 0 then some (-1, enotsup, s)
  else
    (p.callSync p.symAddr ca s).map fun r =>
      if r.1 ≠ 0 then (-1, ebusy, r.2.2)
      else ((decodeSyscall errno r.2.1).1, (decodeSyscall errno r.2.1).2, r.2.2)

end SyscallProc

/-! ### The functions of the interface -/

def Arg.u64 (val : Word) : Arg := .int .uint64 val

def Arg.i64 (val : Word) : Arg := .int .int64 val

/-- The arguments of a system call `sysve`: its number, the two commands, and those of the function. -/
def sysveArgs (cmd sub : Word) (args : List Arg) : List Arg := .u64 316 :: .u64 cmd :: .u64 sub :: args

/-- `VE_SYSVE_VESHM_CTL` and `VE_SYSVE_VHSHM_CTL`. -/
def veshmCtl : Word := 0x20
def vhshmCtl : Word := 0x40

/-- `VE_REGISTER_VEMVA`. -/
def veRegisterVemva : Word := 0x2000

/-- The arguments of `veo_shared_mem_open` and `veo_shared_mem_close`. -/
def areaArgs (sub vemva size : Word) (syncnum : BitVec 32) (modeFlag : Word) : List Arg :=
  sysveArgs veshmCtl sub [.u64 (veoGetHmemAddr vemva), .u64 size, .i64 (syncnum.signExtend 64), .i64 modeFlag]

/-- The array that `veo_shared_mem_attach` has on its stack. -/
def attachWords (pid : BitVec 32) (veshmVemva size : Word) (syncnum : BitVec 32) (modeFlag : Word) : List Word :=
  [pid.signExtend 64, veoGetHmemAddr veshmVemva, size, syncnum.signExtend 64, modeFlag]

def attachArgs (arr : Word) : List Arg := sysveArgs veshmCtl 0x31 [.onStack arr 40 .input]

def detachArgs (veshmAddr modeFlag : Word) : List Arg :=
  sysveArgs veshmCtl 0x32 [.u64 (veoGetHmemAddr veshmAddr), .i64 modeFlag]

def shmgetArgs (key : BitVec 32) (size : Word) (shmflag : BitVec 32) : List Arg :=
  sysveArgs vhshmCtl 1 [.u64 (key.signExtend 64), .u64 size, .i64 (shmflag.signExtend 64)]

def shmatArgs (shmid : BitVec 32) (shmaddr : Word) (shmflag : BitVec 32) (vehva : Word) : List Arg :=
  sysveArgs vhshmCtl 2 [.i64 (shmid.signExtend 64), .u64 shmaddr, .i64 (shmflag.signExtend 64), .onStack vehva 8 .output]

def shmdtArgs (shmaddr : Word) : List Arg := sysveArgs vhshmCtl 3 [.u64 shmaddr]

/-- The address that `veo_shared_mem_attach` makes of the result. -/
def attached (modeFlag : Word) (ident : Nat) (result : Word) : Word :=
  if modeFlag &&& veRegisterVemva ≠ 0 then setProcIdent (setVeFlag result) ident else result

namespace SyscallProc

variable (p : SyscallProc) (errno : BitVec 32)

/-- The functions that convert the result. -/
def converted {α : Type} (conv : Word → α) (ca : List Arg) (s : Sides) : Option (α × BitVec 32 × Sides) :=
  (p.callSyscallWrapper errno ca s).map fun r => (conv r.1, r.2)

/-- The state with the array of `veo_shared_mem_attach`. -/
def attachSides (arr : Word) (words : List Word) (s : Sides) : Sides :=
  { s with vh := s.vh.write arr (words.flatMap (leBytes 8)) }

def veoSharedMemAttach (arr : Word) (pid : BitVec 32) (veshmVemva size : Word) (syncnum : BitVec 32) (modeFlag : Word)
    (s : Sides) : Option (Word × BitVec 32 × Sides) :=
  p.converted errno (attached modeFlag p.ident) (attachArgs arr)
    (attachSides arr (attachWords pid veshmVemva size syncnum modeFlag) s)

def veoSharedMemDetach (veshmAddr modeFlag : Word) (s : Sides) : Option (BitVec 32 × BitVec 32 × Sides) :=
  p.converted errno (BitVec.setWidth 32) (detachArgs veshmAddr modeFlag) s

def veoShmget (key : BitVec 32) (size : Word) (shmflag : BitVec 32) (s : Sides) : Option (BitVec 32 × BitVec 32 × Sides) :=
  p.converted errno (BitVec.setWidth 32) (shmgetArgs key size shmflag) s

def veoShmat (shmid : BitVec 32) (shmaddr : Word) (shmflag : BitVec 32) (vehva : Word) (s : Sides) :
    Option (Word × BitVec 32 × Sides) :=
  if vehva = 0 then some (-1, efault, s) else p.converted errno id (shmatArgs shmid shmaddr shmflag vehva) s

def veoShmdt (shmaddr : Word) (s : Sides) : Option (BitVec 32 × BitVec 32 × Sides) :=
  p.converted errno (BitVec.setWidth 32) (shmdtArgs shmaddr) s

end SyscallProc

namespace Host

/-- `veo_shared_mem_open` and `veo_shared_mem_close`, which find the process by the address. -/
def areaCall (host : Host) (proc : Handle → SyscallProc) (errno : BitVec 32) (sub vemva size : Word) (syncnum : BitVec 32)
    (modeFlag : Word) : Option (Outcome HmemRaised (BitVec 32 × BitVec 32 × Host)) :=
  match host.veoGetProcHandleFromHmem vemva with
  | .ok none => some (.ok (-1, einval, host))
  | .ok (some h) =>
      ((proc h).converted errno (BitVec.setWidth 32) (areaArgs sub vemva size syncnum modeFlag) (host.sides h)).map fun r =>
        .ok (r.1, r.2.1, host.setSides h r.2.2)
  | .raise e => some (.raise e)
  | .undefined => some .undefined

def veoSharedMemOpen (host : Host) (proc : Handle → SyscallProc) (errno : BitVec 32) (vemva size : Word)
    (syncnum : BitVec 32) (modeFlag : Word) : Option (Outcome HmemRaised (BitVec 32 × BitVec 32 × Host)) :=
  host.areaCall proc errno 0x30 vemva size syncnum modeFlag

def veoSharedMemClose (host : Host) (proc : Handle → SyscallProc) (errno : BitVec 32) (vemva size : Word)
    (syncnum : BitVec 32) (modeFlag : Word) : Option (Outcome HmemRaised (BitVec 32 × BitVec 32 × Host)) :=
  host.areaCall proc errno 0x33 vemva size syncnum modeFlag

end Host

/-! ### What is carried over -/

section

variable {errno veErrno : BitVec 32}

namespace SyscallEnd

/-- The end of a call that the two sides agree on: a value is not taken for an error, and an error is seen. -/
def Carried (errno : BitVec 32) : SyscallEnd → Prop
  | success val => takenForError val = false
  | failure err => err ≠ 1 ∨ errno = 1

/-- A function that makes of a value what `conv` says returned the value, or -1 with the error in `errno`. -/
def Reported {α : Type} (conv : Word → α) (returned : α → BitVec 32 → Prop) : SyscallEnd → Prop
  | success val => ∃ err, returned (conv val) err
  | failure err => returned (conv (-1)) err

end SyscallEnd

theorem syscallWrapper_success {val : Word} (h : (SyscallEnd.success val).Proper) :
    syscallWrapper veErrno (.success val) = val := by
  have hne : val ≠ -1 := by
    rintro rfl
    exact h (by decide)
  exact if_neg hne

theorem syscallWrapper_failure (err : BitVec 32) : syscallWrapper veErrno (.failure err) = (-err).signExtend 64 :=
  if_pos rfl

theorem toInt_neg_err {err : BitVec 32} (h : (SyscallEnd.failure err).Proper) : (-err).toInt = -err.toInt := by
  obtain ⟨hpos, hle⟩ : 1 ≤ err.toInt ∧ err.toInt ≤ 4095 := h
  rw [BitVec.toInt_neg]
  exact Int.bmod_eq_of_le (by omega) (by omega)

theorem setWidth_signExtend_int (x : BitVec 32) : (x.signExtend 64).setWidth 32 = x := by
  apply BitVec.eq_of_getLsbD_eq
  intro i hi
  have hword : i < 64 := by omega
  simp only [BitVec.getLsbD_setWidth, BitVec.getLsbD_signExtend, hi, hword, decide_true, Bool.true_and, if_true]

/-- The decoder sees every error but the first. -/
theorem decodeSyscall_failure {err : BitVec 32} (h : (SyscallEnd.failure err).Proper) :
    decodeSyscall errno ((-err).signExtend 64) = (-1, if err = 1 then errno else err) := by
  have hneg := toInt_neg_err h
  obtain ⟨hpos, hle⟩ : 1 ≤ err.toInt ∧ err.toInt ≤ 4095 := h
  by_cases hone : err = 1
  · subst hone
    rfl
  · have hne : err.toInt ≠ (1 : BitVec 32).toInt := fun heq => hone (BitVec.toInt_inj.mp heq)
    have hgt : 1 < err.toInt := lt_of_le_of_ne hpos (Ne.symm hne)
    have htest : takenForError ((-err).signExtend 64) = true := by
      rw [takenForError, setWidth_signExtend_int, hneg, Bool.and_eq_true, decide_eq_true_eq, decide_eq_true_eq]
      omega
    have habs : (-err).abs = err := by
      have hmsb : (-err).msb = true := by
        rw [BitVec.msb_eq_toInt, hneg, decide_eq_true_eq]
        omega
      rw [BitVec.abs, if_pos hmsb]
      exact BitVec.neg_neg
    rw [decodeSyscall, if_pos htest, setWidth_signExtend_int, habs, if_neg hone]

/-- A function that keeps the low 32 bits of the result reports the end of the call exactly if it is carried over. -/
theorem reported_iff (veErrno : BitVec 32) {α : Type} {conv : Word → α} (low : α → BitVec 32) (hlow : ∀ val, low (conv val) = val.setWidth 32)
    {e : SyscallEnd} (he : e.Proper) {returned : α → BitVec 32 → Prop}
    (hreturned : ∀ a err, returned a err ↔
      a = conv (decodeSyscall errno (syscallWrapper veErrno e)).1 ∧
        err = (decodeSyscall errno (syscallWrapper veErrno e)).2) :
    e.Reported conv returned ↔ e.Carried errno := by
  cases e with
  | success val =>
    rw [syscallWrapper_success he] at hreturned
    simp only [SyscallEnd.Reported, SyscallEnd.Carried, hreturned, decodeSyscall]
    cases htest : takenForError val with
    | false => simp
    | true =>
      rw [if_pos rfl]
      constructor
      · rintro ⟨-, hsame, -⟩
        -- The low bits of the value would be those of -1, which is not in the range of the test.
        have hbits : val.setWidth 32 = (-1 : Word).setWidth 32 := by rw [← hlow, hsame, hlow]
        rw [takenForError, hbits] at htest
        exact absurd htest (by decide)
      · exact nofun
  | failure err =>
    rw [syscallWrapper_failure, decodeSyscall_failure he] at hreturned
    simp only [SyscallEnd.Reported, SyscallEnd.Carried, hreturned, true_and]
    by_cases hone : err = 1
    · rw [if_pos hone, hone]
      exact ⟨fun h => .inr h.symm, fun h => (h.resolve_left (not_not.mpr rfl)).symm⟩
    · rw [if_neg hone]
      exact ⟨fun _ => .inl hone, fun _ => rfl⟩

end

namespace SyscallProc

section

variable {p : SyscallProc} {errno veErrno : BitVec 32} {sys : Syscalls} {ca : List Arg} {s s' : Sides} {e : SyscallEnd}

/-- The image of the arguments, and what is called with it. -/
def image (p : SyscallProc) (ca : List Arg) (s : Sides) : StackImage :=
  getStackImage s.vh ca (p.env.veSp - BitVec.ofNat 64 reservedStackSize)

def data (p : SyscallProc) (ca : List Arg) (s : Sides) : CallData := .of p.symAddr p.stack ca (p.image ca s)

def start (p : SyscallProc) (ca : List Arg) (s : Sides) : Sides := setupSides s.vh s.ve p.stack (p.image ca s)

/-- The process has the wrapper, the call of it comes back, and the system call that it makes ends with `e`. -/
structure Calls (p : SyscallProc) (veErrno : BitVec 32) (sys : Syscalls) (ca : List Arg) (s s' : Sides) (e : SyscallEnd) :
    Prop where
  libh : p.libh ≠ 0
  symAddr : p.symAddr ≠ 0
  fn : p.env.fn = syscallWrapperFn veErrno sys
  returns : ∃ result, p.callSync p.symAddr ca s = some (0, result, s')
  ends : (sys (p.data ca s).regs ((p.data ca s).input (p.start ca s))).1 = e

/-- A call that comes back has gone through `doCallAsync`. -/
theorem doCallAsync_of_callSync {addr result : Word} (h : p.callSync addr ca s = some (0, result, s')) :
    p.env.doCallAsync (.of addr p.stack ca (p.image ca s)) (copyout ca (p.image ca s)) (p.start ca s) =
      some (s', .ok, result) := by
  rw [callSync] at h
  split at h
  · cases h
  · split at h
    · cases h
    · rename_i img hsetup
      obtain ⟨rfl, -⟩ := setup_ok hsetup
      split at h
      · cases h
      · obtain ⟨⟨s₁, st, val⟩, hcall, heq⟩ := Option.map_eq_some_iff.mp h
        obtain ⟨hst, hres⟩ := Prod.mk.inj heq
        obtain ⟨rfl, rfl⟩ := Prod.mk.inj hres
        have hok : st = .ok := by
          by_contra hne
          rw [if_pos hne] at hst
          cases hst
        exact hok ▸ hcall

/-- The result that comes back is the one of the wrapper. -/
theorem Calls.callSync_eq (h : p.Calls veErrno sys ca s s' e) :
    p.callSync p.symAddr ca s = some (0, syscallWrapper veErrno e, s') := by
  obtain ⟨result, hcall⟩ := h.returns
  have hvalid : (p.data ca s).Valid := ⟨length_getRegVal _ _ _, h.symAddr⟩
  have hfn := CallEnv.fn_of_ok hvalid (doCallAsync_of_callSync hcall)
  rw [h.fn] at hfn
  have hresult := congrArg Prod.fst (Option.some.inj hfn)
  rw [hcall, ← h.ends]
  exact congrArg (fun r => some (0, r, s')) hresult.symm

theorem Calls.converted_eq (h : p.Calls veErrno sys ca s s' e) {α : Type} (conv : Word → α) :
    p.converted errno conv ca s = some (conv (decodeSyscall errno (syscallWrapper veErrno e)).1,
      (decodeSyscall errno (syscallWrapper veErrno e)).2, s') := by
  rw [converted, callSyscallWrapper, if_neg h.libh, if_neg h.symAddr, h.callSync_eq]
  rfl

/-- A process with the wrapper and a main context that is alive: a call whose arguments fit into a message comes back. -/
theorem exists_calls (hlibh : p.libh ≠ 0) (hsym : p.symAddr ≠ 0) (hfn : p.env.fn = syscallWrapperFn veErrno sys)
    (halive : p.alive = true) (hcall : p.env.call = .answered) (hsize : totalSize ca < 2 ^ 31)
    (hpage : p.env.veSp &&& pageMask = (p.image ca s).stackTop &&& pageMask)
    (hsimple : p.env.isSimple (p.data ca s) = true) :
    ∃ s', p.Calls veErrno sys ca s s' (sys (p.data ca s).regs ((p.data ca s).input (p.start ca s))).1 := by
  have hvalid : (p.data ca s).Valid := ⟨length_getRegVal _ _ _, hsym⟩
  have hlen : (p.data ca s).stackSize.toNat = (totalSize ca + 15) / 16 * 16 :=
    toNat_stackSize s.vh (p.env.veSp - BitVec.ofNat 64 reservedStackSize) hsize
  have hsent : (p.data ca s).copyout = true → p.env.sentSize (p.data ca s) = (p.data ca s).stackSize.toNat := by
    intro hout
    exact CallEnv.sentSize_of_simple hsimple (by rw [hout, Bool.or_true])
  obtain ⟨ve, -, heq⟩ := CallEnv.simpleCallAsync_eq hvalid (fun hout => by rw [hsent hout]; omega) hcall none
    (copyout ca (p.image ca s)) (p.start ca s)
  rw [hfn, syscallWrapperFn, Option.bind_some] at heq
  generalize sys (p.data ca s).regs (p.env.callInput (p.data ca s) (p.start ca s)).2 = out at heq
  -- The functions of the arguments find their bytes in the reply.
  obtain ⟨s', hrun⟩ : ∃ s', p.env.simpleCallAsync (p.data ca s) none (copyout ca (p.image ca s)) (p.start ca s) =
      some (s', .ok, syscallWrapper veErrno out.1) := by
    rw [heq]
    split
    · rename_i hout
      obtain ⟨vh, hvh⟩ := @copyout_returns s.vh ca (p.env.veSp - BitVec.ofNat 64 reservedStackSize) hsize
        (out.2.read (p.data ca s).stackTop (p.env.sentSize (p.data ca s)))
        (by rw [Mem.length_read, hsent hout]; rfl) (p.start ca s).vh
      exact ⟨_, congrArg (Option.map _) hvh⟩
    · exact ⟨_, rfl⟩
  refine ⟨s', hlibh, hsym, hfn, ⟨syscallWrapper veErrno out.1, ?_⟩, rfl⟩
  have hsetup : setup s.vh ca (p.env.veSp - BitVec.ofNat 64 reservedStackSize) = .ok (p.image ca s) :=
    (setup_eq_ok_iff _ _ _).mpr hsize
  have hdone : p.env.doCallAsync (p.data ca s) (copyout ca (p.image ca s)) (p.start ca s) =
      some (s', .ok, syscallWrapper veErrno out.1) := by
    rw [CallEnv.doCallAsync, if_pos hsimple]
    exact hrun
  rw [callSync, if_neg (by rw [halive]; exact fun h => by cases h), hsetup]
  simp only
  rw [if_neg (not_not.mpr hpage)]
  exact congrArg (Option.map _) hdone

/-- What the functions report that convert the result to `α`. -/
theorem Calls.reported_iff (h : p.Calls veErrno sys ca s s' e) (he : e.Proper) {α : Type} {conv : Word → α}
    (low : α → BitVec 32) (hlow : ∀ val, low (conv val) = val.setWidth 32) :
    e.Reported conv (fun a err => p.converted errno conv ca s = some (a, err, s')) ↔ e.Carried errno := by
  apply Aveo.reported_iff veErrno low hlow he
  intro a err
  rw [h.converted_eq]
  simp [eq_comm]

end

end SyscallProc

/-- The tags are above the low bits. -/
theorem setWidth_attached (modeFlag : Word) (ident : Nat) (val : Word) :
    (attached modeFlag ident val).setWidth 32 = val.setWidth 32 := by
  rw [attached]
  split
  · have hflag : veaddrMbits.setWidth 32 = 0#32 := by decide
    have hident : (BitVec.ofNat 64 ident <<< 59).setWidth 32 = 0#32 := by
      apply BitVec.eq_of_toNat_eq
      rw [BitVec.toNat_setWidth, BitVec.toNat_shiftLeft, Nat.shiftLeft_eq]
      show _ = 0
      omega
    rw [setProcIdent, setVeFlag, BitVec.setWidth_or, BitVec.setWidth_or, hflag, hident, BitVec.zero_or, BitVec.or_zero]
  · rfl

/-- `veo_shared_mem_open` and `veo_shared_mem_close` once the process is found. -/
theorem Host.areaCall_reported_iff {host : Host} {proc : Handle → SyscallProc} {errno veErrno : BitVec 32} {sys : Syscalls}
    {e : SyscallEnd} (he : e.Proper) {sub vemva size modeFlag : Word} {syncnum : BitVec 32} {h : Handle}
    (hfound : host.veoGetProcHandleFromHmem vemva = .ok (some h)) {s' : Sides}
    (hcalls : (proc h).Calls veErrno sys (areaArgs sub vemva size syncnum modeFlag) (host.sides h) s' e) :
    e.Reported (BitVec.setWidth 32) (fun a err =>
      host.areaCall proc errno sub vemva size syncnum modeFlag = some (.ok (a, err, host.setSides h s'))) ↔
      e.Carried errno := by
  apply Aveo.reported_iff veErrno id (fun _ => rfl) he
  intro a err
  rw [areaCall, hfound]
  simp only [hcalls.converted_eq, Option.map_some]
  simp [eq_comm]

/-- The functions report the end of a system call, a value or an error, exactly if a value has no low 32 bits between -4095
and -2, and an error is not 1, unless that is in `errno` already. -/
theorem syscall_end_reported_iff (veErrno errno : BitVec 32) (sys : Syscalls) {e : SyscallEnd} (he : e.Proper) :
    (∀ (p : SyscallProc) ca s s', p.Calls veErrno sys ca s s' e →
      (e.Reported id (fun a err => p.callSyscallWrapper errno ca s = some (a, err, s')) ↔ e.Carried errno)) ∧
    (∀ (p : SyscallProc) arr pid veshmVemva size syncnum modeFlag s s',
      p.Calls veErrno sys (attachArgs arr)
        (SyscallProc.attachSides arr (attachWords pid veshmVemva size syncnum modeFlag) s) s' e →
      (e.Reported (attached modeFlag p.ident) (fun a err =>
        p.veoSharedMemAttach errno arr pid veshmVemva size syncnum modeFlag s = some (a, err, s')) ↔ e.Carried errno)) ∧
    (∀ (p : SyscallProc) shmid shmaddr shmflag vehva s s', vehva ≠ 0 →
      p.Calls veErrno sys (shmatArgs shmid shmaddr shmflag vehva) s s' e →
      (e.Reported id (fun a err => p.veoShmat errno shmid shmaddr shmflag vehva s = some (a, err, s')) ↔
        e.Carried errno)) ∧
    (∀ (p : SyscallProc) veshmAddr modeFlag s s', p.Calls veErrno sys (detachArgs veshmAddr modeFlag) s s' e →
      (e.Reported (BitVec.setWidth 32) (fun a err => p.veoSharedMemDetach errno veshmAddr modeFlag s = some (a, err, s')) ↔
        e.Carried errno)) ∧
    (∀ (p : SyscallProc) key size shmflag s s', p.Calls veErrno sys (shmgetArgs key size shmflag) s s' e →
      (e.Reported (BitVec.setWidth 32) (fun a err => p.veoShmget errno key size shmflag s = some (a, err, s')) ↔
        e.Carried errno)) ∧
    (∀ (p : SyscallProc) shmaddr s s', p.Calls veErrno sys (shmdtArgs shmaddr) s s' e →
      (e.Reported (BitVec.setWidth 32) (fun a err => p.veoShmdt errno shmaddr s = some (a, err, s')) ↔
        e.Carried errno)) ∧
    ∀ (host : Host) proc vemva size syncnum modeFlag h s',
      host.veoGetProcHandleFromHmem vemva = .ok (some h) →
      ((proc h).Calls veErrno sys (areaArgs 0x30 vemva size syncnum modeFlag) (host.sides h) s' e →
        (e.Reported (BitVec.setWidth 32) (fun a err => host.veoSharedMemOpen proc errno vemva size syncnum modeFlag =
          some (.ok (a, err, host.setSides h s'))) ↔ e.Carried errno)) ∧
      ((proc h).Calls veErrno sys (areaArgs 0x33 vemva size syncnum modeFlag) (host.sides h) s' e →
        (e.Reported (BitVec.setWidth 32) (fun a err => host.veoSharedMemClose proc errno vemva size syncnum modeFlag =
          some (.ok (a, err, host.setSides h s'))) ↔ e.Carried errno)) := by
  refine ⟨?_, ?_, ?_, ?_, ?_, ?_, ?_⟩
  · intro p ca s s' hcalls
    have hid : p.callSyscallWrapper errno ca s = p.converted errno id ca s := by
      rw [SyscallProc.converted]
      exact Option.map_id'.symm
    rw [hid]
    exact hcalls.reported_iff he (BitVec.setWidth 32) (fun _ => rfl)
  · intro p arr pid veshmVemva size syncnum modeFlag s s' hcalls
    exact hcalls.reported_iff he (BitVec.setWidth 32) (setWidth_attached modeFlag p.ident)
  · intro p shmid shmaddr shmflag vehva s s' hne hcalls
    rw [SyscallProc.veoShmat, if_neg hne]
    exact hcalls.reported_iff he (BitVec.setWidth 32) (fun _ => rfl)
  · intro p veshmAddr modeFlag s s' hcalls
    exact hcalls.reported_iff he id (fun _ => rfl)
  · intro p key size shmflag s s' hcalls
    exact hcalls.reported_iff he id (fun _ => rfl)
  · intro p shmaddr s s' hcalls
    exact hcalls.reported_iff he id (fun _ => rfl)
  · intro host proc vemva size syncnum modeFlag h s' hfound
    exact ⟨Host.areaCall_reported_iff he hfound, Host.areaCall_reported_iff he hfound⟩

/-- A process in which every system call ends in the same way. -/
def wrapperProc (e : SyscallEnd) : SyscallProc :=
  { libh := 0x10, symAddr := 0x2000, alive := true, env := roomyEnv 0x10000 (syscallWrapperFn 0 fun _ mem => (e, mem)),
    stack := 0x9000, ident := 3 }

/-- `veo_shmdt` reports a value, and `veo_shmat` the error EINVAL. -/
theorem syscall_end_reported_two :
    (∃ err s', (wrapperProc (.success 0)).veoShmdt 0 0x1000 freshSides = some (0, err, s')) ∧
      ∃ s', (wrapperProc (.failure 22)).veoShmat 0 5 0 0 0x1000 freshSides = some (-1, 22, s') := by
  obtain ⟨s₁, h₁⟩ : ∃ s', (wrapperProc (.success 0)).Calls 0 (fun _ mem => (.success 0, mem)) (shmdtArgs 0x1000) freshSides s'
      (.success 0) :=
    SyscallProc.exists_calls (by decide) (by decide) rfl rfl rfl (by decide) (by decide +kernel) (by decide +kernel)
  obtain ⟨s₂, h₂⟩ : ∃ s', (wrapperProc (.failure 22)).Calls 0 (fun _ mem => (.failure 22, mem)) (shmatArgs 5 0 0 0x1000)
      freshSides s' (.failure 22) :=
    SyscallProc.exists_calls (by decide) (by decide) rfl rfl rfl (by decide) (by decide +kernel) (by decide +kernel)
  have hshmdt := (syscall_end_reported_iff 0 0 _ (by decide)).2.2.2.2.2.1 _ _ _ _ h₁
  have hshmat := (syscall_end_reported_iff 0 0 _ (by decide)).2.2.1 _ _ _ _ _ _ _ (by decide) h₂
  obtain ⟨err, hval⟩ := hshmdt.mpr rfl
  exact ⟨⟨err, s₁, hval⟩, s₂, hshmat.mpr (.inl (by decide))⟩

/-- The error 1 does not come back, and the value 0x6000fffff800 comes back as the error 2048. -/
theorem syscall_end_lost :
    (SyscallEnd.failure 1).Proper ∧
      ((wrapperProc (.failure 1)).veoShmat 0 5 0 0 0x1000 freshSides).map (fun r => (r.1, r.2.1)) = some (-1, 0) ∧
    (SyscallEnd.success 0x6000fffff800).Proper ∧
      ((wrapperProc (.success 0x6000fffff800)).veoSharedMemAttach 0 0x1000 77 0x4000 64 0 0 freshSides).map
        (fun r => (r.1, r.2.1)) = some (-1, 2048) := by
  refine ⟨?_, ?_, ?_, ?_⟩ <;> decide +kernel

end Aveo

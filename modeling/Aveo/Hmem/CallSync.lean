import Aveo.Args.Delivery
import Aveo.Hmem.SharedMem

/-!
# What a synchronous call does

For the caller of `callSync` the VE function is called by copying: its buffers are copied into a frame on the VE, the
function runs once on that frame, and the buffers with intent OUT and INOUT are copied back. `CopyRestored` says so
without the messages, the transfers and the handlers in between.
-/

namespace Aveo

open Lib

/-- A call by copying: the function finds the arguments in `regs` and `mem`, `mem` is the memory of the VE outside of the
frame of the call, and after the call the memory of the VE is the one that the function has left. A buffer that is copied
back has the bytes that the function has left at the address it had for it, the other buffers are as they were, and so is
everything else on the VH outside of the buffer of the image. -/
structure CopyRestored (fn : VeFunction) (addr : Word) (args : List Arg) (img : StackImage) (stack : Word) (s s' : Sides)
    (result : Word) (regs : List Word) (mem : Mem) : Prop where
  delivered : Delivered args s.vh img regs mem
  frame : ∀ x, ¬ InRange img.stackTop img.stackSize.toNat x → mem x = s.ve.mem x
  run : fn addr regs mem = some (result, s'.ve.mem)
  buffer : ∀ (n : Nat) buff len intent, args[n]? = some (.onStack buff len intent) → ∃ v, img.vemva[n]? = some v ∧
    s'.vh.read buff len.toNat = if intent.copiedOut then s'.ve.mem.read v len.toNat else s.vh.read buff len.toNat
  other : ∀ x, ¬ InRange stack img.stackSize.toNat x →
    (∀ (n : Nat) buff len intent, args[n]? = some (.onStack buff len intent) → intent.copiedOut = true →
      ¬ InRange buff len.toNat x) → s'.vh x = s.vh x

section

variable {vh vh' vh₀ : Mem} {args : List Arg} {sp : Word} {payload : List Byte}

/-- What `copyout_func` writes. -/
theorem copyout_restores (hsize : totalSize args < 2 ^ 31) (hapart : args.Pairwise BuffersApart)
    (hpayload : payload.length = (getStackImage vh₀ args sp).stackSize.toNat)
    (h : copyout args (getStackImage vh₀ args sp) payload vh = some vh') :
    (∀ (n : Nat) buff len intent, args[n]? = some (.onStack buff len intent) → intent.copiedOut = true →
      vh'.read buff len.toNat = segment payload (areaOffset args n) len.toNat) ∧
    ∀ x, (∀ (n : Nat) buff len intent, args[n]? = some (.onStack buff len intent) → intent.copiedOut = true →
      ¬ InRange buff len.toNat x) → vh' x = vh x := by
  have hlen : (getStackImage vh₀ args sp).vemva.length = args.length := length_vemva args
  have hpair : ((getStackImage vh₀ args sp).vemva.zip args).Pairwise (fun p q => BuffersApart p.2 q.2) := by
    rw [← List.pairwise_map (f := Prod.snd), List.map_snd_zip (by omega)]
    exact hapart
  obtain ⟨vh₁, hrun, hframe, hread⟩ := @copyouts_spec _ payload _ vh (placed_of_size hsize hpayload) hpair
  rw [copyout_eq, hrun] at h
  obtain rfl := Option.some.inj h
  constructor
  · intro n buff len intent hn hout
    obtain ⟨v, hv, hoff, -⟩ := @vemva_sub_stackTop vh₀ args sp _ _ _ _ hsize hn
    rw [hread v buff len intent (mem_zip_of_getElem? hv hn) hout, hoff]
  · intro x hx
    apply hframe
    rintro ⟨v, buff, len, intent, hmem, hout, hin⟩
    obtain ⟨n, hn⟩ := List.getElem?_of_mem hmem
    exact hx n buff len intent (List.getElem?_zip_eq_some.mp hn).2 hout hin

/-- Nothing is copied back if no buffer asks for it. -/
theorem copiedOut_of_image (hout : (getStackImage vh₀ args sp).copiedOut = false) {n : Nat} {buff len : Word} {intent : Intent}
    (hn : args[n]? = some (.onStack buff len intent)) : intent.copiedOut = false := by
  have hany : args.any Arg.isCopiedOut = false := (copiedOut_setStackImages args).symm.trans hout
  exact eq_false_of_ne_true (List.any_eq_false.mp hany _ (List.mem_of_getElem? hn))

/-- What a call writes on the VH at its end, with `copyout_func` or without. -/
theorem copyout_if_restores (hsize : totalSize args < 2 ^ 31) (hapart : args.Pairwise BuffersApart)
    (hpayload : payload.length = (getStackImage vh₀ args sp).stackSize.toNat)
    (h : (if (getStackImage vh₀ args sp).copiedOut then copyout args (getStackImage vh₀ args sp) payload vh else some vh) =
      some vh') :
    (∀ (n : Nat) buff len intent, args[n]? = some (.onStack buff len intent) → intent.copiedOut = true →
      vh'.read buff len.toNat = segment payload (areaOffset args n) len.toNat) ∧
    ∀ x, (∀ (n : Nat) buff len intent, args[n]? = some (.onStack buff len intent) → intent.copiedOut = true →
      ¬ InRange buff len.toNat x) → vh' x = vh x := by
  split at h
  · exact copyout_restores hsize hapart hpayload h
  · rename_i hnone
    obtain rfl := Option.some.inj h
    refine ⟨fun n buff len intent hn hcopied => ?_, fun _ _ => rfl⟩
    rw [copiedOut_of_image (eq_false_of_ne_true hnone) hn] at hcopied
    cases hcopied

/-- A buffer with intent IN has no byte in common with one that is copied back. -/
theorem not_inRange_of_kept (hapart : args.Pairwise BuffersApart) {n : Nat} {buff len x : Word} {intent : Intent}
    (hn : args[n]? = some (.onStack buff len intent)) (hkept : ¬ intent.copiedOut = true) (hx : InRange buff len.toNat x)
    {n' : Nat} {buff' len' : Word} {intent' : Intent} (hn' : args[n']? = some (.onStack buff' len' intent'))
    (hcopied : intent'.copiedOut = true) : ¬ InRange buff' len'.toNat x := by
  intro hx'
  have hne : Arg.onStack buff len intent ≠ .onStack buff' len' intent' := by
    rintro ⟨⟩
    exact hkept hcopied
  exact hapart.forall (List.mem_of_getElem? hn) (List.mem_of_getElem? hn') hne x hx hx'

end

namespace SyscallProc

variable {p : SyscallProc} {addr result : Word} {args : List Arg} {s s' : Sides}

theorem size_of_callSync (h : p.callSync addr args s = some (0, result, s')) : totalSize args < 2 ^ 31 := by
  rw [callSync] at h
  split at h
  · cases h
  · split at h
    · cases h
    · rename_i img hsetup
      exact (setup_ok hsetup).2

theorem valid_data (haddr : addr ≠ 0) : (CallData.of addr p.stack args (p.image args s)).Valid :=
  ⟨length_getRegVal _ _ _, haddr⟩

/-- The memory with which the function is called. -/
theorem input_start (addr : Word) (hsize : totalSize args < 2 ^ 31) :
    (CallData.of addr p.stack args (p.image args s)).input (p.start args s) =
      if (p.image args s).copiedIn then s.ve.mem.write (p.image args s).stackTop (p.image args s).image else s.ve.mem := by
  have hlen : (p.image args s).stackSize.toNat = (p.image args s).image.length :=
    size_of_setup ((setup_eq_ok_iff _ _ _).mpr hsize)
  have hle : (p.image args s).image.length ≤ 2 ^ 64 := by
    have := (p.image args s).stackSize.isLt
    omega
  rw [CallData.input, show (CallData.of addr p.stack args (p.image args s)).stackSize.toNat = _ from hlen]
  simp only [CallData.of, start, setupSides, Mem.read_write_self hle]

/-- The function finds the arguments if the image is sent, or if there are at most eight. -/
theorem delivered_start (addr : Word) (hsize : totalSize args < 2 ^ 31)
    (hpassed : args.length ≤ numArgsOnRegister ∨ ∃ (n : Nat) (arg : Arg), args[n]? = some arg ∧ arg.isCopiedIn n = true) :
    Delivered args s.vh (p.image args s) (getRegVal args (p.image args s))
      ((CallData.of addr p.stack args (p.image args s)).input (p.start args s)) := by
  have hflag : (p.image args s).copiedIn = true ↔
      ∃ (n : Nat) (arg : Arg), args[n]? = some arg ∧ arg.isCopiedIn n = true := by
    refine (copiedIn_setStackImages args).trans ?_
    simp only [Nat.zero_add]
  rw [input_start addr hsize]
  by_cases hin : (p.image args s).copiedIn = true
  · rw [if_pos hin]
    exact delivered_of_image hsize
  · rw [if_neg hin]
    apply delivered_of_registers hsize
    · exact hpassed.resolve_right fun hcopied => hin (hflag.mpr hcopied)
    · intro n arg harg
      exact Bool.not_eq_true _ ▸ fun hcopied => hin (hflag.mpr ⟨n, arg, harg, hcopied⟩)

theorem area_le_stackSize (hsize : totalSize args < 2 ^ 31) {n : Nat} {buff len : Word} {intent : Intent}
    (hn : args[n]? = some (.onStack buff len intent)) :
    areaOffset args n + len.toNat ≤ (p.image args s).stackSize.toNat := by
  obtain ⟨-, -, -, hle⟩ := @vemva_sub_stackTop s.vh args (p.env.veSp - BitVec.ofNat 64 reservedStackSize) _ _ _ _ hsize hn
  exact hle

/-- A call that succeeds is a call by copying, with the registers and the memory that the message brings. -/
theorem copyRestored_of_callSync (haddr : addr ≠ 0) (hcall : p.callSync addr args s = some (0, result, s'))
    (hcap : 8 ∣ p.env.maxSend.toNat)
    (hpassed : args.length ≤ numArgsOnRegister ∨ ∃ (n : Nat) (arg : Arg), args[n]? = some arg ∧ arg.isCopiedIn n = true)
    (hapart : args.Pairwise BuffersApart)
    (hfresh : ∀ buff len intent, .onStack buff len intent ∈ args →
      Apart buff len.toNat p.stack (p.image args s).stackSize.toNat) :
    CopyRestored p.env.fn addr args (p.image args s) p.stack s s' result (getRegVal args (p.image args s))
      ((CallData.of addr p.stack args (p.image args s)).input (p.start args s)) := by
  have hsize := size_of_callSync hcall
  have hlen : (p.image args s).stackSize.toNat = (totalSize args + 15) / 16 * 16 := toNat_stackSize _ _ hsize
  have himage : (p.image args s).image.length = (p.image args s).stackSize.toNat :=
    (size_of_setup ((setup_eq_ok_iff _ _ _).mpr hsize)).symm
  have hdvd : 8 ∣ (p.image args s).stackSize.toNat := by omega
  have hdone := CallEnv.done_of_ok (valid_data haddr) (fun _ => CallEnv.dvd_sentSize hcap hdvd)
    (doCallAsync_of_callSync hcall)
  have hdel := delivered_start (p := p) (s := s) addr hsize hpassed
  obtain ⟨vh, hvh, hout⟩ := hdone.vh
  -- Outside of the image the memory before `copyout_func` is the one of the caller.
  have hstart : ∀ x, ¬ InRange p.stack (p.image args s).stackSize.toNat x → vh x = s.vh x := by
    intro x hx
    rw [hvh x hx]
    exact Mem.write_of_not_inRange (by rwa [himage])
  have hrestored := copyout_if_restores hsize hapart (Mem.length_read _ _ _) hout
  have hother : ∀ x, ¬ InRange p.stack (p.image args s).stackSize.toNat x →
      (∀ (n : Nat) buff len intent, args[n]? = some (.onStack buff len intent) → intent.copiedOut = true →
        ¬ InRange buff len.toNat x) → s'.vh x = s.vh x :=
    fun x hx hbuff => (hrestored.2 x hbuff).trans (hstart x hx)
  refine ⟨hdel, ?_, hdone.fn, ?_, hother⟩
  · intro x hx
    rw [input_start addr hsize]
    split
    · exact Mem.write_of_not_inRange (by rwa [himage])
    · rfl
  · intro n buff len intent hn
    obtain ⟨v, hv, rfl, -⟩ := hdel.area n buff len intent hn
    refine ⟨_, hv, ?_⟩
    split
    · rename_i hcopied
      have hle : areaOffset args n + len.toNat ≤ (p.image args s).stackSize.toNat := area_le_stackSize hsize hn
      exact (hrestored.1 n buff len intent hn hcopied).trans (Mem.segment_read hle)
    · rename_i hkept
      apply Mem.read_congr
      intro x hx
      exact hother x (hfresh buff len intent (List.mem_of_getElem? hn) x hx) fun n' buff' len' intent' =>
        not_inRange_of_kept hapart hn hkept hx

/-- A successful call is a call by copying, if every argument reaches the function and no two of the buffers share a byte
with one another or with the fresh buffer of the image. It makes no difference whether the image fits into a message. -/
theorem callSync_copies_and_restores (haddr : addr ≠ 0) (hcall : p.callSync addr args s = some (0, result, s'))
    (hcap : 8 ∣ p.env.maxSend.toNat)
    (hpassed : args.length ≤ numArgsOnRegister ∨ ∃ (n : Nat) (arg : Arg), args[n]? = some arg ∧ arg.isCopiedIn n = true)
    (hapart : args.Pairwise BuffersApart)
    (hfresh : ∀ buff len intent, .onStack buff len intent ∈ args →
      Apart buff len.toNat p.stack (p.image args s).stackSize.toNat) :
    ∃ regs mem, CopyRestored p.env.fn addr args (p.image args s) p.stack s s' result regs mem :=
  ⟨_, _, copyRestored_of_callSync haddr hcall hcap hpassed hapart hfresh⟩

/-- A process that calls the function for a hundred bytes through messages of 248 bytes. -/
def hundredProc : SyscallProc :=
  { libh := 1, symAddr := 0x2000, alive := true, env := roomyEnv 248 storesThree, stack := 0x9000, ident := 0 }

def hundredBefore : Sides := ⟨fun a => a.setWidth 8, ⟨fun _ => 0, 0, []⟩⟩

theorem callSync_copies_and_restores_hundred :
    hundredProc.env.isSimple (.of 0x2000 0x9000 hundredBytes (hundredProc.image hundredBytes hundredBefore)) = false ∧
      ∃ s' regs mem, hundredProc.callSync 0x2000 hundredBytes hundredBefore = some (0, 7, s') ∧
        CopyRestored storesThree 0x2000 hundredBytes (hundredProc.image hundredBytes hundredBefore) 0x9000 hundredBefore s' 7
          regs mem := by
  have hrun : (hundredProc.callSync 0x2000 hundredBytes hundredBefore).map (fun r => (r.1, r.2.1)) = some (0, 7) := by
    decide +kernel
  obtain ⟨⟨rv, val, s'⟩, hs', heq⟩ := Option.map_eq_some_iff.mp hrun
  cases heq
  have hfresh : ∀ buff len intent, .onStack buff len intent ∈ hundredBytes →
      Apart buff len.toNat 0x9000 (hundredProc.image hundredBytes hundredBefore).stackSize.toNat := by
    intro buff len intent hmem
    cases List.mem_singleton.mp hmem
    exact apart_of_le (by decide) (by decide +kernel)
  obtain ⟨regs, mem, hcopied⟩ := callSync_copies_and_restores (by decide) hs' (by decide) (.inl (by decide))
    (List.pairwise_singleton _ _) hfresh
  exact ⟨by decide +kernel, s', regs, mem, hs', hcopied⟩

/-- A call whose image fits into a message comes back when the function does. -/
theorem callSync_returns (haddr : addr ≠ 0) (halive : p.alive = true) (hanswer : p.env.call = .answered)
    (hsize : totalSize args < 2 ^ 31)
    (hpage : p.env.veSp &&& pageMask = (p.image args s).stackTop &&& pageMask)
    (hsimple : p.env.isSimple (.of addr p.stack args (p.image args s)) = true) {mem : Mem}
    (hfn : p.env.fn addr (getRegVal args (p.image args s))
      ((CallData.of addr p.stack args (p.image args s)).input (p.start args s)) = some (result, mem)) :
    ∃ s', p.callSync addr args s = some (0, result, s') := by
  have hsent : (p.image args s).copiedOut = true →
      p.env.sentSize (.of addr p.stack args (p.image args s)) = (p.image args s).stackSize.toNat := by
    intro hout
    exact CallEnv.sentSize_of_simple hsimple (by rw [CallData.of, hout, Bool.or_true])
  have hlen : (p.image args s).stackSize.toNat = (totalSize args + 15) / 16 * 16 := toNat_stackSize _ _ hsize
  obtain ⟨ve, -, heq⟩ := CallEnv.simpleCallAsync_eq (valid_data haddr) (fun hout => by rw [hsent hout]; omega) hanswer none
    (copyout args (p.image args s)) (p.start args s)
  have hready : p.env.Ready (.of addr p.stack args (p.image args s)) (p.start args s) (p.start args s) := by
    rw [CallEnv.Ready, if_pos hsimple]
  have hcalled : p.env.fn (CallData.of addr p.stack args (p.image args s)).addr
      (CallData.of addr p.stack args (p.image args s)).regs
      (p.env.callInput (.of addr p.stack args (p.image args s)) (p.start args s)).2 = some (result, mem) := by
    rw [(CallEnv.callInput_of_ready (valid_data haddr) hready).2]
    exact hfn
  rw [hcalled, Option.bind_some] at heq
  obtain ⟨s', hrun⟩ : ∃ s', p.env.doCallAsync (.of addr p.stack args (p.image args s)) (copyout args (p.image args s))
      (p.start args s) = some (s', .ok, result) := by
    rw [CallEnv.doCallAsync, if_pos hsimple, heq]
    split
    · rename_i hout
      obtain ⟨vh, hvh⟩ := @copyout_returns s.vh args (p.env.veSp - BitVec.ofNat 64 reservedStackSize) hsize
        (mem.read (p.image args s).stackTop (p.env.sentSize (.of addr p.stack args (p.image args s))))
        (by rw [Mem.length_read, hsent hout]; rfl) (p.start args s).vh
      exact ⟨_, congrArg (Option.map _) hvh⟩
    · exact ⟨_, rfl⟩
  have hsetup : setup s.vh args (p.env.veSp - BitVec.ofNat 64 reservedStackSize) = .ok (p.image args s) :=
    (setup_eq_ok_iff _ _ _).mpr hsize
  refine ⟨s', ?_⟩
  rw [callSync, if_neg (by rw [halive]; exact Bool.noConfusion), hsetup]
  simp only
  rw [if_neg (not_not.mpr hpage)]
  exact congrArg (Option.map _) hrun

end SyscallProc

end Aveo

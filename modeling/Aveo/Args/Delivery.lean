import Aveo.Context.CallData

/-!
# The arguments that the VE function finds

The VE function reads its first eight arguments in registers and the others in the parameter area of its caller's frame.
The stack image has them there, but it is sent only if an argument asks for it: a scalar from the ninth on, and a buffer
with intent IN or INOUT. A buffer with intent OUT does not, although from the ninth argument on its address is in the image.
-/

namespace Aveo

open Lib

/-- An argument makes `setStackImage` set the flag for sending the image. -/
def Arg.isCopiedIn (n : Nat) : Arg → Bool
  | .onStack _ _ intent => intent.copiedIn
  | _ => numArgsOnRegister ≤ n

theorem Arg.copiedIn_setStackImage {mem : Mem} {sp : Word} {stack : List Byte} {n : Nat} (arg : Arg) :
    (arg.setStackImage mem sp stack n).2.1 = arg.isCopiedIn n := by
  cases arg with
  | onStack buff len intent => rfl
  | _ =>
    simp only [setStackImage, isCopiedIn]
    split
    · rename_i hlt
      exact (decide_eq_false (Nat.not_le.mpr hlt)).symm
    · rename_i hle
      exact (decide_eq_true (Nat.le_of_not_lt hle)).symm

theorem copiedIn_setStackImages {mem : Mem} {sp : Word} (args : List Arg) : ∀ {stack : List Byte} {n : Nat},
    (setStackImages mem sp stack n args).2.1 = true ↔ ∃ (i : Nat) (arg : Arg), args[i]? = some arg ∧ arg.isCopiedIn (n + i) = true := by
  induction args with
  | nil => simp [setStackImages]
  | cons arg args ih =>
    intro stack n
    rw [setStackImages, Bool.or_eq_true, Arg.copiedIn_setStackImage, ih]
    constructor
    · rintro (h | ⟨i, arg', hi, h⟩)
      · exact ⟨0, arg, rfl, h⟩
      · exact ⟨i + 1, arg', hi, by rwa [Nat.add_comm i, ← Nat.add_assoc]⟩
    · rintro ⟨i, arg', hi, h⟩
      cases i with
      | zero =>
        cases hi
        exact .inl h
      | succ i => exact .inr ⟨i, arg', hi, by rwa [Nat.add_comm i, ← Nat.add_assoc] at h⟩

/-- The registers and the memory have the arguments where the function looks for them. A buffer is given by the address
of its area. -/
structure Delivered (args : List Arg) (vh : Mem) (img : StackImage) (regs : List Word) (mem : Mem) : Prop where
  register : ∀ (n : Nat) arg, args[n]? = some arg → n < numArgsOnRegister →
    ∃ v, img.vemva[n]? = some v ∧ regs[n]? = some (arg.getRegVal v)
  word : ∀ (n : Nat) arg, args[n]? = some arg → numArgsOnRegister ≤ n →
    ∃ v, img.vemva[n]? = some v ∧ mem.read (img.stackTop + BitVec.ofNat 64 (paramAreaOffset + 8 * n)) 8 = arg.stackWord v
  area : ∀ (n : Nat) buff len intent, args[n]? = some (.onStack buff len intent) →
    ∃ v, img.vemva[n]? = some v ∧ v = img.stackTop + BitVec.ofNat 64 (areaOffset args n) ∧
      (intent.copiedIn = true → mem.read v len.toNat = vh.read buff len.toNat)

section

variable {vh mem : Mem} {args : List Arg} {sp : Word} {n : Nat}

theorem getElem?_getRegVal {img : StackImage} {arg : Arg} {v : Word} (hn : n < numArgsOnRegister) (harg : args[n]? = some arg)
    (hv : img.vemva[n]? = some v) : (getRegVal args img)[n]? = some (arg.getRegVal v) := by
  rw [getRegVal, List.getElem?_take_of_lt hn, List.getElem?_zipWith, hv, harg]

theorem exists_vemva {arg : Arg} (harg : args[n]? = some arg) : ∃ v, (getStackImage vh args sp).vemva[n]? = some v := by
  have hlen : (getStackImage vh args sp).vemva.length = args.length := length_vemva args
  have hlt : n < (getStackImage vh args sp).vemva.length := hlen ▸ (List.getElem?_eq_some_iff.mp harg).1
  exact ⟨_, List.getElem?_eq_getElem hlt⟩

/-- The image in memory delivers the arguments. -/
theorem delivered_of_image (hsize : totalSize args < 2 ^ 31) : Delivered args vh (getStackImage vh args sp)
    (getRegVal args (getStackImage vh args sp))
    (mem.write (getStackImage vh args sp).stackTop (getStackImage vh args sp).image) := by
  have harea := paramArea_lt hsize
  have hlen := length_image vh sp harea
  refine ⟨fun n arg harg hn => ?_, fun n arg harg hn => ?_, fun n buff len intent harg => ?_⟩
  · obtain ⟨v, hv⟩ := exists_vemva harg
    exact ⟨v, hv, getElem?_getRegVal hn harg hv⟩
  · obtain ⟨v, hv, hword⟩ := segment_word harg hn
    have hlt : n < args.length := (List.getElem?_eq_some_iff.mp harg).1
    refine ⟨v, hv, ?_⟩
    rw [Mem.read_write_segment (by omega) (by rw [hlen, totalSize]; omega), hword]
  · obtain ⟨head, -, -, hvemva⟩ := getStackImage_eq vh sp harea
    refine ⟨_, hvemva n _ harg rfl, rfl, fun hin => ?_⟩
    obtain ⟨v, -, -, hle⟩ := vemva_sub_stackTop hsize harg
    rw [toNat_stackSize vh sp hsize] at hle
    rw [Mem.read_write_segment (by omega) (by omega), segment_buffer hsize harg, if_pos hin]

/-- Eight arguments or fewer are delivered without the image if no buffer is copied in. -/
theorem delivered_of_registers (hsize : totalSize args < 2 ^ 31) (hlen : args.length ≤ numArgsOnRegister)
    (hin : ∀ (i : Nat) (arg : Arg), args[i]? = some arg → arg.isCopiedIn i = false) :
    Delivered args vh (getStackImage vh args sp) (getRegVal args (getStackImage vh args sp)) mem := by
  refine ⟨fun n arg harg hn => ?_, fun n arg harg hn => ?_, fun n buff len intent harg => ?_⟩
  · obtain ⟨v, hv⟩ := exists_vemva harg
    exact ⟨v, hv, getElem?_getRegVal hn harg hv⟩
  · have hlt : n < args.length := (List.getElem?_eq_some_iff.mp harg).1
    omega
  · obtain ⟨head, -, -, hvemva⟩ := getStackImage_eq vh sp (paramArea_lt hsize)
    refine ⟨_, hvemva n _ harg rfl, rfl, fun hcopied => ?_⟩
    cases (hin n _ harg).symm.trans hcopied

/-- A memory that was not written delivers nothing from the ninth argument on. -/
theorem not_delivered {img : StackImage} {regs : List Word} (hlen : numArgsOnRegister < args.length) :
    ¬ ∀ mem, Delivered args vh img regs mem := by
  intro h
  have harg := List.getElem?_eq_getElem hlen
  obtain ⟨v, hv, hzero⟩ := (h fun _ => 0).word _ _ harg (Nat.le_refl _)
  obtain ⟨v', hv', hone⟩ := (h fun _ => 1).word _ _ harg (Nat.le_refl _)
  cases hv.symm.trans hv'
  cases congrArg List.head? (hzero.trans hone.symm)

end

/-- For every capacity of a message, every initial VE memory and whichever way the image goes, the VE function finds its
arguments if and only if there are at most eight, or one of them makes the image be sent. -/
theorem argument_delivery (env : CallEnv) (vh : Mem) (addr stack : Word) (args : List Arg) (img : StackImage)
    (hcall : callAsync vh true env.veSp addr args = .ok (some img)) :
    (∀ ve s, env.Ready (.of addr stack args img) (setupSides vh ve stack img) s →
      Delivered args vh img (env.callInput (.of addr stack args img) s).1 (env.callInput (.of addr stack args img) s).2) ↔
    args.length ≤ numArgsOnRegister ∨ ∃ (n : Nat) (arg : Arg), args[n]? = some arg ∧ arg.isCopiedIn n = true := by
  have hc : (CallData.of addr stack args img).Valid := valid_of_callAsync hcall
  have hsetup := (setup_of_callAsync hcall).2
  obtain ⟨rfl, hsize⟩ := setup_ok hsetup
  generalize himg : getStackImage vh args (env.veSp - BitVec.ofNat 64 reservedStackSize) = img at *
  have hflag : img.copiedIn = true ↔ ∃ (n : Nat) (arg : Arg), args[n]? = some arg ∧ arg.isCopiedIn n = true := by
    rw [← himg]
    refine (copiedIn_setStackImages args).trans ?_
    simp only [Nat.zero_add]
  have hlen : img.image.length ≤ 2 ^ 64 := by
    have := img.stackSize.isLt
    rw [← size_of_setup hsetup]
    omega
  -- The memory that the function gets.
  have hinput : ∀ ve, (CallData.of addr stack args img).input (setupSides vh ve stack img) =
      if img.copiedIn then ve.mem.write img.stackTop img.image else ve.mem := by
    intro ve
    rw [CallData.input, show (CallData.of addr stack args img).stackSize.toNat = img.image.length from size_of_setup hsetup]
    simp only [CallData.of, setupSides]
    rw [Mem.read_write_self hlen]
    rfl
  constructor
  · intro h
    by_contra hnot
    obtain ⟨hlt, hnone⟩ := not_or.mp hnot
    have hin : img.copiedIn = false := Bool.not_eq_true _ ▸ fun hin => hnone (hflag.mp hin)
    refine (not_delivered (Nat.lt_of_not_le hlt) : ¬ ∀ mem, Delivered args vh img (getRegVal args img) mem) fun mem => ?_
    have hready : env.Ready (.of addr stack args img) (setupSides vh ⟨mem, 0, []⟩ stack img)
        (setupSides vh ⟨mem, 0, []⟩ stack img) := by
      rw [CallEnv.Ready, CallEnv.writeTail, show (CallData.of addr stack args img).copyin = false from hin]
      split <;> rfl
    have hdel := h _ _ hready
    rw [(CallEnv.callInput_of_ready hc hready).2, hinput, hin] at hdel
    exact hdel
  · intro h ve s hready
    rw [(CallEnv.callInput_of_ready hc hready).2, hinput]
    by_cases hin : img.copiedIn = true
    · rw [if_pos hin, ← himg]
      exact delivered_of_image hsize
    · rw [if_neg hin, ← himg]
      refine delivered_of_registers hsize (h.resolve_right fun hcopied => hin (hflag.mpr hcopied)) fun i arg harg => ?_
      exact Bool.not_eq_true _ ▸ fun hcopied => hin (hflag.mpr ⟨i, arg, harg, hcopied⟩)

/-- Eight numbers and a ninth argument on the stack. -/
def ninthBuffer (intent : Intent) : List Arg := List.replicate 8 (.int .int64 7) ++ [.onStack 0x1000 8 intent]

def ninthImage (intent : Intent) : StackImage := getStackImage (fun a => a.setWidth 8) (ninthBuffer intent) 0x600000080000

theorem callAsync_ninthBuffer (intent : Intent) :
    callAsync (fun a => a.setWidth 8) true 0x600000100000 0x2000 (ninthBuffer intent) = .ok (some (ninthImage intent)) :=
  callAsync_eq_some (by decide) (by cases intent <;> decide) (by cases intent <;> decide +kernel)

/-- The ninth argument is a buffer with intent INOUT. -/
theorem argument_delivery_inout :
    ∃ v, (ninthImage .inout).vemva[8]? = some v ∧
      ((roomyEnv 0x10000 storesThree).callInput (.of 0x2000 0x9000 (ninthBuffer .inout) (ninthImage .inout))
        (setupSides (fun a => a.setWidth 8) ⟨fun _ => 0xFF, 0, []⟩ 0x9000 (ninthImage .inout))).2.read
          ((ninthImage .inout).stackTop + BitVec.ofNat 64 240) 8 = leBytes 8 v := by
  have hready : (roomyEnv 0x10000 storesThree).Ready (.of 0x2000 0x9000 (ninthBuffer .inout) (ninthImage .inout))
      (setupSides (fun a => a.setWidth 8) ⟨fun _ => 0xFF, 0, []⟩ 0x9000 (ninthImage .inout))
      (setupSides (fun a => a.setWidth 8) ⟨fun _ => 0xFF, 0, []⟩ 0x9000 (ninthImage .inout)) := by
    rw [CallEnv.Ready, if_pos (by decide +kernel)]
  exact ((argument_delivery (roomyEnv 0x10000 storesThree) _ 0x2000 0x9000 _ _ (callAsync_ninthBuffer .inout)).mpr
    (.inr ⟨8, _, rfl, rfl⟩) _ _ hready).word 8 _ rfl (Nat.le_refl _)

/-- The ninth argument is a buffer with intent OUT, and no other argument makes the image be sent: the function finds what
was in the memory of the VE before, and not the address of the buffer. -/
theorem argument_not_delivered :
    callAsync (fun a => a.setWidth 8) true 0x600000100000 0x2000 (ninthBuffer .output) = .ok (some (ninthImage .output)) ∧
      (roomyEnv 0x10000 storesThree).isSimple (.of 0x2000 0x9000 (ninthBuffer .output) (ninthImage .output)) = true ∧
      ((roomyEnv 0x10000 storesThree).sendCallNolock (.of 0x2000 0x9000 (ninthBuffer .output) (ninthImage .output))
        (fun _ => 0)).1 = .stkOut ∧
      (ninthImage .output).vemva[8]? = some 0x60000007fff8 ∧
      ((roomyEnv 0x10000 storesThree).callInput (.of 0x2000 0x9000 (ninthBuffer .output) (ninthImage .output))
        (setupSides (fun a => a.setWidth 8) ⟨fun _ => 0xFF, 0, []⟩ 0x9000 (ninthImage .output))).2.read
          ((ninthImage .output).stackTop + BitVec.ofNat 64 240) 8 = List.replicate 8 0xFF := by
  exact ⟨callAsync_ninthBuffer .output, by decide +kernel, by decide +kernel, by decide +kernel, by decide +kernel⟩

end Aveo

import Aveo.Args.Layout

/-!
# The size of the image and the page check

`CallArgs::setup` compares the size that `getStackImage` computes in advance, in an `int`, with the length of the image,
and aborts the process if they differ. `Context::callAsync` sets the image up 512 KiB below the stack pointer of the VE,
and `doCallAsync` refuses an image that does not end in the 64 MiB page of the stack pointer.
-/

namespace Aveo

open Lib

/-- How `setup` can fail to return: `std::length_error`, which no caller catches, and `VEO_ASSERT`. -/
inductive SetupFailure
  | lengthError
  | assertion
  deriving DecidableEq

/-- `max_size` of `std::string`. -/
def stringMaxSize : Nat := 2 ^ 63 - 1

/-- `CallArgs::setup`. -/
def setup (mem : Mem) (args : List Arg) (sp : Word) : Except SetupFailure StackImage :=
  let img := getStackImage mem args sp
  if stringMaxSize < img.image.length then .error .lengthError
  else if img.stackSize.toNat = img.image.length then .ok img
  else .error .assertion

/-- `RESERVED_STACK_SIZE`. -/
def reservedStackSize : Nat := 512 * 1024

def pageMask : Word := 0xFFFFFFFFFC000000

/-- `Context::callAsync` and `doCallAsync` up to the page check: `none` is `VEO_REQUEST_ID_INVALID`, otherwise the call goes
on with the image. -/
def callAsync (mem : Mem) (alive : Bool) (veSp addr : Word) (args : List Arg) : Except SetupFailure (Option StackImage) :=
  if addr = 0 ∨ alive = false then .ok none
  else do
    let img ← setup mem args (veSp - BitVec.ofNat 64 reservedStackSize)
    if veSp &&& pageMask ≠ img.stackTop &&& pageMask then return none else return some img

/-! ### Sizes without a limit -/

/-- The string is at least as long as the words and the areas that were put in it. -/
theorem length_setStackImages {mem : Mem} {sp : Word} (args : List Arg) : ∀ {stack : List Byte} {n : Nat},
    stack.length + areaSizes args ≤ (setStackImages mem sp stack n args).1.length ∧
      (args ≠ [] → numArgsOnRegister < n + args.length →
        paramAreaOffset + 8 * (n + args.length) ≤ (setStackImages mem sp stack n args).1.length) := by
  induction args with
  | nil =>
    intro stack n
    exact ⟨Nat.le_refl _, fun hne => absurd rfl hne⟩
  | cons arg args ih =>
    intro stack n
    obtain ⟨hareas, hwords⟩ := @ih (arg.setStackImage mem sp stack n).1 (n + 1)
    have hlen := @Arg.length_setStackImage mem sp stack n arg
    have hfirst : stack.length + arg.areaSize ≤ (arg.setStackImage mem sp stack n).1.length := by
      rw [hlen]
      split <;> omega
    rw [setStackImages, areaSizes_cons]
    refine ⟨by simp only; omega, fun _ hn => ?_⟩
    rw [List.length_cons] at hn ⊢
    -- The last argument puts its word behind the others.
    by_cases hargs : args = []
    · subst hargs
      rw [List.length_nil] at hn ⊢
      rw [if_pos (by omega)] at hlen
      simp only
      omega
    · have := hwords hargs (by omega)
      simp only
      omega

theorem length_image_eq {mem : Mem} {args : List Arg} {sp : Word} : (getStackImage mem args sp).image.length =
    ((setStackImages mem (getStackImage mem args sp).stackTop (zeros ((paramArea args).signExtend 64).toNat) 0 args).1.length
      + 15) / 16 * 16 := by
  simp only [getStackImage, List.length_append, length_zeros]
  omega

theorem paramArea_le_length_image (mem : Mem) (args : List Arg) (sp : Word) :
    paramAreaOffset + 8 * args.length ≤ (getStackImage mem args sp).image.length := by
  by_cases h : paramAreaOffset + 8 * args.length < 2 ^ 31
  · rw [length_image mem sp h, totalSize]
    omega
  · have hlong : numArgsOnRegister < 0 + args.length := by
      simp only [paramAreaOffset, numArgsOnRegister] at h ⊢
      omega
    have hne : args ≠ [] := by
      rintro rfl
      simp at hlong
    have hwords := (@length_setStackImages mem (getStackImage mem args sp).stackTop args
      (zeros ((paramArea args).signExtend 64).toNat) 0).2 hne hlong
    rw [length_image_eq]
    omega

/-- The size that is computed in advance is aligned from an `int`: a negative one becomes huge, or 0. -/
theorem toNat_stackSize_cases (mem : Mem) (args : List Arg) (sp : Word) :
    (unalignedSize args).toNat < 2 ^ 31 ∧
        (getStackImage mem args sp).stackSize.toNat = ((unalignedSize args).toNat + 15) / 16 * 16 ∨
      (getStackImage mem args sp).stackSize.toNat = 0 ∨ stringMaxSize < (getStackImage mem args sp).stackSize.toNat := by
  have h15 : (15 : Word).toNat = 15 := rfl
  have h16 : (16 : Word).toNat = 16 := rfl
  have hsize : (getStackImage mem args sp).stackSize.toNat =
      (((unalignedSize args).signExtend 64).toNat + 15) % 2 ^ 64 / 16 * 16 := by
    simp only [getStackImage, BitVec.toNat_mul, BitVec.toNat_udiv, BitVec.toNat_add, h15, h16]
    omega
  by_cases hlt : (unalignedSize args).toNat < 2 ^ 31
  · left
    rw [hsize, toNat_signExtend_of_lt hlt]
    omega
  · right
    have hmsb : (unalignedSize args).msb = true := by
      rw [BitVec.msb_eq_true_iff_two_mul_ge]
      omega
    have hext : ((unalignedSize args).signExtend 64).toNat = 2 ^ 64 - 2 ^ 32 + (unalignedSize args).toNat := by
      rw [BitVec.toNat_signExtend, hmsb, BitVec.toNat_setWidth]
      simp only [if_true]
      have := (unalignedSize args).isLt
      omega
    have := (unalignedSize args).isLt
    rw [hsize, hext, stringMaxSize]
    omega

/-! ### When `setup` returns -/

/-- `setup` returns exactly if the size of the image fits in an `int`. -/
theorem setup_eq_ok_iff (mem : Mem) (args : List Arg) (sp : Word) :
    setup mem args sp = .ok (getStackImage mem args sp) ↔ totalSize args < 2 ^ 31 := by
  constructor
  · intro hok
    rw [setup] at hok
    split at hok
    · cases hok
    rename_i hmax
    split at hok
    swap
    · cases hok
    rename_i hassert
    have hwords := paramArea_le_length_image mem args sp
    have hpos : 0 < (getStackImage mem args sp).image.length := by
      simp only [paramAreaOffset] at hwords
      omega
    obtain ⟨hlt, hsize⟩ | hzero | hhuge := toNat_stackSize_cases mem args sp
    · -- The parameter area has an `int` size: at `2 ^ 31` the string would start with a huge length.
      have harea : paramAreaOffset + 8 * args.length < 2 ^ 31 := by
        by_contra hnot
        have hedge : paramAreaOffset + 8 * args.length = 2 ^ 31 := by omega
        have hstart := (@length_setStackImages mem (getStackImage mem args sp).stackTop args
          (zeros ((paramArea args).signExtend 64).toNat) 0).1
        have hhuge : ((paramArea args).signExtend 64).toNat = 2 ^ 64 - 2 ^ 31 := by
          rw [paramArea, hedge]
          decide
        rw [length_zeros] at hstart
        rw [length_image_eq, stringMaxSize] at hmax
        omega
      have hlen := length_image mem sp harea
      have hmod := toNat_unalignedSize_mod args
      omega
    · omega
    · omega
  · intro h
    have hsize := toNat_stackSize mem sp h
    have hlen := length_image mem sp (paramArea_lt h)
    rw [setup, if_neg (by rw [stringMaxSize]; omega), if_pos (by rw [hsize, hlen])]

theorem setup_ok {mem : Mem} {args : List Arg} {sp : Word} {img : StackImage} (h : setup mem args sp = .ok img) :
    img = getStackImage mem args sp ∧ totalSize args < 2 ^ 31 := by
  have himg : img = getStackImage mem args sp := by
    rw [setup] at h
    split at h
    · cases h
    · split at h
      · exact (Except.ok.inj h).symm
      · cases h
  exact ⟨himg, (setup_eq_ok_iff mem args sp).mp (himg ▸ h)⟩

theorem size_of_setup {mem : Mem} {args : List Arg} {sp : Word} {img : StackImage} (h : setup mem args sp = .ok img) :
    img.stackSize.toNat = img.image.length := by
  obtain ⟨rfl, hsize⟩ := setup_ok h
  rw [toNat_stackSize mem sp hsize, length_image mem sp (paramArea_lt hsize)]

/-- A longer image that a `std::string` can hold aborts the process. -/
theorem setup_eq_assertion {mem : Mem} {args : List Arg} {sp : Word} (h : 2 ^ 31 ≤ totalSize args)
    (harea : paramAreaOffset + 8 * args.length < 2 ^ 31) (hmax : (totalSize args + 15) / 16 * 16 ≤ stringMaxSize) :
    setup mem args sp = .error .assertion := by
  have hlen := length_image mem sp harea
  have hne : (getStackImage mem args sp).stackSize.toNat ≠ (getStackImage mem args sp).image.length := by
    intro heq
    have hok : setup mem args sp = .ok (getStackImage mem args sp) := by
      rw [setup, if_neg (by omega), if_pos heq]
    exact absurd ((setup_eq_ok_iff mem args sp).mp hok) (by omega)
  rw [setup, if_neg (by omega), if_neg hne]

/-! ### The page check -/

theorem and_pageMask (a : Word) : (a &&& pageMask).toNat = a.toNat / 2 ^ 26 * 2 ^ 26 := by
  have hmask : a &&& pageMask = a >>> 26 <<< 26 := by
    apply BitVec.eq_of_getLsbD_eq
    intro i hi
    have hbit : pageMask.getLsbD i = decide (26 ≤ i) := by
      revert i
      decide
    simp only [BitVec.getLsbD_and, hbit, BitVec.getLsbD_shiftLeft, BitVec.getLsbD_ushiftRight, hi, decide_true, Bool.true_and]
    by_cases h26 : 26 ≤ i
    · simp [h26, show ¬ i < 26 by omega, show 26 + (i - 26) = i by omega]
    · simp [h26, show i < 26 by omega]
  have hlt := a.isLt
  rw [hmask, BitVec.toNat_shiftLeft, BitVec.toNat_ushiftRight, Nat.shiftRight_eq_div_pow, Nat.shiftLeft_eq]
  omega

/-- An address lies in the page of a higher one exactly if their distance is at most the offset in the page. -/
theorem same_page_iff {a : Word} {d : Nat} (hd : d < 2 ^ 63) :
    a &&& pageMask = (a - BitVec.ofNat 64 d) &&& pageMask ↔ d ≤ a.toNat % 2 ^ 26 := by
  have hlt := a.isLt
  have hd' : (BitVec.ofNat 64 d).toNat = d := Nat.mod_eq_of_lt (by omega)
  rw [← BitVec.toNat_inj, and_pageMask, and_pageMask, BitVec.toNat_sub, hd']
  omega

/-- `setup` returns exactly if the image is smaller than 2 GiB. Then its length is the size that was computed in advance,
and the call is refused exactly if the image does not fit between the reserved part of the stack and the start of the
page of the stack pointer. -/
theorem size_assertion_and_page_check (mem : Mem) (veSp addr : Word) (args : List Arg) (haddr : addr ≠ 0) :
    (setup mem args (veSp - BitVec.ofNat 64 reservedStackSize) =
        .ok (getStackImage mem args (veSp - BitVec.ofNat 64 reservedStackSize)) ↔ totalSize args < 2 ^ 31) ∧
    (totalSize args < 2 ^ 31 → ∀ img, img = getStackImage mem args (veSp - BitVec.ofNat 64 reservedStackSize) →
      img.stackSize.toNat = img.image.length ∧ img.stackSize.toNat = (totalSize args + 15) / 16 * 16 ∧
      callAsync mem true veSp addr args =
        .ok (if veSp.toNat % 2 ^ 26 < reservedStackSize + img.stackSize.toNat then none else some img)) := by
  refine ⟨setup_eq_ok_iff _ _ _, ?_⟩
  rintro h img rfl
  have hsize := toNat_stackSize mem (veSp - BitVec.ofNat 64 reservedStackSize) h
  have hlen := length_image mem (veSp - BitVec.ofNat 64 reservedStackSize) (paramArea_lt h)
  refine ⟨hsize.trans hlen.symm, hsize, ?_⟩
  have htop : (getStackImage mem args (veSp - BitVec.ofNat 64 reservedStackSize)).stackTop = veSp - BitVec.ofNat 64
      (reservedStackSize + (getStackImage mem args (veSp - BitVec.ofNat 64 reservedStackSize)).stackSize.toNat) := by
    rw [BitVec.ofNat_add, BitVec.ofNat_toNat, BitVec.setWidth_eq, ← BitVec.sub_sub]
    rfl
  have hpage := same_page_iff (a := veSp) (d := reservedStackSize +
    (getStackImage mem args (veSp - BitVec.ofNat 64 reservedStackSize)).stackSize.toNat) (by rw [hsize, reservedStackSize]; omega)
  rw [← htop] at hpage
  rw [callAsync, if_neg (fun h => h.elim haddr (by decide)), (setup_eq_ok_iff _ _ _).mpr h]
  by_cases hfit : reservedStackSize +
      (getStackImage mem args (veSp - BitVec.ofNat 64 reservedStackSize)).stackSize.toNat ≤ veSp.toNat % 2 ^ 26
  · rw [if_neg (by omega)]
    exact if_neg (not_not.mpr (hpage.mpr hfit))
  · rw [if_pos (by omega)]
    exact if_pos (mt hpage.mp hfit)

/-- Nine arguments with the stack pointer 1 MiB into its page, which leaves room for them, and at the start of the page,
which does not. -/
theorem size_assertion_and_page_check_nine :
    (∃ img, img.image.length = 256 ∧ callAsync (fun _ => 0) true 0x600000100000 0x1000 nineArgs = .ok (some img)) ∧
      callAsync (fun _ => 0) true 0x600000000000 0x1000 nineArgs = .ok none := by
  have hsize : totalSize nineArgs < 2 ^ 31 := by decide
  have hroom := (size_assertion_and_page_check (fun _ => 0) 0x600000100000 0x1000 nineArgs (by decide)).2 hsize _ rfl
  have hfull := (size_assertion_and_page_check (fun _ => 0) 0x600000000000 0x1000 nineArgs (by decide)).2 hsize _ rfl
  have hnine : (totalSize nineArgs + 15) / 16 * 16 = 256 := by decide
  rw [hnine] at hroom hfull
  refine ⟨⟨_, hroom.1.symm.trans hroom.2.1, ?_⟩, ?_⟩
  · rw [hroom.2.2, hroom.2.1, if_neg (by decide)]
  · rw [hfull.2.2, hfull.2.1, if_pos (by decide)]

/-- A buffer of 2 GiB, which could not fit in the page, aborts the process before the page check. -/
theorem setup_aborts_on_two_gib :
    callAsync (fun _ => 0) true 0x600000100000 0x1000 [.onStack 0x1000 0x80000000 .input] = .error .assertion := by
  have hsize : totalSize [.onStack 0x1000 0x80000000 .input] = 2147483832 := by decide
  rw [callAsync, if_neg (by decide), setup_eq_assertion (by rw [hsize]; decide) (by decide) (by rw [hsize]; decide)]
  rfl

end Aveo

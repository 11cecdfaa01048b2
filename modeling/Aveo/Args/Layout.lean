import Aveo.Args.CallArgs

/-!
# The layout of the stack image

The image is the parameter area followed by the buffers in the order of the arguments. The loop of
`getStackImage` appends at the end and writes words in the parameter area, so an image splits into a head of fixed
length, in which words are replaced, and a tail that grows.
-/

namespace Aveo

open Lib

namespace Arg

/-- The number of bytes of an argument behind the parameter area. -/
def areaSize : Arg → Nat
  | .onStack _ len _ => (len.toNat + 7) / 8 * 8
  | _ => 0

/-- The bytes of an argument behind the parameter area. -/
def area (mem : Mem) : Arg → List Byte
  | .onStack buff len intent =>
      (if intent.copiedIn then mem.read buff len.toNat else zeros len.toNat) ++ zeros ((len.toNat + 7) / 8 * 8 - len.toNat)
  | _ => []

/-- The word of an argument in the parameter area. -/
def stackWord (vemva : Word) : Arg → List Byte
  | .int ty value => leBytes ty.size value ++ zeros (8 - ty.size)
  | .double bits => leBytes 8 bits
  | .float bits => leBytes 8 (bits.setWidth 64 <<< 32)
  | .onStack _ _ _ => leBytes 8 vemva

end Arg

@[simp] theorem length_zeros (k : Nat) : (zeros k).length = k := List.length_replicate

theorem IntType.size_pos (ty : IntType) : 0 < ty.size ∧ ty.size ≤ 8 := by
  cases ty <;> decide

namespace Arg

variable {mem : Mem} {arg : Arg} {sp vemva : Word}

@[simp] theorem length_area (arg : Arg) : (arg.area mem).length = arg.areaSize := by
  cases arg with
  | onStack buff len intent =>
    have hdata : (if intent.copiedIn then mem.read buff len.toNat else zeros len.toNat).length = len.toNat := by
      split
      · exact Mem.length_read _ _ _
      · exact length_zeros _
    rw [area, areaSize, List.length_append, hdata, length_zeros]
    omega
  | _ => rfl

@[simp] theorem length_stackWord (arg : Arg) : (arg.stackWord vemva).length = 8 := by
  cases arg with
  | int ty value =>
    have := ty.size_pos
    rw [stackWord, List.length_append, length_leBytes, length_zeros]
    omega
  | _ => exact length_leBytes _ _

theorem dvd_areaSize (arg : Arg) : 8 ∣ arg.areaSize := by
  cases arg with
  | onStack buff len intent => exact Nat.dvd_mul_left 8 _
  | _ => exact Nat.dvd_zero 8

end Arg

/-- A string with a word put at an offset; zeros fill what is missing before it. -/
def putWord (str : List Byte) (offset : Nat) (word : List Byte) : List Byte :=
  splice (str ++ zeros (offset - str.length)) offset 8 word

section PutWord

variable {str word : List Byte} {offset p k : Nat}

theorem le_length_padded : offset ≤ (str ++ zeros (offset - str.length)).length := by
  rw [List.length_append, length_zeros]
  omega

theorem length_putWord (h : word.length = 8) : (putWord str offset word).length = max str.length (offset + 8) := by
  simp only [putWord, splice, List.length_append, List.length_take, List.length_drop, length_zeros, h]
  omega

theorem segment_putWord_self (h : word.length = 8) : segment (putWord str offset word) offset 8 = word := by
  rw [putWord, ← h]
  exact segment_splice_self le_length_padded

theorem segment_putWord_of_le (hlen : p + k ≤ str.length) (h : p + k ≤ offset) :
    segment (putWord str offset word) p k = segment str p k := by
  rw [putWord, segment_splice_of_le le_length_padded h, segment_append_left hlen]

theorem putWord_append_left {tail : List Byte} (h : offset + 8 ≤ str.length) :
    putWord (str ++ tail) offset word = splice str offset 8 word ++ tail := by
  have hpad : offset - (str ++ tail).length = 0 := by
    rw [List.length_append]
    omega
  rw [putWord, hpad]
  exact (congrArg (splice · offset 8 word) (List.append_nil _)).trans (splice_append_left h)

end PutWord

theorem setValue_eq {str : List Byte} {offset size : Nat} {value : BitVec (8 * size)} (hsize : 0 < size ∧ size ≤ 8) :
    setValue str offset size value = putWord str offset (leBytes size value ++ zeros (8 - size)) := by
  have hext : (if str.length < offset then str ++ zeros (offset - str.length) else str) =
      str ++ zeros (offset - str.length) := by
    split
    · rfl
    · rw [show offset - str.length = 0 by omega]
      exact (List.append_nil str).symm
  simp only [setValue, hext, putWord]
  by_cases h8 : size = 8
  · subst h8
    rw [if_neg (by decide)]
    simp [zeros]
  · have hmod : size % 8 = size := Nat.mod_eq_of_lt (by omega)
    rw [hmod, if_pos hsize.1, splice_splice le_length_padded (length_leBytes _ _)]
    congr 1
    omega

/-- One argument: the area is appended, and the word is put in its place if the argument is not passed in a register. -/
theorem Arg.setStackImage_fst {mem : Mem} {sp : Word} {stack : List Byte} {n : Nat} (arg : Arg) :
    (arg.setStackImage mem sp stack n).1 =
      if numArgsOnRegister ≤ n then
        putWord (stack ++ arg.area mem) (paramAreaOffset + 8 * n) (arg.stackWord (sp + BitVec.ofNat 64 stack.length))
      else stack ++ arg.area mem := by
  cases arg with
  | onStack buff len intent =>
    have hpad : (if 0 < len.toNat % 8 then zeros (8 - len.toNat % 8) else []) =
        zeros ((len.toNat + 7) / 8 * 8 - len.toNat) := by
      split
      · congr 1
        omega
      · have : (len.toNat + 7) / 8 * 8 - len.toNat = 0 := by omega
        rw [this]
        rfl
    have happend : ∀ data : List Byte,
        (if 0 < len.toNat % 8 then stack ++ data ++ zeros (8 - len.toNat % 8) else stack ++ data) =
          stack ++ (data ++ zeros ((len.toNat + 7) / 8 * 8 - len.toNat)) := by
      intro data
      rw [← hpad]
      split <;> simp
    simp only [setStackImage, happend, area]
    split
    · rw [setValue_eq (by decide)]
      simp [stackWord, zeros]
    · rfl
  | int ty value =>
    simp only [setStackImage, area, List.append_nil]
    by_cases hn : n < numArgsOnRegister
    · rw [if_pos hn, if_neg (by omega)]
    · rw [if_neg hn, if_pos (by omega), Nat.mul_comm n 8]
      simp only [setScalar]
      rw [setValue_eq ty.size_pos]
      rfl
  | double bits | float bits =>
    simp only [setStackImage, area, List.append_nil]
    by_cases hn : n < numArgsOnRegister
    · rw [if_pos hn, if_neg (by omega)]
    · rw [if_neg hn, if_pos (by omega), Nat.mul_comm n 8]
      simp only [setScalar]
      rw [setValue_eq (by decide)]
      simp [stackWord, zeros]

namespace Arg

/-- The argument is a buffer on the stack. -/
def isOnStack : Arg → Bool
  | .onStack _ _ _ => true
  | _ => false

theorem setStackImage_vemva {mem : Mem} {sp : Word} {stack : List Byte} {n : Nat} {arg : Arg} (h : arg.isOnStack = true) :
    (arg.setStackImage mem sp stack n).2.2.2 = sp + BitVec.ofNat 64 stack.length := by
  cases arg with
  | onStack buff len intent => rfl
  | _ => cases h

/-- Only the word of a buffer depends on its address. -/
theorem stackWord_setStackImage {mem : Mem} {sp : Word} {stack : List Byte} {n : Nat} (arg : Arg) :
    arg.stackWord (arg.setStackImage mem sp stack n).2.2.2 = arg.stackWord (sp + BitVec.ofNat 64 stack.length) := by
  cases arg with
  | onStack buff len intent => rfl
  | _ => rfl

end Arg

/-- The number of bytes of arguments behind the parameter area. -/
def areaSizes (args : List Arg) : Nat := (args.map Arg.areaSize).sum

theorem length_flatMap_area {mem : Mem} (args : List Arg) : (args.flatMap (Arg.area mem)).length = areaSizes args := by
  rw [List.length_flatMap, areaSizes]
  congr 1
  exact List.map_congr_left fun arg _ => arg.length_area

namespace Arg

variable {mem : Mem} {sp : Word} {stack : List Byte} {n : Nat}

/-- The word of an argument that is not passed in a register. -/
theorem segment_setStackImage (arg : Arg) (hn : numArgsOnRegister ≤ n) :
    segment (arg.setStackImage mem sp stack n).1 (paramAreaOffset + 8 * n) 8 =
      arg.stackWord (arg.setStackImage mem sp stack n).2.2.2 := by
  rw [setStackImage_fst, if_pos hn, segment_putWord_self arg.length_stackWord, stackWord_setStackImage]

/-- What stands before the word of an argument stays. -/
theorem segment_setStackImage_of_le {p k : Nat} (arg : Arg) (hlen : p + k ≤ stack.length) (h : p + k ≤ paramAreaOffset + 8 * n) :
    segment (arg.setStackImage mem sp stack n).1 p k = segment stack p k := by
  rw [setStackImage_fst]
  split
  · rw [segment_putWord_of_le (by rw [List.length_append]; omega) h, segment_append_left hlen]
  · rw [segment_append_left hlen]

theorem length_setStackImage (arg : Arg) : (arg.setStackImage mem sp stack n).1.length =
    if numArgsOnRegister ≤ n then max (stack.length + arg.areaSize) (paramAreaOffset + 8 * n + 8)
    else stack.length + arg.areaSize := by
  rw [setStackImage_fst]
  split
  · rw [length_putWord arg.length_stackWord, List.length_append, arg.length_area]
  · rw [List.length_append, arg.length_area]

end Arg

theorem segment_setStackImages_of_le {mem : Mem} {sp : Word} {p k : Nat} (args : List Arg) : ∀ {stack : List Byte} {n : Nat},
    p + k ≤ stack.length → p + k ≤ paramAreaOffset + 8 * n →
    segment (setStackImages mem sp stack n args).1 p k = segment stack p k := by
  induction args with
  | nil => exact fun _ _ => rfl
  | cons arg args ih =>
    intro stack n hlen h
    have hgrow : p + k ≤ (arg.setStackImage mem sp stack n).1.length := by
      rw [arg.length_setStackImage]
      split <;> omega
    rw [setStackImages, ih hgrow (by omega), arg.segment_setStackImage_of_le hlen h]

/-- The loop puts the word of every argument that is not passed in a register. -/
theorem segment_setStackImages {mem : Mem} {sp : Word} (args : List Arg) : ∀ {stack : List Byte} {n i : Nat} {arg : Arg},
    args[i]? = some arg → numArgsOnRegister ≤ n + i →
    ∃ v, (setStackImages mem sp stack n args).2.2.2[i]? = some v ∧
      segment (setStackImages mem sp stack n args).1 (paramAreaOffset + 8 * (n + i)) 8 = arg.stackWord v := by
  induction args with
  | nil =>
    intro stack n i arg hi
    simp at hi
  | cons arg₀ args ih =>
    intro stack n i arg hi hreg
    cases i with
    | zero =>
      cases Option.some.inj (show some arg₀ = some arg from hi)
      rw [Nat.add_zero] at hreg
      have hlen : paramAreaOffset + 8 * n + 8 ≤ (arg₀.setStackImage mem sp stack n).1.length := by
        rw [arg₀.length_setStackImage, if_pos hreg]
        omega
      refine ⟨_, rfl, ?_⟩
      rw [Nat.add_zero, setStackImages, segment_setStackImages_of_le args hlen (by omega), arg₀.segment_setStackImage hreg]
    | succ i =>
      have hih := @ih (arg₀.setStackImage mem sp stack n).1 (n + 1) i arg hi (by omega)
      rwa [show n + 1 + i = n + (i + 1) by omega] at hih

theorem length_vemva {mem : Mem} {sp : Word} (args : List Arg) : ∀ {stack : List Byte} {n : Nat},
    (setStackImages mem sp stack n args).2.2.2.length = args.length := by
  induction args with
  | nil => exact rfl
  | cons arg args ih =>
    intro stack n
    rw [setStackImages, List.length_cons, List.length_cons, ih]

/-- The loop from a string that holds the parameter area: the areas are appended one after the other, and the buffers
have the addresses of theirs. -/
theorem setStackImages_eq {mem : Mem} {sp : Word} (args : List Arg) : ∀ {head tail : List Byte} {n : Nat},
    paramAreaOffset + 8 * (n + args.length) ≤ head.length →
    ∃ head', (setStackImages mem sp (head ++ tail) n args).1 = head' ++ (tail ++ args.flatMap (Arg.area mem)) ∧
      head'.length = head.length ∧
      ∀ i arg, args[i]? = some arg → arg.isOnStack = true →
        (setStackImages mem sp (head ++ tail) n args).2.2.2[i]? =
          some (sp + BitVec.ofNat 64 (head.length + tail.length + areaSizes (args.take i))) := by
  induction args with
  | nil =>
    intro head tail n h
    exact ⟨head, by simp [setStackImages], rfl, fun i arg harg => by simp at harg⟩
  | cons arg args ih =>
    intro head tail n h
    rw [List.length_cons] at h
    have hword : paramAreaOffset + 8 * n + 8 ≤ head.length := by omega
    -- The head after the first argument.
    obtain ⟨head₁, hhead₁, hlen₁⟩ : ∃ head₁, (arg.setStackImage mem sp (head ++ tail) n).1 = head₁ ++ (tail ++ arg.area mem) ∧
        head₁.length = head.length := by
      rw [arg.setStackImage_fst, List.append_assoc]
      split
      · exact ⟨_, putWord_append_left hword, length_splice hword arg.length_stackWord⟩
      · exact ⟨head, rfl, rfl⟩
    obtain ⟨head₂, hhead₂, hlen₂, hargs⟩ := @ih head₁ (tail ++ arg.area mem) (n + 1) (by omega)
    rw [← hhead₁] at hhead₂ hargs
    refine ⟨head₂, ?_, hlen₂.trans hlen₁, fun i a hi hstack => ?_⟩
    · rw [setStackImages, List.flatMap_cons, ← List.append_assoc tail]
      exact hhead₂
    · cases i with
      | zero =>
        cases Option.some.inj (show some arg = some a from hi)
        have hv := @Arg.setStackImage_vemva mem sp (head ++ tail) n arg hstack
        rw [List.length_append] at hv
        exact congrArg some hv
      | succ i =>
        refine (hargs i a hi hstack).trans ?_
        rw [hlen₁, List.length_append, arg.length_area, List.take_succ_cons, areaSizes, areaSizes, List.map_cons, List.sum_cons]
        congr 3
        omega

/-! ### The size that is computed in advance -/

/-- The size of the image before its alignment. -/
def totalSize (args : List Arg) : Nat := paramAreaOffset + 8 * args.length + areaSizes args

/-- A number below 2^31 that is kept in an `int` converts to the same `size_t`. -/
theorem toNat_signExtend_of_lt {v : BitVec 32} (h : v.toNat < 2 ^ 31) : (v.signExtend 64).toNat = v.toNat := by
  have hmsb : v.msb = false := by
    rw [BitVec.msb_eq_false_iff_two_mul_lt]
    omega
  rw [BitVec.signExtend_eq_setWidth_of_msb_false hmsb, BitVec.toNat_setWidth]
  exact Nat.mod_eq_of_lt (by omega)

theorem Arg.toNat_sizeOnStack (arg : Arg) : arg.sizeOnStack.toNat = arg.areaSize % 2 ^ 64 := by
  cases arg with
  | onStack buff len intent =>
    have hmod : (len % 8).toNat = len.toNat % 8 := BitVec.toNat_umod
    simp only [sizeOnStack, areaSize]
    have hlt := len.isLt
    split
    · rename_i hpos
      have hpos : 0 < len.toNat % 8 := by
        rw [← hmod]
        exact hpos
      rw [BitVec.toNat_add, BitVec.toNat_sub, hmod]
      have h8 : (8 : Word).toNat = 8 := rfl
      omega
    · rename_i hpos
      have hzero : len.toNat % 8 = 0 := by
        rw [← hmod]
        exact Nat.eq_zero_of_not_pos hpos
      omega
  | _ => rfl

theorem areaSizes_cons (arg : Arg) (args : List Arg) : areaSizes (arg :: args) = arg.areaSize + areaSizes args := by
  rw [areaSizes, List.map_cons, List.sum_cons, areaSizes]

/-- The accumulator keeps the sum modulo `2 ^ 32`. -/
theorem toNat_foldl_sizeOnStack (args : List Arg) : ∀ s : BitVec 32,
    (args.foldl (fun s arg => (s.signExtend 64 + arg.sizeOnStack).setWidth 32) s).toNat =
      (s.toNat + areaSizes args) % 2 ^ 32 := by
  induction args with
  | nil =>
    intro s
    exact (Nat.mod_eq_of_lt s.isLt).symm
  | cons arg args ih =>
    intro s
    have hlt := s.isLt
    have hsign : (s.signExtend 64).toNat % 2 ^ 32 = s.toNat := by
      rw [BitVec.toNat_signExtend, BitVec.toNat_setWidth]
      split <;> omega
    have hstep : ((s.signExtend 64 + arg.sizeOnStack).setWidth 32).toNat = (s.toNat + arg.areaSize) % 2 ^ 32 := by
      rw [BitVec.toNat_setWidth, BitVec.toNat_add, Arg.toNat_sizeOnStack]
      omega
    rw [List.foldl_cons, ih, hstep, areaSizes_cons]
    omega

/-- The size that is computed in advance, before its alignment, is that of the image modulo `2 ^ 32`. -/
theorem toNat_unalignedSize_mod (args : List Arg) : (unalignedSize args).toNat = totalSize args % 2 ^ 32 := by
  have hzero : (0 : BitVec 32).toNat = 0 := rfl
  rw [unalignedSize, BitVec.toNat_add, toNat_foldl_sizeOnStack, paramArea, BitVec.toNat_ofNat, totalSize]
  omega

theorem toNat_paramArea {args : List Arg} (h : paramAreaOffset + 8 * args.length < 2 ^ 31) :
    ((paramArea args).signExtend 64).toNat = paramAreaOffset + 8 * args.length := by
  have heq : (paramArea args).toNat = paramAreaOffset + 8 * args.length := by
    rw [paramArea, BitVec.toNat_ofNat]
    exact Nat.mod_eq_of_lt (by omega)
  rw [toNat_signExtend_of_lt (by omega), heq]

theorem paramArea_lt {args : List Arg} (h : totalSize args < 2 ^ 31) : paramAreaOffset + 8 * args.length < 2 ^ 31 := by
  rw [totalSize] at h
  omega

theorem toNat_unalignedSize {args : List Arg} (h : totalSize args < 2 ^ 31) : (unalignedSize args).toNat = totalSize args := by
  rw [toNat_unalignedSize_mod]
  exact Nat.mod_eq_of_lt (by omega)

theorem toNat_stackSize (mem : Mem) {args : List Arg} (sp : Word) (h : totalSize args < 2 ^ 31) :
    (getStackImage mem args sp).stackSize.toNat = (totalSize args + 15) / 16 * 16 := by
  have hsize : ((unalignedSize args).signExtend 64).toNat = totalSize args := by
    rw [toNat_signExtend_of_lt (by rw [toNat_unalignedSize h]; exact h), toNat_unalignedSize h]
  simp only [getStackImage, BitVec.toNat_mul, BitVec.toNat_udiv, BitVec.toNat_add, hsize]
  have h15 : (15 : Word).toNat = 15 := rfl
  have h16 : (16 : Word).toNat = 16 := rfl
  rw [h15, h16]
  omega

/-! ### The image -/

/-- Where the area of an argument starts in the image. -/
def areaOffset (args : List Arg) (n : Nat) : Nat := paramAreaOffset + 8 * args.length + areaSizes (args.take n)

theorem areaSizes_append (args args' : List Arg) : areaSizes (args ++ args') = areaSizes args + areaSizes args' := by
  rw [areaSizes, areaSizes, areaSizes, List.map_append, List.sum_append]

theorem dvd_areaSizes (args : List Arg) : 8 ∣ areaSizes args := by
  induction args with
  | nil => exact Nat.dvd_zero 8
  | cons arg args ih =>
    rw [areaSizes, List.map_cons, List.sum_cons]
    exact Nat.dvd_add arg.dvd_areaSize ih

theorem dvd_areaOffset (args : List Arg) (n : Nat) : 8 ∣ areaOffset args n :=
  Nat.dvd_add (Nat.dvd_add (by decide) (Nat.dvd_mul_right 8 _)) (dvd_areaSizes _)

/-- The arguments before, at and after a position. -/
theorem args_split {args : List Arg} {n : Nat} {arg : Arg} (h : args[n]? = some arg) :
    args = args.take n ++ arg :: args.drop (n + 1) := by
  obtain ⟨hn, rfl⟩ := List.getElem?_eq_some_iff.mp h
  rw [← List.drop_eq_getElem_cons hn, List.take_append_drop]

/-- Areas follow one another in the order of the arguments. -/
theorem areaOffset_add_le {args : List Arg} {n m : Nat} {arg : Arg} (hnm : n < m) (h : args[n]? = some arg) :
    areaOffset args n + arg.areaSize ≤ areaOffset args m := by
  have hsplit : args.take m = args.take n ++ arg :: (args.take m).drop (n + 1) := by
    have htake : (args.take m)[n]? = some arg := by
      rw [List.getElem?_take, if_pos hnm]
      exact h
    have hcut := args_split htake
    rwa [List.take_take, Nat.min_eq_left (Nat.le_of_lt hnm)] at hcut
  have hsize : areaSizes (args.take m) = areaSizes (args.take n) + (arg.areaSize + areaSizes ((args.take m).drop (n + 1))) := by
    conv_lhs => rw [hsplit]
    rw [areaSizes_append]
    rfl
  rw [areaOffset, areaOffset, hsize]
  omega

theorem areaOffset_le_totalSize {args : List Arg} {n : Nat} {arg : Arg} (h : args[n]? = some arg) :
    areaOffset args n + arg.areaSize ≤ totalSize args := by
  have hsize : areaSizes args = areaSizes (args.take n) + (arg.areaSize + areaSizes (args.drop (n + 1))) := by
    conv_lhs => rw [args_split h]
    rw [areaSizes_append]
    rfl
  rw [areaOffset, totalSize, hsize]
  omega

theorem image_eq {mem : Mem} {args : List Arg} {sp : Word} {r : List Byte × Bool × Bool × List Word}
    (h : setStackImages mem (getStackImage mem args sp).stackTop (zeros ((paramArea args).signExtend 64).toNat) 0 args = r) :
    (getStackImage mem args sp).image = r.1 ++ zeros ((r.1.length + 15) / 16 * 16 - r.1.length) ∧
      (getStackImage mem args sp).vemva = r.2.2.2 := by
  subst h
  exact ⟨rfl, rfl⟩

/-- The image: a parameter area, the areas of the arguments, and the alignment. -/
theorem getStackImage_eq (mem : Mem) {args : List Arg} (sp : Word) (h : paramAreaOffset + 8 * args.length < 2 ^ 31) :
    ∃ head, (getStackImage mem args sp).image =
        head ++ args.flatMap (Arg.area mem) ++ zeros ((totalSize args + 15) / 16 * 16 - totalSize args) ∧
      head.length = paramAreaOffset + 8 * args.length ∧
      ∀ i arg, args[i]? = some arg → arg.isOnStack = true →
        (getStackImage mem args sp).vemva[i]? =
          some ((getStackImage mem args sp).stackTop + BitVec.ofNat 64 (areaOffset args i)) := by
  have hroom : paramAreaOffset + 8 * (0 + args.length) ≤ (zeros (paramAreaOffset + 8 * args.length)).length := by
    rw [length_zeros]
    omega
  obtain ⟨head, himage, hlen, hargs⟩ :=
    @setStackImages_eq mem (getStackImage mem args sp).stackTop args (zeros (paramAreaOffset + 8 * args.length)) [] 0 hroom
  rw [List.append_nil] at himage hargs
  rw [List.nil_append] at himage
  rw [length_zeros] at hlen hargs
  obtain ⟨himg, hvemva⟩ := @image_eq mem args sp _ rfl
  rw [toNat_paramArea h] at himg hvemva
  have hsize : (head ++ args.flatMap (Arg.area mem)).length = totalSize args := by
    rw [List.length_append, hlen, length_flatMap_area, totalSize]
  refine ⟨head, by rw [himg, himage, hsize], hlen, fun i arg hi hstack => ?_⟩
  rw [hvemva, hargs i arg hi hstack, List.length_nil, Nat.add_zero, areaOffset]

theorem length_image (mem : Mem) {args : List Arg} (sp : Word) (h : paramAreaOffset + 8 * args.length < 2 ^ 31) :
    (getStackImage mem args sp).image.length = (totalSize args + 15) / 16 * 16 := by
  obtain ⟨head, himage, hlen, -⟩ := getStackImage_eq mem sp h
  rw [himage, List.length_append, List.length_append, hlen, length_flatMap_area, length_zeros, totalSize]
  omega

/-- The area of an argument in the image. -/
theorem segment_area {mem : Mem} {args : List Arg} {sp : Word} (h : paramAreaOffset + 8 * args.length < 2 ^ 31) {n : Nat}
    {arg : Arg} (hn : args[n]? = some arg) :
    segment (getStackImage mem args sp).image (areaOffset args n) arg.areaSize = arg.area mem := by
  obtain ⟨head, himage, hlen, -⟩ := getStackImage_eq mem sp h
  have hcut : args.flatMap (Arg.area mem) =
      (args.take n).flatMap (Arg.area mem) ++ (arg.area mem ++ (args.drop (n + 1)).flatMap (Arg.area mem)) := by
    conv_lhs => rw [args_split hn]
    rw [List.flatMap_append, List.flatMap_cons]
  have hbefore : (head ++ (args.take n).flatMap (Arg.area mem)).length = areaOffset args n := by
    rw [List.length_append, hlen, length_flatMap_area, areaOffset]
  have himage' : (getStackImage mem args sp).image = (head ++ (args.take n).flatMap (Arg.area mem)) ++
      (arg.area mem ++ ((args.drop (n + 1)).flatMap (Arg.area mem) ++
        zeros ((totalSize args + 15) / 16 * 16 - totalSize args))) := by
    rw [himage, hcut]
    simp only [List.append_assoc]
  have hseg := segment_append_right (l := head ++ (args.take n).flatMap (Arg.area mem))
    (r := arg.area mem ++ ((args.drop (n + 1)).flatMap (Arg.area mem) ++
      zeros ((totalSize args + 15) / 16 * 16 - totalSize args))) (p := 0) (k := (arg.area mem).length)
  rw [hbefore, Nat.add_zero, ← himage', segment_append_left (by omega), segment_zero_length, arg.length_area] at hseg
  exact hseg

/-- The word of an argument that is not passed in a register. -/
theorem segment_word {mem : Mem} {args : List Arg} {sp : Word} {n : Nat} {arg : Arg} (hn : args[n]? = some arg)
    (hstack : numArgsOnRegister ≤ n) :
    ∃ v, (getStackImage mem args sp).vemva[n]? = some v ∧
      segment (getStackImage mem args sp).image (paramAreaOffset + 8 * n) 8 = arg.stackWord v := by
  obtain ⟨himg, hvemva⟩ := @image_eq mem args sp _ rfl
  obtain ⟨v, hv, hword⟩ := @segment_setStackImages mem (getStackImage mem args sp).stackTop args
    (zeros ((paramArea args).signExtend 64).toNat) 0 n arg hn (by omega)
  rw [Nat.zero_add] at hword
  have hinside : paramAreaOffset + 8 * n + 8 ≤ (setStackImages mem (getStackImage mem args sp).stackTop
      (zeros ((paramArea args).signExtend 64).toNat) 0 args).1.length := by
    have hlen := congrArg List.length hword
    rw [arg.length_stackWord, Lib.segment, List.length_take, List.length_drop] at hlen
    omega
  exact ⟨v, hvemva ▸ hv, by rw [himg, segment_append_left hinside, hword]⟩

/-- The layout of the image. The areas of the buffers start at multiples of 8 behind the parameter area, follow one
another and lie inside the image, hold the bytes of the user or zeros and end with zeros, and are what the registers
and the parameter words point to. -/
theorem stack_image_layout (mem : Mem) (args : List Arg) (sp : Word) (hsize : totalSize args < 2 ^ 31) :
    (getStackImage mem args sp).stackSize.toNat % 16 = 0 ∧
    (getStackImage mem args sp).image.length = (getStackImage mem args sp).stackSize.toNat ∧
    (getStackImage mem args sp).stackTop = sp - (getStackImage mem args sp).stackSize ∧
    ∃ off : Nat → Nat,
      (∀ n buff len intent, args[n]? = some (.onStack buff len intent) →
        paramAreaOffset + 8 * args.length ≤ off n ∧ 8 ∣ off n ∧
        off n + (len.toNat + 7) / 8 * 8 ≤ (getStackImage mem args sp).image.length ∧
        segment (getStackImage mem args sp).image (off n) ((len.toNat + 7) / 8 * 8) =
          (if intent.copiedIn then mem.read buff len.toNat else zeros len.toNat) ++
            zeros ((len.toNat + 7) / 8 * 8 - len.toNat) ∧
        (∃ v, (getStackImage mem args sp).vemva[n]? = some v ∧ Arg.getRegVal v (.onStack buff len intent) =
          (getStackImage mem args sp).stackTop + BitVec.ofNat 64 (off n)) ∧
        (numArgsOnRegister ≤ n → segment (getStackImage mem args sp).image (paramAreaOffset + 8 * n) 8 =
          leBytes 8 ((getStackImage mem args sp).stackTop + BitVec.ofNat 64 (off n)))) ∧
      ∀ n m buff len intent buff' len' intent', n < m → args[n]? = some (.onStack buff len intent) →
        args[m]? = some (.onStack buff' len' intent') → off n + (len.toNat + 7) / 8 * 8 ≤ off m := by
  have harea := paramArea_lt hsize
  have hlen := length_image mem sp harea
  have hstack := toNat_stackSize mem sp hsize
  refine ⟨?_, hlen.trans hstack.symm, rfl, areaOffset args, fun n buff len intent hn => ?_, ?_⟩
  · rw [hstack]
    exact Nat.mul_mod_left _ 16
  · have hinside := areaOffset_le_totalSize hn
    obtain ⟨head, -, -, hargs⟩ := getStackImage_eq mem sp harea
    have hv := hargs n _ hn rfl
    refine ⟨Nat.le_add_right _ _, dvd_areaOffset args n, ?_, segment_area harea hn, ⟨_, hv, rfl⟩, fun hreg => ?_⟩
    · rw [hlen]
      exact hinside.trans (by omega)
    · obtain ⟨w, hw, hword⟩ := @segment_word mem args sp n _ hn hreg
      cases hv.symm.trans hw
      exact hword
  · intro n m buff len intent buff' len' intent' hnm hn hm
    exact areaOffset_add_le hnm hn

/-- Eight scalars and a buffer of three bytes, which is the first argument on the stack. -/
def nineArgs : List Arg := List.replicate 8 (.int .int64 7) ++ [.onStack 0x1000 3 .inout]

theorem stack_image_layout_nine :
    totalSize nineArgs < 2 ^ 31 ∧ (getStackImage (fun a => a.setWidth 8) nineArgs 0x80000).image.length = 256 ∧
      ∃ off, segment (getStackImage (fun a => a.setWidth 8) nineArgs 0x80000).image off 8 = [0, 1, 2, 0, 0, 0, 0, 0] ∧
        segment (getStackImage (fun a => a.setWidth 8) nineArgs 0x80000).image 240 8 =
          leBytes 8 ((getStackImage (fun a => a.setWidth 8) nineArgs 0x80000).stackTop + BitVec.ofNat 64 off) := by
  have hsize : totalSize nineArgs < 2 ^ 31 := by decide
  obtain ⟨-, hlen, -, off, hareas, -⟩ := stack_image_layout (fun a => a.setWidth 8) nineArgs 0x80000 hsize
  obtain ⟨-, -, -, harea, -, hword⟩ := hareas 8 0x1000 3 .inout rfl
  refine ⟨hsize, ?_, off 8, harea.trans (by decide), hword (by decide)⟩
  rw [hlen, toNat_stackSize _ _ hsize]
  decide

end Aveo

import Aveo.Args.Layout

/-!
# Scalars in registers and on the stack

A scalar is encoded twice: `getRegVal` casts it to `int64_t`, which extends the sign, and `setStackImage` copies its bytes
and pads them with zeros.
-/

namespace Aveo

open Lib

section LeBytes

variable {k : Nat} {v : BitVec (8 * k)}

/-- Padding the bytes of a value with zeros is zero extension. -/
theorem leBytes_setWidth (hk : k ≤ 8) : leBytes 8 (v.setWidth 64) = leBytes k v ++ zeros (8 - k) := by
  have hrange : List.range 8 = List.range k ++ (List.range (8 - k)).map (k + ·) := by
    rw [← List.range_add, Nat.add_sub_cancel' hk]
  rw [leBytes, hrange, List.map_append, leBytes]
  congr 1
  · refine List.map_congr_left fun i hi => ?_
    have hlt : i < k := List.mem_range.mp hi
    apply BitVec.eq_of_getLsbD_eq
    intro j hj
    simp only [BitVec.getLsbD_extractLsb', BitVec.getLsbD_setWidth, hj, show 8 * i + j < 64 by omega, decide_true,
      Bool.true_and]
  · rw [zeros, List.map_map, List.eq_replicate_iff]
    refine ⟨by simp, fun b hb => ?_⟩
    obtain ⟨i, -, rfl⟩ := List.mem_map.mp hb
    apply BitVec.eq_of_getLsbD_eq
    intro j hj
    simp only [Function.comp, BitVec.getLsbD_extractLsb', BitVec.getLsbD_setWidth]
    rw [BitVec.getLsbD_of_ge v _ (by omega)]
    simp

/-- The last byte of a negative value that is extended to a word has its bits set, a padded one does not. -/
theorem leBytes_signExtend_ne (hk : k < 8) (hmsb : v.msb = true) :
    leBytes 8 (v.signExtend 64) ≠ leBytes k v ++ zeros (8 - k) := by
  intro heq
  rw [← leBytes_setWidth (Nat.le_of_lt hk)] at heq
  have hlast : (v.signExtend 64).extractLsb' 56 8 = (v.setWidth 64).extractLsb' 56 8 := by
    have h7 := congrArg (fun l => l[7]?) heq
    simpa [leBytes] using h7
  have hbit := congrArg (fun b : Byte => b.getLsbD 7) hlast
  simp only [BitVec.getLsbD_extractLsb', BitVec.getLsbD_signExtend, BitVec.getLsbD_setWidth] at hbit
  rw [if_neg (by omega), hmsb, BitVec.getLsbD_of_ge v 63 (by omega)] at hbit
  simp at hbit

end LeBytes

namespace Arg

/-- A negative value of a signed type that is narrower than a word. -/
def narrowNegative : Arg → Bool
  | .int ty value => ty.signed && decide (ty.size < 8) && value.msb
  | _ => false

/-- The word on the stack is the one of the register unless the argument is a narrow negative number. -/
theorem stackWord_eq_iff {arg : Arg} {v w : Word} (h : arg.isOnStack = false) :
    arg.stackWord v = leBytes 8 (arg.getRegVal w) ↔ arg.narrowNegative = false := by
  cases arg with
  | onStack buff len intent => cases h
  | double bits | float bits => exact ⟨fun _ => rfl, fun _ => rfl⟩
  | int ty value =>
    have hsize := ty.size_pos.2
    simp only [stackWord, getRegVal, narrowNegative]
    by_cases hsigned : ty.signed = true
    swap
    · simp [hsigned, leBytes_setWidth hsize]
    by_cases hneg : value.msb = true
    swap
    · rw [Bool.not_eq_true] at hneg
      simp [hsigned, hneg, BitVec.signExtend_eq_setWidth_of_msb_false hneg, leBytes_setWidth hsize]
    by_cases hwide : ty.size = 8
    · have hext : value.signExtend 64 = value.setWidth 64 := by
        apply BitVec.eq_of_getLsbD_eq
        intro i hi
        rw [BitVec.getLsbD_signExtend, BitVec.getLsbD_setWidth, if_pos (by omega)]
      simp [hsigned, hwide, hext, leBytes_setWidth hsize]
    · have hne := leBytes_signExtend_ne (v := value) (by omega) hneg
      simp [hsigned, hneg, show ty.size < 8 by omega, hne.symm]

end Arg

/-- A scalar at any position of any list of arguments: in a register it is the value extended to a word, and on the stack
it is the same word exactly if it is not a negative number of a type narrower than a word. -/
theorem scalar_word_agrees (mem : Mem) (args : List Arg) (sp : Word) (n : Nat) (arg : Arg) (hn : args[n]? = some arg)
    (hscalar : arg.isOnStack = false) :
    (n < numArgsOnRegister → (getRegVal args (getStackImage mem args sp))[n]? = some (arg.getRegVal 0)) ∧
    (numArgsOnRegister ≤ n →
      (segment (getStackImage mem args sp).image (paramAreaOffset + 8 * n) 8 = leBytes 8 (arg.getRegVal 0) ↔
        arg.narrowNegative = false)) := by
  constructor
  · intro hreg
    have hlt : n < (getStackImage mem args sp).vemva.length := by
      rw [(image_eq rfl).2, length_vemva]
      exact (List.getElem?_eq_some_iff.mp hn).1
    have hval : ∀ v, arg.getRegVal v = arg.getRegVal 0 := by
      intro v
      cases arg with
      | onStack buff len intent => cases hscalar
      | _ => rfl
    rw [getRegVal, List.getElem?_take, if_pos hreg, List.getElem?_zipWith, List.getElem?_eq_getElem hlt, hn]
    exact congrArg some (hval _)
  · intro hstack
    obtain ⟨v, -, hword⟩ := @segment_word mem args sp n _ hn hstack
    rw [hword, Arg.stackWord_eq_iff hscalar]

/-- The same argument nine times, eight of them in registers and one on the stack. -/
def nineTimes (arg : Arg) : List Arg := List.replicate 9 arg

theorem scalar_word_agrees_int16 :
    (getRegVal (nineTimes (.int .int16 0x7FFE)) (getStackImage (fun _ => 0) (nineTimes (.int .int16 0x7FFE)) 0x80000))[0]? =
        some 0x7FFE ∧
      segment (getStackImage (fun _ => 0) (nineTimes (.int .int16 0x7FFE)) 0x80000).image 240 8 =
        [0xFE, 0x7F, 0, 0, 0, 0, 0, 0] := by
  have hagree := scalar_word_agrees (fun _ => 0) (nineTimes (.int .int16 0x7FFE)) 0x80000
  have hreg := (hagree 0 _ rfl rfl).1 (by decide)
  have hword := ((hagree 8 _ rfl rfl).2 (by decide)).mpr (by decide)
  exact ⟨hreg.trans (by decide), hword.trans (by decide)⟩

/-- The 8-bit number `-1` as argument 0 fills a register with ones, and as argument 8 it is 255. -/
theorem int8_word_differs :
    (getRegVal (nineTimes (.int .int8 0xFF)) (getStackImage (fun _ => 0) (nineTimes (.int .int8 0xFF)) 0x80000))[0]? =
        some 0xFFFFFFFFFFFFFFFF ∧
      segment (getStackImage (fun _ => 0) (nineTimes (.int .int8 0xFF)) 0x80000).image 240 8 = leBytes 8 (255 : Word) := by
  decide +kernel

end Aveo

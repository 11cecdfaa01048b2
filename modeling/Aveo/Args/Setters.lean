import Aveo.Args.Setup
import Aveo.Lib.Outcome

/-!
# Setting arguments

`CallArgs` keeps its arguments in a vector of pointers. The setters take an `int`, grow the vector if it is too short and
leave null pointers in the slots between. `setup`, `getRegVal` and `copyout` follow the pointers without a test. The C
functions catch `VEOException`, which the setters never throw.

`ArgMap` is what the object is for: a number of arguments, and which of them are set to what.
-/

namespace Aveo

open Lib

/-- The exceptions that matter here. Undefined are an access outside the vector or through a null pointer, and an overflow
of an `int`. -/
inductive Raised
  | veoException
  | lengthError
  | badAlloc
  deriving DecidableEq

/-- `arguments` of `CallArgs`; an empty slot is a null pointer. -/
abbrev ArgSlots := List (Option Arg)

/-- `max_size` of a vector of pointers. -/
def vectorMaxSize : Nat := 2 ^ 60 - 1

/-- `resize`; `fits` tells for which sizes there is memory. -/
def ArgSlots.resize (fits : Nat → Bool) (slots : ArgSlots) (size : Nat) : Outcome Raised ArgSlots :=
  if vectorMaxSize < size then .raise .lengthError
  else if fits size = false then .raise .badAlloc
  else .ok (slots.take size ++ List.replicate (size - slots.length) none)

def intMax : BitVec 32 := 0x7FFFFFFF

/-- The body that `set_` and `setOnStack` share. The size is compared with `argnum + 1`, an `int` that is converted to
`size_t`, and so is the index. -/
def ArgSlots.store (fits : Nat → Bool) (slots : ArgSlots) (argnum : BitVec 32) (arg : Arg) : Outcome Raised ArgSlots :=
  if argnum = intMax then .undefined
  else
    let size := ((argnum + 1).signExtend 64).toNat
    let index := (argnum.signExtend 64).toNat
    Outcome.bind (if slots.length < size then slots.resize fits size else .ok slots) fun slots =>
      if index < slots.length then .ok (slots.set index (some arg)) else .undefined

/-- A scalar argument. -/
inductive Scalar
  | int (ty : IntType) (value : BitVec (8 * ty.size))
  | double (bits : BitVec 64)
  | float (bits : BitVec 32)

def Scalar.arg : Scalar → Arg
  | .int ty value => .int ty value
  | .double bits => .double bits
  | .float bits => .float bits

/-- `CallArgs::set_`. -/
def ArgSlots.set_ (fits : Nat → Bool) (slots : ArgSlots) (argnum : BitVec 32) (val : Scalar) : Outcome Raised ArgSlots :=
  slots.store fits argnum val.arg

/-- `CallArgs::setOnStack`. -/
def ArgSlots.setOnStack (fits : Nat → Bool) (slots : ArgSlots) (intent : Intent) (argnum : BitVec 32) (buff len : Word) :
    Outcome Raised ArgSlots :=
  slots.store fits argnum (.onStack buff len intent)

/-- The `try` block of the C functions: 0 with the new arguments, or -1 with the old ones. -/
def ArgSlots.guarded (slots : ArgSlots) : Outcome Raised ArgSlots → Outcome Raised (Int × ArgSlots)
  | .ok slots' => .ok (0, slots')
  | .raise .veoException => .ok (-1, slots)
  | .raise e => .raise e
  | .undefined => .undefined

/-- `veo_args_set_` and `veo_args_set_stack`. -/
def veoArgsSet_ (fits : Nat → Bool) (slots : ArgSlots) (argnum : BitVec 32) (val : Scalar) : Outcome Raised (Int × ArgSlots) :=
  slots.guarded (slots.set_ fits argnum val)

def veoArgsSetStack (fits : Nat → Bool) (slots : ArgSlots) (intent : Intent) (argnum : BitVec 32) (buff len : Word) :
    Outcome Raised (Int × ArgSlots) :=
  slots.guarded (slots.setOnStack fits intent argnum buff len)

/-- A call of the C functions on one object. -/
inductive Setter
  | set (argnum : BitVec 32) (val : Scalar)
  | setStack (intent : Intent) (argnum : BitVec 32) (buff len : Word)
  | clear

def Setter.apply (fits : Nat → Bool) (slots : ArgSlots) : Setter → Outcome Raised (Int × ArgSlots)
  | .set argnum val => veoArgsSet_ fits slots argnum val
  | .setStack intent argnum buff len => veoArgsSetStack fits slots intent argnum buff len
  | .clear => .ok (0, [])

/-- A sequence of calls, with what they return. -/
def applySetters (fits : Nat → Bool) : ArgSlots → List Setter → Outcome Raised (List Int × ArgSlots)
  | slots, [] => .ok ([], slots)
  | slots, op :: ops =>
      (op.apply fits slots).bind fun r => (applySetters fits r.2 ops).bind fun rs => .ok (r.1 :: rs.1, rs.2)

/-- The arguments that the loops of `getStackImage`, `getRegVal` and `copyout` find; in an empty slot they follow a null
pointer. -/
def ArgSlots.load (slots : ArgSlots) : Outcome Raised (List Arg) :=
  if slots.all Option.isSome then .ok slots.reduceOption else .undefined

/-- `Context::callAsync` with the vector, up to the page check. -/
def ArgSlots.callAsync (mem : Mem) (alive : Bool) (veSp addr : Word) (slots : ArgSlots) :
    Outcome Raised (Except SetupFailure (Option StackImage)) :=
  if addr = 0 ∨ alive = false then .ok (.ok none)
  else slots.load.bind fun args => .ok (Aveo.callAsync mem alive veSp addr args)

/-! ### The arguments as a map -/

/-- The number of arguments and their values. -/
structure ArgMap where
  count : Nat
  value : Nat → Option Arg

namespace ArgMap

def empty : ArgMap := { count := 0, value := fun _ => none }

def put (m : ArgMap) (i : Nat) (arg : Arg) : ArgMap :=
  { count := max m.count (i + 1), value := Function.update m.value i (some arg) }

theorem put_value (m : ArgMap) (i : Nat) (arg : Arg) (j : Nat) :
    (m.put i arg).value j = if j = i then some arg else m.value j :=
  Function.update_apply m.value i (some arg) j

/-- What a call is for. -/
def apply (m : ArgMap) : Setter → ArgMap
  | .set argnum val => m.put argnum.toNat val.arg
  | .setStack intent argnum buff len => m.put argnum.toNat (.onStack buff len intent)
  | .clear => empty

def applyAll (ops : List Setter) : ArgMap := ops.foldl apply empty

/-- A vector holds the arguments of a map. -/
structure Holds (m : ArgMap) (slots : ArgSlots) : Prop where
  count : slots.length = m.count
  value : ∀ i, slots.getD i none = m.value i

end ArgMap

/-- The argument number is not negative and its successor is an `int`, and there is memory for the vector. -/
def Setter.Fits (fits : Nat → Bool) : Setter → Prop
  | .set argnum _ | .setStack _ argnum _ _ => argnum.toNat < 2 ^ 31 - 1 ∧ fits (argnum.toNat + 1) = true
  | .clear => True

namespace ArgSlots

variable {fits : Nat → Bool} {slots : ArgSlots} {argnum : BitVec 32} {arg : Arg}

/-- A negative `int`, converted. -/
theorem le_toNat_signExtend {v : BitVec 32} (h : 2 ^ 31 ≤ v.toNat) : 2 ^ 64 - 2 ^ 31 ≤ (v.signExtend 64).toNat := by
  have hmsb : v.msb = true := by
    rw [BitVec.msb_eq_true_iff_two_mul_ge]
    omega
  rw [BitVec.toNat_signExtend, hmsb, BitVec.toNat_setWidth]
  simp only [if_true]
  omega

/-- The vector that `store` leaves: longer if need be, with one slot set. -/
def stored (slots : ArgSlots) (i : Nat) (arg : Arg) : ArgSlots :=
  (slots ++ List.replicate (i + 1 - slots.length) none).set i (some arg)

theorem store_eq (hlt : argnum.toNat < 2 ^ 31 - 1) (hfits : fits (argnum.toNat + 1) = true) :
    slots.store fits argnum arg = .ok (slots.stored argnum.toNat arg) := by
  have hmax : argnum ≠ intMax := by
    rintro rfl
    exact absurd hlt (by decide)
  have hindex : (argnum.signExtend 64).toNat = argnum.toNat := toNat_signExtend_of_lt (by omega)
  have hsucc : (argnum + 1).toNat = argnum.toNat + 1 := by
    rw [BitVec.toNat_add]
    exact Nat.mod_eq_of_lt (by simp; omega)
  have hsize : ((argnum + 1).signExtend 64).toNat = argnum.toNat + 1 := by
    rw [toNat_signExtend_of_lt (by omega), hsucc]
  simp only [store, if_neg hmax, hsize, hindex]
  by_cases hlen : slots.length < argnum.toNat + 1
  · have hvec : ¬ vectorMaxSize < argnum.toNat + 1 := by
      rw [vectorMaxSize]
      omega
    rw [if_pos hlen, resize, if_neg hvec, if_neg (by simp [hfits]), List.take_of_length_le (by omega), Outcome.bind_ok,
      if_pos (by simp; omega), stored]
  · rw [if_neg hlen, Outcome.bind_ok, if_pos (by omega), stored, show argnum.toNat + 1 - slots.length = 0 by omega]
    simp

/-- A negative argument number does not return: -1 is outside the vector, and others ask for too large a one. -/
theorem store_of_negative (h : 2 ^ 31 ≤ argnum.toNat) (hlen : slots.length ≤ vectorMaxSize) :
    slots.store fits argnum arg = if argnum = -1 then .undefined else .raise .lengthError := by
  have hlt := argnum.isLt
  have hmax : argnum ≠ intMax := by
    rintro rfl
    exact absurd h (by decide)
  rw [vectorMaxSize] at hlen
  have hindex := le_toNat_signExtend h
  simp only [store, if_neg hmax]
  by_cases hne : argnum = -1
  · subst hne
    rw [if_neg (by simp), Outcome.bind_ok, if_neg (by omega), if_pos rfl]
  · have hsucc : (argnum + 1).toNat = argnum.toNat + 1 := by
      have hlast : argnum.toNat ≠ 2 ^ 32 - 1 := fun heq => hne (BitVec.eq_of_toNat_eq (heq.trans (by decide)))
      rw [BitVec.toNat_add]
      exact Nat.mod_eq_of_lt (by simp; omega)
    have hsize := le_toNat_signExtend (v := argnum + 1) (by omega)
    rw [if_pos (by omega), resize, if_pos (by rw [vectorMaxSize]; omega), if_neg hne]
    rfl

theorem length_stored (i : Nat) : (slots.stored i arg).length = max slots.length (i + 1) := by
  simp only [stored, List.length_set, List.length_append, List.length_replicate]
  omega

theorem getD_stored (i j : Nat) : (slots.stored i arg).getD j none = if j = i then some arg else slots.getD j none := by
  simp only [stored, List.getD_eq_getElem?_getD, List.getElem?_set, List.length_append, List.length_replicate]
  by_cases heq : i = j
  · rw [if_pos heq, if_pos (by omega), if_pos heq.symm, Option.getD_some]
  · rw [if_neg heq, if_neg (Ne.symm heq)]
    by_cases hj : j < slots.length
    · rw [List.getElem?_append_left hj]
    · rw [List.getElem?_append_right (by omega), List.getElem?_eq_none (l := slots) (by omega)]
      by_cases hj' : j - slots.length < i + 1 - slots.length
      · rw [List.getElem?_replicate, if_pos hj']
        rfl
      · rw [List.getElem?_replicate, if_neg hj']

theorem holds_stored {m : ArgMap} (h : m.Holds slots) (i : Nat) : (m.put i arg).Holds (slots.stored i arg) := by
  refine ⟨by rw [length_stored, h.count]; rfl, fun j => ?_⟩
  rw [getD_stored, h.value, ArgMap.put_value]

end ArgSlots

namespace Setter

variable {fits : Nat → Bool} {slots : ArgSlots} {m : ArgMap}

/-- A call with an argument number in range does to the vector what it is for. -/
theorem apply_holds (op : Setter) (hfits : op.Fits fits) (h : m.Holds slots) :
    ∃ slots', op.apply fits slots = .ok (0, slots') ∧ (m.apply op).Holds slots' := by
  cases op with
  | set argnum val =>
    refine ⟨_, ?_, ArgSlots.holds_stored h argnum.toNat⟩
    rw [apply, veoArgsSet_, ArgSlots.set_, ArgSlots.store_eq hfits.1 hfits.2, ArgSlots.guarded]
  | setStack intent argnum buff len =>
    refine ⟨_, ?_, ArgSlots.holds_stored h argnum.toNat⟩
    rw [apply, veoArgsSetStack, ArgSlots.setOnStack, ArgSlots.store_eq hfits.1 hfits.2, ArgSlots.guarded]
  | clear => exact ⟨[], rfl, rfl, fun _ => rfl⟩

theorem applySetters_holds (ops : List Setter) : ∀ {slots : ArgSlots} {m : ArgMap}, (∀ op ∈ ops, op.Fits fits) → m.Holds slots →
    ∃ slots', applySetters fits slots ops = .ok (List.replicate ops.length 0, slots') ∧ (ops.foldl ArgMap.apply m).Holds slots' := by
  induction ops with
  | nil => exact fun _ h => ⟨_, rfl, h⟩
  | cons op ops ih =>
    intro slots m hfits h
    obtain ⟨slots₁, hop, h₁⟩ := op.apply_holds (hfits op List.mem_cons_self) h
    obtain ⟨slots₂, hops, h₂⟩ := @ih slots₁ (m.apply op) (fun op' hmem => hfits op' (List.mem_cons_of_mem _ hmem)) h₁
    refine ⟨slots₂, ?_, h₂⟩
    rw [applySetters, hop, Outcome.bind_ok, hops]
    rfl

end Setter

/-! ### The following call -/

theorem ArgMap.Holds.all_isSome {m : ArgMap} {slots : ArgSlots} (h : m.Holds slots) :
    slots.all Option.isSome = true ↔ ∀ i < m.count, (m.value i).isSome = true := by
  rw [List.all_eq_true]
  constructor
  · intro hall i hi
    rw [← h.count] at hi
    rw [← h.value, List.getD_eq_getElem?_getD, List.getElem?_eq_getElem hi]
    exact hall _ (List.getElem_mem hi)
  · intro hall slot hslot
    obtain ⟨i, hi, rfl⟩ := List.getElem_of_mem hslot
    have hset := hall i (h.count ▸ hi)
    rwa [← h.value, List.getD_eq_getElem?_getD, List.getElem?_eq_getElem hi] at hset

theorem ArgMap.Holds.callAsync {m : ArgMap} {slots : ArgSlots} (h : m.Holds slots) (mem : Mem) (alive : Bool) (veSp addr : Word) :
    (∃ r, slots.callAsync mem alive veSp addr = .ok r) ↔
      addr = 0 ∨ alive = false ∨ ∀ i < m.count, (m.value i).isSome = true := by
  rw [← h.all_isSome, ← or_assoc, ArgSlots.callAsync]
  by_cases hdead : addr = 0 ∨ alive = false
  · rw [if_pos hdead]
    exact ⟨fun _ => .inl hdead, fun _ => ⟨_, rfl⟩⟩
  · rw [if_neg hdead, or_iff_right hdead, ArgSlots.load]
    split
    · rename_i hall
      exact ⟨fun _ => hall, fun _ => ⟨_, rfl⟩⟩
    · rename_i hnot
      exact ⟨nofun, fun hall => absurd hall hnot⟩

/-- Every sequence of calls whose argument numbers are neither negative nor the largest `int`, and for which there is
memory, returns 0 each time and leaves the arguments that were set since they were last cleared. A call with them finds
every slot set, or is refused, exactly if there is no gap in their numbers or it is refused anyway. -/
theorem arg_setters_total (fits : Nat → Bool) (ops : List Setter) (hops : ∀ op ∈ ops, op.Fits fits) :
    ∃ slots, applySetters fits [] ops = .ok (List.replicate ops.length 0, slots) ∧ (ArgMap.applyAll ops).Holds slots ∧
      ∀ mem alive veSp addr, (∃ r, slots.callAsync mem alive veSp addr = .ok r) ↔
        addr = 0 ∨ alive = false ∨ ∀ i < (ArgMap.applyAll ops).count, ((ArgMap.applyAll ops).value i).isSome = true := by
  obtain ⟨slots, hrun, hholds⟩ := @Setter.applySetters_holds fits ops [] .empty hops ⟨rfl, fun _ => rfl⟩
  exact ⟨slots, hrun, hholds, hholds.callAsync⟩

/-- Argument 1, then argument 0, then argument 1 again. -/
theorem arg_setters_total_out_of_order :
    ∃ slots, applySetters (fun _ => true) []
        [.set 1 (.int .int64 5), .setStack .output 0 0x1000 16, .set 1 (.int .int32 7)] = .ok ([0, 0, 0], slots) ∧
      ∃ r, slots.callAsync (fun _ => 0) true 0x600000100000 0x2000 = .ok r := by
  have hops : ∀ op ∈ [Setter.set 1 (.int .int64 5), .setStack .output 0 0x1000 16, .set 1 (.int .int32 7)],
      op.Fits fun _ => true := by
    intro op hop
    simp only [List.mem_cons, List.not_mem_nil, or_false] at hop
    rcases hop with rfl | rfl | rfl <;> exact ⟨by decide, rfl⟩
  obtain ⟨slots, hrun, -, hcall⟩ := arg_setters_total (fun _ => true) _ hops
  refine ⟨slots, hrun, (hcall _ _ _ _).mpr (.inr (.inr ?_))⟩
  decide

/-- Argument number -1 writes outside the vector, -2 throws an exception that is not caught, and a call after argument 1
alone was set follows a null pointer. -/
theorem arg_setters_fail :
    veoArgsSet_ (fun _ => true) [] (-1) (.int .int64 5) = .undefined ∧
      veoArgsSet_ (fun _ => true) [] (-2) (.int .int64 5) = .raise .lengthError ∧
      applySetters (fun _ => true) [] [.set 1 (.int .int64 5)] = .ok ([0], [none, some (.int .int64 5)]) ∧
      ArgSlots.callAsync (fun _ => 0) true 0x600000100000 0x2000 [none, some (.int .int64 5)] = .undefined := by
  refine ⟨?_, ?_, ?_, rfl⟩
  · rw [veoArgsSet_, ArgSlots.set_, ArgSlots.store_of_negative (by decide) (by decide)]
    rfl
  · rw [veoArgsSet_, ArgSlots.set_, ArgSlots.store_of_negative (by decide) (by decide)]
    rfl
  · rw [applySetters, Setter.apply, veoArgsSet_, ArgSlots.set_, ArgSlots.store_eq (by decide) rfl]
    rfl

end Aveo

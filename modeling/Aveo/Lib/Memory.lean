import Aveo.Lib.Bytes

/-!
# Byte-addressed memory

A memory with 64-bit addresses that wrap. A range is given by its first address and its length, and an address is
in it if its distance from the first address is below the length.
-/

namespace Aveo.Lib

abbrev Mem := BitVec 64 → Byte

/-- An address lies in a range. -/
def InRange (a : BitVec 64) (len : Nat) (x : BitVec 64) : Prop := (x - a).toNat < len

instance (a : BitVec 64) (len : Nat) (x : BitVec 64) : Decidable (InRange a len x) := inferInstanceAs (Decidable (_ < _))

/-- Two ranges have no address in common. -/
def Apart (a : BitVec 64) (len : Nat) (b : BitVec 64) (len' : Nat) : Prop := ∀ x, InRange a len x → ¬ InRange b len' x

theorem Apart.symm {a b : BitVec 64} {len len' : Nat} (h : Apart a len b len') : Apart b len' a len :=
  fun x hx hx' => h x hx' hx

/-- Ranges that do not wrap and follow one another. -/
theorem apart_of_le {a b : BitVec 64} {len len' : Nat} (h : a.toNat + len ≤ b.toNat) (h' : b.toNat + len' ≤ 2 ^ 64) :
    Apart a len b len' := by
  intro x hx hx'
  rw [InRange, BitVec.toNat_sub] at hx hx'
  have := x.isLt
  omega

/-- A range and the one right after it. -/
theorem apart_add {a : BitVec 64} {k l : Nat} (h : k + l ≤ 2 ^ 64) : Apart a k (a + BitVec.ofNat 64 k) l := by
  intro x hx
  rw [InRange] at hx
  rw [InRange, ← BitVec.sub_sub, BitVec.toNat_sub, BitVec.toNat_ofNat]
  have := (x - a).isLt
  omega

theorem toNat_add_sub (a : BitVec 64) (i : Nat) : (a + BitVec.ofNat 64 i - a).toNat = i % 2 ^ 64 := by
  rw [BitVec.add_comm, BitVec.add_sub_cancel, BitVec.toNat_ofNat]

theorem inRange_add {a : BitVec 64} {len i : Nat} (h : i < len) : InRange a len (a + BitVec.ofNat 64 i) := by
  rw [InRange, toNat_add_sub]
  exact Nat.lt_of_le_of_lt (Nat.mod_le _ _) h

namespace Mem

/-- The bytes from an address on. -/
def read (m : Mem) (a : BitVec 64) (len : Nat) : List Byte := (List.range len).map fun i => m (a + BitVec.ofNat 64 i)

/-- The memory with bytes stored from an address on. -/
def write (m : Mem) (a : BitVec 64) (bytes : List Byte) : Mem := fun x => (bytes[(x - a).toNat]?).getD (m x)

variable {m m' : Mem} {a b x : BitVec 64} {len : Nat} {bytes : List Byte}

@[simp] theorem length_read (m : Mem) (a : BitVec 64) (len : Nat) : (m.read a len).length = len := by
  simp [read]

theorem getElem?_read {i : Nat} (h : i < len) : (m.read a len)[i]? = some (m (a + BitVec.ofNat 64 i)) := by
  simp [read, h]

theorem read_congr (h : ∀ x, InRange a len x → m x = m' x) : m.read a len = m'.read a len :=
  List.map_congr_left fun _ hi => h _ (inRange_add (List.mem_range.mp hi))

theorem write_of_not_inRange (h : ¬ InRange a bytes.length x) : m.write a bytes x = m x := by
  rw [write, List.getElem?_eq_none (Nat.le_of_not_lt h), Option.getD_none]

theorem read_write_self (h : bytes.length ≤ 2 ^ 64) : (m.write a bytes).read a bytes.length = bytes := by
  apply List.ext_getElem?
  intro i
  by_cases hi : i < bytes.length
  · rw [getElem?_read hi, write, toNat_add_sub, Nat.mod_eq_of_lt (by omega), List.getElem?_eq_getElem hi, Option.getD_some]
  · rw [List.getElem?_eq_none (by rw [length_read]; omega), List.getElem?_eq_none (by omega)]

theorem read_append (m : Mem) (a : BitVec 64) (k l : Nat) :
    m.read a (k + l) = m.read a k ++ m.read (a + BitVec.ofNat 64 k) l := by
  rw [read, List.range_add, List.map_append, List.map_map, read, read]
  congr 1
  refine List.map_congr_left fun i _ => ?_
  rw [Function.comp, BitVec.ofNat_add, BitVec.add_assoc]

/-- A part of what is read. -/
theorem segment_read {off k : Nat} (h : off + k ≤ len) : segment (m.read a len) off k = m.read (a + BitVec.ofNat 64 off) k := by
  obtain ⟨r, rfl⟩ := Nat.exists_eq_add_of_le h
  have hright := @segment_append_right _ (m.read a off) (m.read (a + BitVec.ofNat 64 off) (k + r)) 0 k
  rw [length_read, Nat.add_zero] at hright
  rw [Nat.add_assoc, read_append, hright, read_append, segment_append_left (by rw [length_read]; omega)]
  have hall := @segment_zero_length _ (m.read (a + BitVec.ofNat 64 off) k)
  rwa [length_read] at hall

/-- Bytes stored one part after the other. -/
theorem write_append {bytes' : List Byte} (h : (bytes ++ bytes').length ≤ 2 ^ 64) :
    m.write a (bytes ++ bytes') = (m.write a bytes).write (a + BitVec.ofNat 64 bytes.length) bytes' := by
  rw [List.length_append] at h
  funext x
  by_cases hx : (x - a).toNat < bytes.length
  · rw [write_of_not_inRange (apart_add h x hx), write, write, List.getElem?_append_left hx]
  · by_cases hfull : bytes.length = 2 ^ 64
    · exact absurd (x - a).isLt (by omega)
    have hdist : (x - (a + BitVec.ofNat 64 bytes.length)).toNat = (x - a).toNat - bytes.length := by
      rw [← BitVec.sub_sub, BitVec.toNat_sub, BitVec.toNat_ofNat]
      have := (x - a).isLt
      omega
    rw [write, write, List.getElem?_append_right (by omega), hdist, write, List.getElem?_eq_none (l := bytes) (by omega),
      Option.getD_none]

theorem write_comm {bytes' : List Byte} (h : Apart a bytes.length b bytes'.length) :
    (m.write a bytes).write b bytes' = (m.write b bytes').write a bytes := by
  funext x
  by_cases hx : InRange a bytes.length x
  · rw [write_of_not_inRange (h x hx), write, write, List.getElem?_eq_getElem hx, Option.getD_some, Option.getD_some]
  · have hsame : m.write a bytes x = m x := write_of_not_inRange hx
    rw [write_of_not_inRange hx]
    show (bytes'[(x - b).toNat]?).getD (m.write a bytes x) = (bytes'[(x - b).toNat]?).getD (m x)
    rw [hsame]

/-- Bytes stored with the last part first. -/
theorem write_append_rev {bytes' : List Byte} (h : (bytes ++ bytes').length ≤ 2 ^ 64) :
    m.write a (bytes ++ bytes') = (m.write (a + BitVec.ofNat 64 bytes.length) bytes').write a bytes := by
  rw [write_append h, write_comm (apart_add (by rwa [List.length_append] at h))]

/-- A part of what was stored. -/
theorem read_write_segment {off k : Nat} (hlen : bytes.length ≤ 2 ^ 64) (h : off + k ≤ bytes.length) :
    (m.write a bytes).read (a + BitVec.ofNat 64 off) k = segment bytes off k := by
  rw [← segment_read h, read_write_self hlen]

/-- Where a range was stored, a memory that has its bytes agrees with the store. -/
theorem eq_write_of_read (h : m'.read a bytes.length = bytes) (hx : InRange a bytes.length x) : m' x = m.write a bytes x := by
  have hbyte := congrArg (·[(x - a).toNat]?) h
  simp only [getElem?_read (show (x - a).toNat < bytes.length from hx), BitVec.ofNat_toNat, BitVec.setWidth_eq] at hbyte
  rw [write, ← hbyte, Option.getD_some, BitVec.add_comm, BitVec.sub_add_cancel]

theorem write_nil : m.write a [] = m := by
  funext x
  rfl

end Mem

end Aveo.Lib

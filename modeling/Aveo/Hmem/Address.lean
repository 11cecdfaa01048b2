import Mathlib.Data.Nat.Bits
import Aveo.Queue.Command

/-!
# Tagged addresses

The macros of `veo_hmem_macros.h` and the functions over them. An address of VE memory carries a flag in bit 63 and the
identifier of its process in the bits 59 to 62.
-/

namespace Aveo

/-- `VEO_MAX_HMEM_PROCS`. -/
def maxHmemProcs : Nat := 16

/-- `VEADDR_MBITS`, `PIDENT_MBITS` and `VEIDENT_MBITS`. -/
def veaddrMbits : Word := 0x8000000000000000
def pidentMbits : Word := 0x7800000000000000
def veidentMbits : Word := veaddrMbits ||| pidentMbits

/-- `SET_VE_FLAG`. -/
def setVeFlag (addr : Word) : Word := veaddrMbits ||| addr

/-- `IS_VE`. -/
def isVe (addr : Word) : Word := veaddrMbits &&& addr

/-- `VIRT_ADDR_VE`. -/
def virtAddrVe (addr : Word) : Word := ~~~veidentMbits &&& addr

/-- `SET_PROC_IDENT`. -/
def setProcIdent (addr : Word) (procIdent : Nat) : Word := addr ||| (BitVec.ofNat 64 procIdent <<< 59)

/-- `GET_PROC_IDENT`. -/
def getProcIdent (addr : Word) : Nat := ((addr &&& pidentMbits) >>> 59).toNat

/-- `veo_is_ve_addr`. -/
def veoIsVeAddr (addr : Word) : Int := if isVe addr ≠ 0 then 1 else 0

/-- `veo_get_hmem_addr`. -/
def veoGetHmemAddr (addr : Word) : Word := if veoIsVeAddr addr ≠ 0 then virtAddrVe addr else addr

/-- `veo_get_proc_identifier_from_hmem`. -/
def veoGetProcIdentifierFromHmem (addr : Word) : Int := if isVe addr = 0 then -1 else getProcIdent addr

/-- An address of VE memory with its tags. -/
def hmemAddr (vemva : Word) (procIdent : Nat) : Word := setProcIdent (setVeFlag vemva) procIdent

/-- The flag and the identifier, without an address. -/
def hmemTag (procIdent : Nat) : Word := veaddrMbits ||| (BitVec.ofNat 64 procIdent <<< 59)

theorem hmemAddr_eq (vemva : Word) (i : Nat) : hmemAddr vemva i = hmemTag i ||| vemva := by
  rw [hmemAddr, setProcIdent, setVeFlag, hmemTag, BitVec.or_assoc, BitVec.or_comm vemva, ← BitVec.or_assoc]

section

variable {vemva : Word} (hv : vemva.toNat < 2 ^ 59)

include hv

/-- A VE address has no bit of the tags. -/
theorem and_virt_of_lt : vemva &&& ~~~veidentMbits = vemva := by
  have hmask : (~~~veidentMbits).toNat = 2 ^ 59 - 1 := by decide
  apply BitVec.eq_of_toNat_eq
  rw [BitVec.toNat_and, hmask, Nat.and_two_pow_sub_one_eq_mod, Nat.mod_eq_of_lt hv]

theorem and_tag_of_lt {m : Word} (hm : ~~~veidentMbits &&& m = 0#64) : vemva &&& m = 0#64 := by
  rw [← and_virt_of_lt hv, BitVec.and_assoc, hm, BitVec.and_zero]

/-- Arithmetic below bit 59 leaves the tags alone. -/
theorem hmemAddr_add {i : Nat} (hi : i < maxHmemProcs) {k : Word} (hk : (vemva + k).toNat < 2 ^ 59) :
    hmemAddr vemva i + k = hmemAddr (vemva + k) i := by
  have htag : ~~~veidentMbits &&& hmemTag i = 0#64 := by
    revert i
    decide
  have hor : ∀ {v : Word}, v.toNat < 2 ^ 59 → hmemTag i ||| v = hmemTag i + v := by
    intro v hlt
    refine (BitVec.add_eq_or_of_and_eq_zero _ _ ?_).symm
    rw [BitVec.and_comm, and_tag_of_lt hlt htag]
  rw [hmemAddr_eq, hmemAddr_eq, hor hv, hor hk, BitVec.add_assoc]

theorem isVe_hmemAddr (i : Nat) (hi : i < maxHmemProcs) : isVe (hmemAddr vemva i) = veaddrMbits := by
  have htag : veaddrMbits &&& hmemTag i = veaddrMbits := by
    revert i
    decide
  rw [isVe, hmemAddr_eq, BitVec.and_or_distrib_left, htag, BitVec.and_comm, and_tag_of_lt hv (by decide), BitVec.or_zero]

theorem getProcIdent_hmemAddr (i : Nat) (hi : i < maxHmemProcs) : getProcIdent (hmemAddr vemva i) = i := by
  have htag : ((hmemTag i &&& pidentMbits) >>> 59).toNat = i := by
    revert i
    decide
  rw [getProcIdent, hmemAddr_eq, BitVec.and_comm, BitVec.and_or_distrib_left, BitVec.and_comm _ vemva,
    and_tag_of_lt hv (by decide), BitVec.or_zero, BitVec.and_comm, htag]

theorem veoIsVeAddr_hmemAddr (i : Nat) (hi : i < maxHmemProcs) : veoIsVeAddr (hmemAddr vemva i) = 1 := by
  rw [veoIsVeAddr, isVe_hmemAddr hv i hi]
  rfl

theorem virtAddrVe_hmemAddr (i : Nat) (hi : i < maxHmemProcs) : virtAddrVe (hmemAddr vemva i) = vemva := by
  have htag : ~~~veidentMbits &&& hmemTag i = 0#64 := by
    revert i
    decide
  rw [virtAddrVe, hmemAddr_eq, BitVec.and_or_distrib_left, htag, BitVec.and_comm, and_virt_of_lt hv, BitVec.zero_or]

theorem veoGetHmemAddr_hmemAddr (i : Nat) (hi : i < maxHmemProcs) : veoGetHmemAddr (hmemAddr vemva i) = vemva := by
  rw [veoGetHmemAddr, veoIsVeAddr_hmemAddr hv i hi, if_pos (by decide), virtAddrVe_hmemAddr hv i hi]

theorem veoGetProcIdentifierFromHmem_hmemAddr (i : Nat) (hi : i < maxHmemProcs) :
    veoGetProcIdentifierFromHmem (hmemAddr vemva i) = i := by
  rw [veoGetProcIdentifierFromHmem, isVe_hmemAddr hv i hi, if_neg (by decide), getProcIdent_hmemAddr hv i hi]

end

end Aveo

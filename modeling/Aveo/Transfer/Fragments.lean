import Aveo.Lib.Decimal
import Aveo.Queue.Command

/-!
# Cutting a transfer into fragments

`asyncWriteMem` and `asyncReadMem` choose the size of a fragment from the capacity of a URPC command, two environment
variables and the size of the transfer, and send fragments until nothing is left. `ALIGN8B` is a macro of URPC, which
is not part of the repository; it is a parameter here, and rounds up to a multiple of 8.
-/

namespace Aveo

/-- `atoi`, which is `strtol` converted to an `int`. -/
def atoi (s : String) : BitVec 32 := BitVec.ofInt 32 (Lib.strtol s.toList).1

/-- `PART_SENDFRAG`. -/
def partSendfrag : Word := 4 * 1024 * 1024

/-- The fragment size before it is adapted to the transfer: from VEO_SENDFRAG or VEO_RECVFRAG if that is set. -/
def initialFrag (maxSend : Word) (frag : Option String) : Word :=
  match frag with
  | some s => (atoi s).signExtend 64
  | none => if maxSend < 2 * partSendfrag then 1 * 1024 * 1024 else partSendfrag

/-- The size above which a transfer is cut more finely: from VEO_SENDCUT or VEO_RECVCUT if that is set. -/
def cutSize (cut : Option String) : Word :=
  match cut with
  | some s => (atoi s).signExtend 64
  | none => 2 * 1024 * 1024

section

variable (align8b : Word → Word)

/-- The fragment size of a transfer: `div₁` and `div₂` are the numbers of parts of the two largest kinds. -/
def fragSize (div₁ div₂ maxSend : Word) (frag cut : Option String) (size : Word) : Word :=
  if size < 5 * initialFrag maxSend frag then
    if cutSize cut < size then align8b (size / div₁)
    else if cutSize cut / 2 < size then align8b (size / div₂)
    else if cutSize cut / 3 < size then align8b (size / 2)
    else align8b size
  else initialFrag maxSend frag

/-- The fragment size in `asyncWriteMem`. -/
def writeFrag (maxSend : Word) (sendfrag sendcut : Option String) (size : Word) : Word :=
  fragSize align8b 4 3 maxSend sendfrag sendcut size

/-- The fragment size in `asyncReadMem`. -/
def readFrag (maxSend : Word) (recvfrag recvcut : Option String) (size : Word) : Word :=
  fragSize align8b 5 4 maxSend recvfrag recvcut size

end

/-- Without a setting the fragment size is 1 MiB if a command has room for less than 8 MiB, else 4 MiB. -/
theorem initialFrag_unset (maxSend : Word) :
    maxSend.toNat < 8388608 ∧ (initialFrag maxSend none).toNat = 1048576 ∨
      8388608 ≤ maxSend.toNat ∧ (initialFrag maxSend none).toNat = 4194304 := by
  rw [initialFrag]
  split
  · rename_i hlt
    exact .inl ⟨hlt, rfl⟩
  · rename_i hnot
    exact .inr ⟨BitVec.not_lt.mp hnot, rfl⟩

/-- The loop over a rest: the sizes of the fragments if it ends within `fuel` rounds. -/
def fragmentLoop (maxfrag : Word) : Nat → Word → Option (List Word)
  | 0, rsize => if 0 < rsize then none else some []
  | fuel + 1, rsize =>
      if 0 < rsize then
        let psz := if rsize ≤ maxfrag then rsize else maxfrag
        (fragmentLoop maxfrag fuel (rsize - psz)).map (psz :: ·)
      else some []

/-- The loop ends, and every fragment has a byte. -/
def FragmentsEnd (maxfrag size : Word) : Prop :=
  ∃ fuel frags, fragmentLoop maxfrag fuel size = some frags ∧ ∀ psz ∈ frags, 1 ≤ psz.toNat

theorem fragmentLoop_zero {rsize : Word} (h : 0 < rsize) (fuel : Nat) : fragmentLoop 0 fuel rsize = none := by
  induction fuel with
  | zero => rw [fragmentLoop, if_pos h]
  | succ fuel ih =>
    have hle : ¬ rsize ≤ 0 := BitVec.not_le.mpr h
    have hsub : rsize - 0 = rsize := BitVec.sub_zero rsize
    simp only [fragmentLoop, if_pos h, if_neg hle, hsub, ih, Option.map_none]

/-- With a positive fragment size the rest shrinks. -/
theorem fragmentsEnd_of_pos {maxfrag : Word} (h : 0 < maxfrag.toNat) (size : Word) : FragmentsEnd maxfrag size := by
  induction hn : size.toNat using Nat.strongRecOn generalizing size with
  | _ n ih =>
    by_cases hsize : 0 < size
    · have hpos : 0 < size.toNat := hsize
      generalize hpsz : (if size ≤ maxfrag then size else maxfrag) = psz
      have hbound : 1 ≤ psz.toNat ∧ psz.toNat ≤ size.toNat := by
        rw [← hpsz]
        split
        · exact ⟨hpos, Nat.le_refl _⟩
        · rename_i hle
          have hlt : maxfrag.toNat < size.toNat := BitVec.not_le.mp hle
          omega
      have hsub : (size - psz).toNat = size.toNat - psz.toNat := BitVec.toNat_sub_of_le hbound.2
      obtain ⟨fuel, frags, hloop, hfrags⟩ := ih (size.toNat - psz.toNat) (by omega) (size - psz) hsub
      refine ⟨fuel + 1, psz :: frags, ?_, ?_⟩
      · simp only [fragmentLoop, if_pos hsize, hpsz, hloop, Option.map_some]
      · intro x hx
        rcases List.mem_cons.mp hx with rfl | hx
        · exact hbound.1
        · exact hfrags x hx
    · exact ⟨0, [], if_neg hsize, fun x hx => by cases hx⟩

/-- No fragment is longer than the fragment size. -/
theorem fragmentLoop_le {maxfrag : Word} {fuel : Nat} {rsize : Word} {frags : List Word}
    (h : fragmentLoop maxfrag fuel rsize = some frags) : ∀ psz ∈ frags, psz.toNat ≤ maxfrag.toNat := by
  induction fuel generalizing rsize frags with
  | zero =>
    rw [fragmentLoop] at h
    split at h
    · cases h
    · cases h
      intro psz hpsz
      cases hpsz
  | succ fuel ih =>
    rw [fragmentLoop] at h
    split at h
    · obtain ⟨rest, hrest, rfl⟩ := Option.map_eq_some_iff.mp h
      intro psz hpsz
      rcases List.mem_cons.mp hpsz with rfl | hmem
      · split
        · rename_i hle
          exact hle
        · exact Nat.le_refl _
      · exact ih hrest psz hmem
    · cases h
      intro psz hpsz
      cases hpsz

theorem fragmentsEnd_iff {maxfrag size : Word} (hsize : 0 < size) : FragmentsEnd maxfrag size ↔ 0 < maxfrag.toNat := by
  constructor
  · rintro ⟨fuel, frags, hloop, -⟩
    by_contra hnot
    have hzero : maxfrag = 0 := BitVec.eq_of_toNat_eq (Nat.eq_zero_of_not_pos hnot)
    rw [hzero, fragmentLoop_zero hsize] at hloop
    cases hloop
  · exact fun h => fragmentsEnd_of_pos h size

/-- What the settings have to leave of a transfer of `size` bytes: the part it is divided into has at least a byte. -/
structure Fits (div₁ div₂ frag cut size : Word) : Prop where
  frag_pos : 0 < frag
  large : size < 5 * frag → cut < size → div₁ ≤ size
  half : size < 5 * frag → size ≤ cut → cut / 2 < size → div₂ ≤ size
  third : size < 5 * frag → size ≤ cut / 2 → cut / 3 < size → 2 ≤ size

/-- Without settings no part is empty. -/
theorem fits_unset (maxSend : Word) {div₁ div₂ size : Word} (h₁ : div₁.toNat ≤ 2097152) (h₂ : div₂.toNat ≤ 1048576) :
    Fits div₁ div₂ (initialFrag maxSend none) (cutSize none) size where
  frag_pos := by
    show 0 < (initialFrag maxSend none).toNat
    rcases initialFrag_unset maxSend with ⟨-, hf⟩ | ⟨-, hf⟩ <;> omega
  large _ hlt := by
    have hcut : 2097152 < size.toNat := hlt
    show div₁.toNat ≤ size.toNat
    omega
  half _ _ hlt := by
    have hcut : 1048576 < size.toNat := hlt
    show div₂.toNat ≤ size.toNat
    omega
  third _ _ hlt := by
    have hcut : 699050 < size.toNat := hlt
    show 2 ≤ size.toNat
    omega

section

variable {align8b : Word → Word} (halign : ∀ x : Word, x.toNat + 7 < 2 ^ 64 → (align8b x).toNat = (x.toNat + 7) / 8 * 8)

include halign

theorem align8b_pos {x : Word} (h : x.toNat + 7 < 2 ^ 64) : 0 < (align8b x).toNat ↔ 0 < x.toNat := by
  rw [halign x h]
  omega

/-- A part of the transfer is rounded up to something exactly if it is not empty. -/
theorem align8b_div_pos {size div : Word} (hdiv : 2 ≤ div.toNat) : 0 < (align8b (size / div)).toNat ↔ div ≤ size := by
  have hlt := size.isLt
  have hpart : size.toNat / div.toNat ≤ size.toNat / 2 := Nat.div_le_div_left hdiv (by decide)
  rw [align8b_pos halign (by rw [BitVec.toNat_udiv]; omega), BitVec.toNat_udiv, BitVec.le_def]
  exact Nat.div_pos_iff.trans ⟨fun h => h.2, fun h => ⟨by omega, h⟩⟩

/-- The last kind of fragment is the whole transfer, which is too small there for the rounding to wrap around. -/
theorem align8b_rest_pos {size cut : Word} (hsize : 0 < size) (h : ¬ cut / 3 < size) :
    0 < (align8b size).toNat := by
  have hle : size.toNat ≤ cut.toNat / 3 := by
    have := BitVec.not_lt.mp h
    rwa [BitVec.le_def, BitVec.toNat_udiv] at this
  have hlt := cut.isLt
  exact (align8b_pos halign (by omega)).mpr hsize

theorem fragSize_pos_iff {div₁ div₂ : Word} (h₁ : 2 ≤ div₁.toNat) (h₂ : 2 ≤ div₂.toNat) (maxSend : Word)
    (frag cut : Option String) {size : Word} (hsize : 0 < size) :
    0 < (fragSize align8b div₁ div₂ maxSend frag cut size).toNat ↔
      Fits div₁ div₂ (initialFrag maxSend frag) (cutSize cut) size := by
  rw [fragSize]
  generalize initialFrag maxSend frag = f
  generalize cutSize cut = c
  have hhalf : c / 2 ≤ c := by
    rw [BitVec.le_def, BitVec.toNat_udiv]
    exact Nat.div_le_self _ _
  by_cases hsmall : size < 5 * f
  · have hf : 0 < f := by
      by_contra hnot
      have hzero : f = 0 := BitVec.eq_of_toNat_eq (Nat.eq_zero_of_not_pos hnot)
      rw [hzero] at hsmall
      exact absurd hsmall (Nat.not_lt_zero _)
    rw [if_pos hsmall]
    by_cases hlarge : c < size
    · rw [if_pos hlarge, align8b_div_pos halign h₁]
      exact ⟨fun h => ⟨hf, fun _ _ => h, fun _ hle => absurd hlarge (BitVec.not_lt.mpr hle),
        fun _ hle => absurd hlarge (BitVec.not_lt.mpr (BitVec.le_trans hle hhalf))⟩, fun h => h.large hsmall hlarge⟩
    have hle := BitVec.not_lt.mp hlarge
    rw [if_neg hlarge]
    by_cases hmid : c / 2 < size
    · rw [if_pos hmid, align8b_div_pos halign h₂]
      exact ⟨fun h => ⟨hf, fun _ hlt => absurd hlt hlarge, fun _ _ _ => h,
        fun _ hle => absurd hmid (BitVec.not_lt.mpr hle)⟩, fun h => h.half hsmall hle hmid⟩
    rw [if_neg hmid]
    by_cases hthird : c / 3 < size
    · rw [if_pos hthird, align8b_div_pos halign (by decide)]
      exact ⟨fun h => ⟨hf, fun _ hlt => absurd hlt hlarge, fun _ _ hlt => absurd hlt hmid, fun _ _ _ => h⟩,
        fun h => h.third hsmall (BitVec.not_lt.mp hmid) hthird⟩
    · rw [if_neg hthird]
      exact ⟨fun _ => ⟨hf, fun _ hlt => absurd hlt hlarge, fun _ _ hlt => absurd hlt hmid,
        fun _ _ hlt => absurd hlt hthird⟩, fun _ => align8b_rest_pos halign hsize hthird⟩
  · rw [if_neg hsmall]
    exact ⟨fun h => ⟨h, fun hlt => absurd hlt hsmall, fun hlt => absurd hlt hsmall, fun hlt => absurd hlt hsmall⟩,
      fun h => h.frag_pos⟩

/-- The loops of `asyncWriteMem` and `asyncReadMem` end with fragments of at least a byte exactly if the settings leave
something of the transfer in each part. -/
theorem fragmentation_ends_iff (maxSend : Word) (sendfrag sendcut recvfrag recvcut : Option String) {size : Word}
    (hsize : 0 < size) :
    (FragmentsEnd (writeFrag align8b maxSend sendfrag sendcut size) size ↔
      Fits 4 3 (initialFrag maxSend sendfrag) (cutSize sendcut) size) ∧
    (FragmentsEnd (readFrag align8b maxSend recvfrag recvcut size) size ↔
      Fits 5 4 (initialFrag maxSend recvfrag) (cutSize recvcut) size) :=
  ⟨(fragmentsEnd_iff hsize).trans (fragSize_pos_iff halign (by decide) (by decide) maxSend sendfrag sendcut hsize),
    (fragmentsEnd_iff hsize).trans (fragSize_pos_iff halign (by decide) (by decide) maxSend recvfrag recvcut hsize)⟩

/-- Rounding a part of the transfer up stays below any multiple of 8 that bounds the part. -/
theorem align8b_div_le {size div : Word} (hdiv : 2 ≤ div.toNat) {k : Nat} (h : size.toNat / div.toNat ≤ 8 * k) :
    (align8b (size / div)).toNat ≤ 8 * k := by
  have hlt := size.isLt
  have hpart : size.toNat / div.toNat ≤ size.toNat / 2 := Nat.div_le_div_left hdiv (by decide)
  rw [halign _ (by rw [BitVec.toNat_udiv]; omega), BitVec.toNat_udiv]
  omega

/-- Without settings the fragment size is at most a fourth of the largest transfer that is divided. -/
theorem fragSize_unset_le {div₁ div₂ : Word} (h₁ : 4 ≤ div₁.toNat) (h₂ : 3 ≤ div₂.toNat) (maxSend size : Word) {k : Nat}
    (hk : 5 * (initialFrag maxSend none).toNat = 4 * (8 * k)) :
    (fragSize align8b div₁ div₂ maxSend none none size).toNat ≤ 8 * k := by
  have hfrag := initialFrag_unset maxSend
  have hcut : (cutSize none).toNat = 2097152 := rfl
  rw [fragSize]
  generalize initialFrag maxSend none = f at hk hfrag ⊢
  have hfive : (5 * f).toNat = 5 * f.toNat := by
    rw [BitVec.toNat_mul]
    change 5 * f.toNat % 2 ^ 64 = _
    omega
  split
  · rename_i hsmall
    have hsize : size.toNat < 5 * f.toNat := hfive ▸ hsmall
    split
    · apply align8b_div_le halign (by omega)
      have hpart : size.toNat / div₁.toNat ≤ size.toNat / 4 := Nat.div_le_div_left h₁ (by decide)
      omega
    rename_i hlarge
    have hle : size.toNat ≤ 2097152 := BitVec.not_lt.mp hlarge
    split
    · apply align8b_div_le halign (by omega)
      have hpart : size.toNat / div₂.toNat ≤ size.toNat / 3 := Nat.div_le_div_left h₂ (by decide)
      omega
    rename_i hmid
    have hle : size.toNat ≤ 1048576 := BitVec.not_lt.mp hmid
    split
    · apply align8b_div_le halign (by decide)
      change size.toNat / 2 ≤ 8 * k
      omega
    rename_i hthird
    have hle : size.toNat ≤ 699050 := BitVec.not_lt.mp hthird
    rw [halign size (by omega)]
    omega
  · omega

/-- With a capacity of at least 1310736 bytes the largest fragment fits into a command beside the 16 bytes before it. -/
theorem fragSize_unset_fits {div₁ div₂ : Word} (h₁ : 4 ≤ div₁.toNat) (h₂ : 3 ≤ div₂.toNat) {maxSend : Word}
    (hcap : 1310736 ≤ maxSend.toNat) (size : Word) :
    (fragSize align8b div₁ div₂ maxSend none none size).toNat + 16 ≤ maxSend.toNat := by
  rcases initialFrag_unset maxSend with ⟨-, hf⟩ | ⟨hlarge, hf⟩
  · have hle := fragSize_unset_le halign h₁ h₂ maxSend size (k := 163840) (by rw [hf])
    omega
  · have hle := fragSize_unset_le halign h₁ h₂ maxSend size (k := 655360) (by rw [hf])
    omega

/-- The loop of a transfer without settings: `div₁` and `div₂` are small enough to leave a byte of each transfer they
divide, and large enough for the fragments to fit. -/
theorem fragments_unset {div₁ div₂ : Word} (h₁ : 4 ≤ div₁.toNat ∧ div₁.toNat ≤ 2097152)
    (h₂ : 3 ≤ div₂.toNat ∧ div₂.toNat ≤ 1048576) {maxSend : Word} (hcap : 1310736 ≤ maxSend.toNat) {size : Word}
    (hsize : 0 < size) :
    FragmentsEnd (fragSize align8b div₁ div₂ maxSend none none size) size ∧
      ∀ fuel frags, fragmentLoop (fragSize align8b div₁ div₂ maxSend none none size) fuel size = some frags →
        ∀ psz ∈ frags, psz.toNat + 16 ≤ maxSend.toNat := by
  constructor
  · apply fragmentsEnd_of_pos
    apply (fragSize_pos_iff halign (by omega) (by omega) maxSend none none hsize).mpr
    exact fits_unset maxSend h₁.2 h₂.2
  · intro fuel frags hloop psz hpsz
    have hle := fragmentLoop_le hloop psz hpsz
    have hfits := fragSize_unset_fits halign h₁.1 h₂.1 hcap size
    omega

/-- Without settings the loops of `asyncWriteMem` and `asyncReadMem` end, and each of their fragments fits into one URPC
command together with the two words before the buffer. -/
theorem fragments_fit_command {maxSend : Word} (hcap : 1310736 ≤ maxSend.toNat) {size : Word} (hsize : 0 < size) :
    (FragmentsEnd (writeFrag align8b maxSend none none size) size ∧
      ∀ fuel frags, fragmentLoop (writeFrag align8b maxSend none none size) fuel size = some frags →
        ∀ psz ∈ frags, psz.toNat + 16 ≤ maxSend.toNat) ∧
    (FragmentsEnd (readFrag align8b maxSend none none size) size ∧
      ∀ fuel frags, fragmentLoop (readFrag align8b maxSend none none size) fuel size = some frags →
        ∀ psz ∈ frags, psz.toNat + 16 ≤ maxSend.toNat) :=
  ⟨fragments_unset halign (by decide) (by decide) hcap hsize, fragments_unset halign (by decide) (by decide) hcap hsize⟩

end

/-- `ALIGN8B` as a division. -/
def align8bDiv (x : Word) : Word := (x + 7) / 8 * 8

theorem toNat_align8bDiv (x : Word) (h : x.toNat + 7 < 2 ^ 64) : (align8bDiv x).toNat = (x.toNat + 7) / 8 * 8 := by
  have hsum : (x + 7).toNat = x.toNat + 7 := by
    rw [BitVec.toNat_add]
    exact Nat.mod_eq_of_lt h
  have hmul : (x.toNat + 7) / 8 * 8 < 2 ^ 64 := Nat.lt_of_le_of_lt (Nat.div_mul_le_self _ _) h
  rw [align8bDiv, BitVec.toNat_mul, BitVec.toNat_udiv, hsum]
  exact Nat.mod_eq_of_lt hmul

theorem fragmentation_ends_small :
    FragmentsEnd (writeFrag align8bDiv 0x800000 none (some "100") 100) 100 ∧
    FragmentsEnd (readFrag align8bDiv 0x800000 (some " -8") none 100) 100 := by
  have h := fragmentation_ends_iff toNat_align8bDiv 0x800000 none (some "100") (some " -8") none
    (by decide : (0 : Word) < 100)
  refine ⟨h.1.mpr ⟨?_, ?_, ?_, ?_⟩, h.2.mpr ⟨?_, ?_, ?_, ?_⟩⟩ <;> decide +kernel

/-- The bound on the capacity is reached: a transfer of a byte less than 5 MiB has fragments of 1310720 bytes. -/
theorem fragments_fit_command_tight :
    fragmentLoop (writeFrag align8bDiv 1310736 none none 5242879) 4 5242879 =
      some [1310720, 1310720, 1310720, 1310719] ∧
    ∀ psz ∈ ([1310720, 1310720, 1310720, 1310719] : List Word), psz.toNat + 16 ≤ (1310736 : Word).toNat := by
  have hloop : fragmentLoop (writeFrag align8bDiv 1310736 none none 5242879) 4 5242879 =
      some [1310720, 1310720, 1310720, 1310719] := by decide +kernel
  have h := fragments_fit_command toNat_align8bDiv (by decide : 1310736 ≤ (1310736 : Word).toNat)
    (by decide : (0 : Word) < 5242879)
  exact ⟨hloop, h.1.2 4 _ hloop⟩

/-- VEO_SENDFRAG and VEO_RECVFRAG that are read as 0 give fragments of no byte; so does a VEO_SENDCUT of 0 for a
transfer of three bytes. -/
theorem fragmentation_stuck :
    (∀ fuel, fragmentLoop (writeFrag align8bDiv 0x800000 (some "0") none 1000) fuel 1000 = none) ∧
    (∀ fuel, fragmentLoop (readFrag align8bDiv 0x800000 (some "no") none 1000) fuel 1000 = none) ∧
    (∀ fuel, fragmentLoop (writeFrag align8bDiv 0x800000 none (some "0") 3) fuel 3 = none) := by
  have h₁ : writeFrag align8bDiv 0x800000 (some "0") none 1000 = 0 := by decide +kernel
  have h₂ : readFrag align8bDiv 0x800000 (some "no") none 1000 = 0 := by decide +kernel
  have h₃ : writeFrag align8bDiv 0x800000 none (some "0") 3 = 0 := by decide +kernel
  rw [h₁, h₂, h₃]
  exact ⟨fragmentLoop_zero (by decide), fragmentLoop_zero (by decide), fragmentLoop_zero (by decide)⟩

end Aveo

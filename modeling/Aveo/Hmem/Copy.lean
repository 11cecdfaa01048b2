import Aveo.Hmem.Entry

/-!
# Where `veo_hmemcpy` copies

The four directions use a fragmented write, a fragmented read, `memcpy` on the VH and the command MEMCPY, each with its
own lookup. In all four a copy that succeeds has changed the destination's range in the memory its tag names, and nothing
else. `memcpy` is modelled for ranges that do not overlap.
-/

namespace Aveo

open Lib

/-- The memory an address belongs to, that of the VH or of a live process, and the address there. -/
inductive Procs.Points {n : Nat} (s : Procs n) (addr : Word) : Option Handle → Word → Prop
  | vh (htag : isVe addr = 0) : Points s addr none addr
  | ve {h : Handle} (htag : isVe addr ≠ 0) (hnames : s.Names addr h) : Points s addr (some h) (virtAddrVe addr)

namespace Host

/-- The memory of the VH, or of a process. -/
def memory (host : Host) : Option Handle → Mem
  | none => host.vh
  | some h => (host.ve h).mem

/-- `host'` has `len` bytes copied to `a` in `m` from `b` in `m'`. -/
structure Copied (host : Host) (m : Option Handle) (a : Word) (m' : Option Handle) (b : Word) (len : Nat) (host' : Host) :
    Prop where
  target : host'.memory m = (host.memory m).write a ((host.memory m').read b len)
  others : ∀ m₁, m₁ ≠ m → host'.memory m₁ = host.memory m₁

variable {host host' : Host} {h : Handle} {t : Sides} {env : TransferEnv} {dst src size a b : Word} {m m' m₁ : Option Handle}
  {len : Nat}

theorem Copied.read (hc : Copied host m a m' b size.toNat host') :
    (host'.memory m).read a size.toNat = (host.memory m').read b size.toNat := by
  have hlen : ((host.memory m').read b size.toNat).length = size.toNat := Mem.length_read ..
  have hself := Mem.read_write_self (m := host.memory m) (a := a) (hlen.trans_le (Nat.le_of_lt size.isLt))
  rw [hlen] at hself
  rw [hc.target, hself]

theorem Copied.frame (hc : Copied host m a m' b len host') {x : Word} (hx : ¬ (m₁ = m ∧ InRange a len x)) :
    host'.memory m₁ x = host.memory m₁ x := by
  by_cases hm : m₁ = m
  · have hout : ¬ InRange a ((host.memory m').read b len).length x := by
      rw [Mem.length_read]
      exact fun hin => hx ⟨hm, hin⟩
    rw [hm, hc.target, Mem.write_of_not_inRange hout]
  · rw [hc.others m₁ hm]

theorem memory_setSides_self : (host.setSides h t).memory (some h) = t.ve.mem := by
  simp only [memory, setSides, Function.update_self]

theorem memory_setSides_of_ne {h₁ : Handle} (hne : h₁ ≠ h) :
    (host.setSides h t).memory (some h₁) = host.memory (some h₁) := by
  simp only [memory, setSides, Function.update_of_ne hne]

/-- A transfer that wrote to the process leaves the VH and the other processes alone. -/
theorem copied_to_ve (hvh : t.vh = host.vh) (hve : t.ve.mem = (host.ve h).mem.write a ((host.memory m').read b len)) :
    Copied host (some h) a m' b len (host.setSides h t) := by
  refine ⟨memory_setSides_self.trans hve, fun m₁ hm => ?_⟩
  cases m₁ with
  | none => exact hvh
  | some h₁ => exact memory_setSides_of_ne fun heq => hm (congrArg some heq)

/-- A transfer that wrote to the VH leaves every process alone. -/
theorem copied_to_vh (hve : t.ve.mem = (host.ve h).mem) (hvh : t.vh = host.vh.write a ((host.memory m').read b len)) :
    Copied host none a m' b len (host.setSides h t) := by
  refine ⟨hvh, fun m₁ hm => ?_⟩
  cases m₁ with
  | none => exact absurd rfl hm
  | some h₁ =>
    by_cases heq : h₁ = h
    · rw [heq, memory_setSides_self, hve, memory]
    · exact memory_setSides_of_ne heq

/-! ### One direction each -/

theorem writeMem_zero {s : Sides} (hw : env.writeMem s dst src size = some (0, t)) :
    t.vh = s.vh ∧ t.ve.mem = s.ve.mem.write dst (s.vh.read src size.toNat) := by
  rw [TransferEnv.writeMem] at hw
  split at hw
  · cases hw
  · obtain ⟨⟨t', st⟩, hasync, heq⟩ := Option.map_eq_some_iff.mp hw
    obtain ⟨hst, rfl⟩ := Prod.mk.inj heq
    by_cases hok : st = .ok
    · exact asyncWriteMem_ok (hok ▸ hasync)
    · rw [if_pos hok] at hst
      cases hst

theorem readMem_zero {s : Sides} (hr : env.readMem s dst src size = some (0, t)) :
    t.ve.mem = s.ve.mem ∧ t.vh = s.vh.write dst (s.ve.mem.read src size.toNat) := by
  rw [TransferEnv.readMem] at hr
  split at hr
  · cases hr
  · obtain ⟨⟨t', st⟩, hasync, heq⟩ := Option.map_eq_some_iff.mp hr
    obtain ⟨hst, rfl⟩ := Prod.mk.inj heq
    by_cases hok : st = .ok
    · exact asyncReadMem_ok (hok ▸ hasync)
    · rw [if_pos hok] at hst
      cases hst

theorem veMemcpy_zero {s : Sides} (hc : env.veMemcpy s dst src size = some (0, t)) :
    t.vh = s.vh ∧ t.ve.mem = s.ve.mem.write dst (s.ve.mem.read src size.toNat) := by
  rw [TransferEnv.veMemcpy] at hc
  split at hc
  · cases hc
  · split at hc <;> cases hc
    exact ⟨rfl, rfl⟩

/-- The lookup succeeded, so the transfer decides. -/
theorem transfer_zero {f : Sides → Option (Int × Sides)} (ht : host.transfer f (some h) = some (.ok (0, host'))) :
    ∃ t, f (host.sides h) = some (0, t) ∧ host' = host.setSides h t := by
  obtain ⟨⟨r, t⟩, hf, heq⟩ := Option.map_eq_some_iff.mp ht
  cases heq
  exact ⟨t, hf, rfl⟩

/-- `veo_hmemcpy` returns 0 only if its body does. -/
theorem hmemcpyBody_of_zero (h : host.veoHmemcpy env dst src size = some (.ok (0, host'))) :
    host.hmemcpyBody env dst src size = some (.ok (0, host')) := by
  unfold veoHmemcpy at h
  split at h
  · cases h
  · cases h
  · exact h

section

variable {n : Nat} {s : Procs n} {C : Machine.Cond (Procs n) (Procs.Label n)} (hs : (procTable n).Reachable C s)
  (hprocs : host.procs = s.pointer)

include hs hprocs

theorem copied_of_zero (hdst : s.Points dst m a) (hsrc : s.Points src m' b)
    (hzero : host.veoHmemcpy env dst src size = some (.ok (0, host'))) : Copied host m a m' b size.toNat host' := by
  have hbody := hmemcpyBody_of_zero hzero
  cases hdst with
  | vh hdst =>
    cases hsrc with
    | vh hsrc =>
      rw [hmemcpyBody_vh_vh hdst hsrc] at hbody
      cases hbody
      refine ⟨rfl, fun m₁ hm => ?_⟩
      cases m₁ with
      | none => exact absurd rfl hm
      | some h₁ => rfl
    | ve hsrc hnames =>
      rw [hmemcpyBody_ve_vh hdst hsrc ((getProcHandle_iff hs hprocs).mpr hnames)] at hbody
      obtain ⟨t, hread, rfl⟩ := transfer_zero hbody
      obtain ⟨hve, hvh⟩ := readMem_zero hread
      exact copied_to_vh hve hvh
  | ve hdst hnames =>
    have hfound := (getProcHandle_iff hs hprocs).mpr hnames
    cases hsrc with
    | vh hsrc =>
      rw [hmemcpyBody_vh_ve hdst hsrc hfound] at hbody
      obtain ⟨t, hwrite, rfl⟩ := transfer_zero hbody
      obtain ⟨hvh, hve⟩ := writeMem_zero hwrite
      exact copied_to_ve hvh hve
    | ve hsrc hnames' =>
      rw [hmemcpyBody_ve_ve hdst hsrc hfound ((getProcHandle_iff hs hprocs).mpr hnames')] at hbody
      split at hbody
      · rename_i hsame
        cases hsame
        obtain ⟨t, hcopy, rfl⟩ := transfer_zero hbody
        obtain ⟨hvh, hve⟩ := veMemcpy_zero hcopy
        exact copied_to_ve hvh hve
      · cases hbody

theorem veoHmemcpy_of_ne {h₁ h₂ : Handle} (hdst : s.Points dst (some h₁) a) (hsrc : s.Points src (some h₂) b)
    (hne : h₁ ≠ h₂) : host.veoHmemcpy env dst src size = some (.ok (-1, host)) := by
  cases hdst with
  | ve hdst hnames =>
    cases hsrc with
    | ve hsrc hnames' =>
      rw [veoHmemcpy, hmemcpyBody_ve_ve hdst hsrc ((getProcHandle_iff hs hprocs).mpr hnames)
        ((getProcHandle_iff hs hprocs).mpr hnames'), if_neg fun heq => hne (Option.some.inj heq)]

/-- A copy that returns 0 moved the source's bytes to the destination, each in the memory its address names, and changed
nothing else; between two processes it returns -1 and changes nothing. -/
theorem hmemcpy_routes (env : TransferEnv) (dst src size : Word) (hdst : s.Points dst m a) (hsrc : s.Points src m' b) :
    (∀ host', host.veoHmemcpy env dst src size = some (.ok (0, host')) →
      (host'.memory m).read a size.toNat = (host.memory m').read b size.toNat ∧
      ∀ m₁ x, ¬ (m₁ = m ∧ InRange a size.toNat x) → host'.memory m₁ x = host.memory m₁ x) ∧
    ∀ h₁ h₂, m = some h₁ → m' = some h₂ → h₁ ≠ h₂ → host.veoHmemcpy env dst src size = some (.ok (-1, host)) := by
  constructor
  · intro host' hzero
    have hc := copied_of_zero hs hprocs hdst hsrc hzero
    exact ⟨hc.read, fun _ _ hx => hc.frame hx⟩
  · intro h₁ h₂ hm hm' hne
    subst hm hm'
    exact veoHmemcpy_of_ne hs hprocs hdst hsrc hne

end

/-- Transfers in fragments of at most 8 bytes, all answered. -/
def promptly : TransferEnv :=
  { align8b := align8bDiv, maxSend := 0x800000, sendfrag := none, sendcut := some "8", recvfrag := none, recvcut := none,
    fate := fun _ => .answered, fuel := 3, invalid := none }

theorem promptly_writeMem (t : Sides) : ∃ t', promptly.writeMem t 0x1000 0x2000 24 = some (0, t') := by
  have hfrags : fragmentLoop 8 3 24 = some [8, 8, 8] := by decide
  simp only [TransferEnv.writeMem, promptly, asyncWriteMem]
  rw [writeFrag_cut, transferMem, if_neg (by decide), hfrags]
  exact ⟨_, rfl⟩

/-- A copy from the VH to the second process puts the bytes there. -/
theorem hmemcpy_routes_second :
    ∃ (s : Procs 1) (host' : Host), (procTable 1).Reachable Machine.anyStep s ∧
      (bare s.pointer).veoHmemcpy promptly 0x8800000000001000 0x2000 24 = some (.ok (0, host')) ∧
      (host'.ve 1).mem.read 0x1000 24 = (bare s.pointer).vh.read 0x2000 24 := by
  obtain ⟨s, hs, -, hnames⟩ := exists_firstDestroyed
  have hdst : s.Points 0x8800000000001000 (some 1) 0x1000 := .ve (by decide) hnames
  have hsrc : s.Points 0x2000 none 0x2000 := .vh (by decide)
  obtain ⟨t, hwrite⟩ := promptly_writeMem ((bare s.pointer).sides 1)
  have hcopy : (bare s.pointer).veoHmemcpy promptly 0x8800000000001000 0x2000 24 =
      some (.ok (0, (bare s.pointer).setSides 1 t)) := by
    have hvirt : virtAddrVe 0x8800000000001000 = 0x1000 := by decide
    rw [veoHmemcpy, hmemcpyBody_vh_ve (by decide) (by decide) ((getProcHandle_iff hs rfl).mpr hnames), hvirt, transfer, hwrite]
    rfl
  exact ⟨s, _, hs, hcopy, ((hmemcpy_routes hs rfl promptly 0x8800000000001000 0x2000 24 hdst hsrc).1 _ hcopy).1⟩

end Host

end Aveo

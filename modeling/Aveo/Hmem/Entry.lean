import Aveo.Hmem.Procs
import Aveo.Lib.Outcome
import Aveo.Transfer.Data

/-!
# The functions that take a tagged address

Each of `veo_free_hmem`, `veo_hmemcpy`, `veo_get_proc_handle_from_hmem`, `veo_get_venum_from_hmem` and
`veo_get_pid_from_hmem` takes the identifier from the address and looks it up in the table of processes itself, with
catch clauses of its own. Following a null pointer, to the table or to a process, is undefined.
-/

namespace Aveo

open Lib

/-- The exceptions of these functions. -/
inductive HmemRaised
  | veoException
  | outOfRange
  deriving DecidableEq

/-- `__procs`, a null pointer until the first process is created. -/
abbrev ProcsPtr := Option (List (Option Handle))

def Procs.pointer {n : Nat} (s : Procs n) : ProcsPtr := if s.created = 0 then none else some s.procs

/-- `ProcHandle::getProcHandle`. -/
def ProcsPtr.getProcHandle (procs : ProcsPtr) (procIdent : Nat) : Outcome HmemRaised (Option Handle) :=
  match procs with
  | none => .undefined
  | some table =>
      match table[procIdent]? with
      | none => .raise .outOfRange
      | some p => .ok p

/-- The VH: the processes, its memory, the VE thread that serves the main context of each process, the VE node and the
PID of each process, and the buffers that were freed, those of the VH without a process. -/
structure Host where
  procs : ProcsPtr
  vh : Mem
  ve : Handle → Ve
  veNumber : Handle → Int
  pid : Handle → Int
  freed : List (Option Handle × Word)

namespace Host

def sides (host : Host) (h : Handle) : Sides := { vh := host.vh, ve := host.ve h }

def setSides (host : Host) (h : Handle) (s : Sides) : Host := { host with vh := s.vh, ve := Function.update host.ve h s.ve }

/-- A method of a process that reads or writes its members. -/
def method {α : Type} (p : Option Handle) (f : Handle → Outcome HmemRaised α) : Outcome HmemRaised α :=
  match p with
  | none => .undefined
  | some h => f h

/-- `veo_get_proc_handle_from_hmem`; `none` is NULL. `toCHandle` only returns the pointer it is called with. -/
def veoGetProcHandleFromHmem (host : Host) (addr : Word) : Outcome HmemRaised (Option Handle) :=
  if isVe addr = 0 then .ok none else host.procs.getProcHandle (getProcIdent addr)

/-- `veo_get_venum_from_hmem`. -/
def veoGetVenumFromHmem (host : Host) (addr : Word) : Outcome HmemRaised Int :=
  if isVe addr = 0 then .ok (-1)
  else (host.veoGetProcHandleFromHmem addr).bind fun p => method p fun h => .ok (host.veNumber h)

/-- `veo_get_pid_from_hmem`. -/
def veoGetPidFromHmem (host : Host) (addr : Word) : Outcome HmemRaised Int :=
  if isVe addr ≠ 0 then (host.veoGetProcHandleFromHmem addr).bind fun p => method p fun h => .ok (host.pid h)
  else .ok (-1)

/-- `veo_free_mem`, where `freeBuff` may throw. -/
def veoFreeMem (throws : Bool) (host : Host) (p : Option Handle) (addr : Word) : Outcome HmemRaised (Int × Host) :=
  method p fun h => if throws then .ok (-1, host) else .ok (0, { host with freed := (some h, addr) :: host.freed })

/-- `veo_free_hmem`, which catches `VEOException`. -/
def veoFreeHmem (throws : Bool) (host : Host) (addr : Word) : Outcome HmemRaised (Int × Host) :=
  if veoIsVeAddr addr = 0 then .ok (0, { host with freed := (none, addr) :: host.freed })
  else
    match (host.procs.getProcHandle (getProcIdent addr)).bind fun p => host.veoFreeMem throws p (virtAddrVe addr) with
    | .raise .veoException => .ok (-1, host)
    | r => r

end Host

/-! ### Copying -/

/-- What a transfer depends on: URPC, the environment variables, what becomes of the commands, and the number of rounds
after which the loop of fragments is given up. If a request is not accepted, `invalid` has what the fragments queued
before it leave. -/
structure TransferEnv where
  align8b : Word → Word
  maxSend : Word
  sendfrag : Option String
  sendcut : Option String
  recvfrag : Option String
  recvcut : Option String
  fate : Nat → Fate
  fuel : Nat
  invalid : Option Sides

namespace TransferEnv

variable (env : TransferEnv) (s : Sides) (dst src size : Word)

/-- `ProcHandle::writeMem`; `none` if it does not return. -/
def writeMem : Option (Int × Sides) :=
  match env.invalid with
  | some s' => some (-1, s')
  | none =>
      (asyncWriteMem env.align8b env.maxSend env.sendfrag env.sendcut env.fate env.fuel s dst src size).map fun r =>
        (if r.2 ≠ .ok then -1 else 0, r.1)

/-- `ProcHandle::readMem`. -/
def readMem : Option (Int × Sides) :=
  match env.invalid with
  | some s' => some (-1, s')
  | none =>
      (asyncReadMem env.align8b env.maxSend env.recvfrag env.recvcut env.fate env.fuel s dst src size).map fun r =>
        (if r.2 ≠ .ok then -1 else 0, r.1)

/-- `ProcHandle::veMemcpy`. -/
def veMemcpy : Option (Int × Sides) :=
  match env.invalid with
  | some s' => some (-1, s')
  | none =>
      match env.fate 0 with
      | .answered => some (0, { s with ve := (memcpyHandler s.ve s.ve.replies.length dst src size .sent).1 })
      | .refused => some (-1, s)
      | .exception ve => some (-1, { s with ve := ve })

end TransferEnv

namespace Host

/-- A transfer by the process that was found. -/
def transfer (host : Host) (f : Sides → Option (Int × Sides)) (p : Option Handle) : Option (Outcome HmemRaised (Int × Host)) :=
  match p with
  | none => some .undefined
  | some h => (f (host.sides h)).map fun r => .ok (r.1, host.setSides h r.2)

/-- What follows a lookup. -/
def withProc (x : Outcome HmemRaised (Option Handle)) (f : Option Handle → Option (Outcome HmemRaised (Int × Host))) :
    Option (Outcome HmemRaised (Int × Host)) :=
  match x with
  | .ok p => f p
  | .raise e => some (.raise e)
  | .undefined => some .undefined

/-- The body of `veo_hmemcpy`; `none` if a transfer does not return. -/
def hmemcpyBody (env : TransferEnv) (host : Host) (dst src size : Word) : Option (Outcome HmemRaised (Int × Host)) :=
  if isVe dst ≠ 0 ∧ isVe src = 0 then -- VH to VE
    withProc (host.procs.getProcHandle (getProcIdent dst)) fun p =>
      host.transfer (fun s => env.writeMem s (virtAddrVe dst) src size) p
  else if isVe dst = 0 ∧ isVe src ≠ 0 then -- VE to VH
    withProc (host.procs.getProcHandle (getProcIdent src)) fun p =>
      host.transfer (fun s => env.readMem s dst (virtAddrVe src) size) p
  else if isVe dst = 0 ∧ isVe src = 0 then -- VH to VH
    some (.ok (0, { host with vh := host.vh.write dst (host.vh.read src size.toNat) }))
  else -- VE to VE
    withProc (host.veoGetProcHandleFromHmem dst) fun dstH =>
      withProc (host.veoGetProcHandleFromHmem src) fun srcH =>
        if dstH = srcH then
          host.transfer (fun s => env.veMemcpy s (veoGetHmemAddr dst) (veoGetHmemAddr src) size) srcH
        else some (.ok (-1, host))

/-- `veo_hmemcpy`, which catches both exceptions. -/
def veoHmemcpy (env : TransferEnv) (host : Host) (dst src size : Word) : Option (Outcome HmemRaised (Int × Host)) :=
  match host.hmemcpyBody env dst src size with
  | some (.raise .outOfRange) => some (.ok (-1, host))
  | some (.raise .veoException) => some (.ok (-1, host))
  | r => r

/-- The function ended in undefined behaviour or with an exception. -/
def Fails : Option (Outcome HmemRaised (Int × Host)) → Prop
  | some (.raise _) | some .undefined => True
  | _ => False

end Host

/-! ### Live and other tags -/

namespace Procs

variable {n : Nat} {s : Procs n} {C : Machine.Cond (Procs n) (Label n)}

/-- An address carries the identifier of a live process. -/
def Names (s : Procs n) (addr : Word) (h : Handle) : Prop := s.Live h ∧ s.getProcIdentifier h = some (getProcIdent addr)

theorem pointer_getProcHandle (hs : (procTable n).Reachable C s) {addr : Word} {h : Handle} :
    s.pointer.getProcHandle (getProcIdent addr) = .ok (some h) ↔ s.Names addr h := by
  have ht := Table.of_reachable hs
  rw [Names, ht.find, pointer]
  split
  · rename_i hzero
    refine ⟨nofun, fun hnames => ?_⟩
    exact absurd (hzero ▸ hnames.1.1) (Nat.not_lt_zero _)
  · simp only [ProcsPtr.getProcHandle]
    constructor
    · intro heq
      cases hslot : s.procs[getProcIdent addr]? with
      | none =>
        rw [hslot] at heq
        cases heq
      | some p =>
        rw [hslot] at heq
        cases heq
        exact ⟨(ht.live h).mpr ⟨_, hslot⟩, rfl⟩
    · intro hnames
      rw [hnames.2]

end Procs

namespace Host

variable {n : Nat} {s : Procs n} {C : Machine.Cond (Procs n) (Procs.Label n)} {host : Host} {addr : Word} {h : Handle}

theorem veoIsVeAddr_of_tag (htag : isVe addr ≠ 0) : veoIsVeAddr addr ≠ 0 := by
  rw [veoIsVeAddr, if_pos htag]
  decide

/-- The functions that go on to a method of the process return exactly for a live one. -/
theorem bind_method_returns_iff {α : Type} {x : Outcome HmemRaised (Option Handle)} {f : Handle → Outcome HmemRaised α}
    (hf : ∀ h, (f h).returns = true) : (x.bind fun p => method p f).returns = true ↔ ∃ h, x = .ok (some h) := by
  cases x with
  | ok p =>
    cases p with
    | none => exact ⟨nofun, fun ⟨_, h⟩ => by cases h⟩
    | some h => exact ⟨fun _ => ⟨h, rfl⟩, fun _ => hf h⟩
  | raise e => exact ⟨nofun, fun ⟨_, h⟩ => by cases h⟩
  | undefined => exact ⟨nofun, fun ⟨_, h⟩ => by cases h⟩

theorem veoFreeHmem_eq (throws : Bool) (htag : isVe addr ≠ 0) : host.veoFreeHmem throws addr =
    (host.procs.getProcHandle (getProcIdent addr)).bind fun p => host.veoFreeMem throws p (virtAddrVe addr) := by
  rw [veoFreeHmem, if_neg (veoIsVeAddr_of_tag htag)]
  generalize hx : host.procs.getProcHandle (getProcIdent addr) = x
  -- The lookup does not throw a `VEOException`, and `veo_free_mem` catches its own.
  cases x with
  | ok p =>
    cases p with
    | none => rfl
    | some h => cases throws <;> rfl
  | undefined => rfl
  | raise e =>
    cases e with
    | outOfRange => rfl
    | veoException =>
      unfold ProcsPtr.getProcHandle at hx
      split at hx
      · cases hx
      · split at hx <;> cases hx

/-- A transfer by a process that was found does not fail. -/
theorem not_fails_transfer (f : Sides → Option (Int × Sides)) (h : Handle) : ¬ Fails (host.transfer f (some h)) := by
  rw [transfer]
  cases f (host.sides h) <;> exact id

theorem not_fails_veoHmemcpy {env : TransferEnv} {dst src size : Word} (h : ¬ Fails (host.hmemcpyBody env dst src size)) :
    ¬ Fails (host.veoHmemcpy env dst src size) := by
  rw [veoHmemcpy]
  generalize host.hmemcpyBody env dst src size = x at h
  cases x with
  | none => exact h
  | some o =>
    cases o with
    | ok r => exact h
    | raise e => exact absurd trivial h
    | undefined => exact absurd trivial h

theorem veoGetHmemAddr_of_tag (htag : isVe addr ≠ 0) : veoGetHmemAddr addr = virtAddrVe addr := if_pos (veoIsVeAddr_of_tag htag)

theorem veoGetProcHandleFromHmem_eq (htag : isVe addr ≠ 0) :
    host.veoGetProcHandleFromHmem addr = host.procs.getProcHandle (getProcIdent addr) := if_neg htag

/-! The four directions of `veo_hmemcpy`, after lookups that found a process. -/

section

variable {env : TransferEnv} {dst src size : Word} {h' : Handle}

theorem hmemcpyBody_vh_ve (hdst : isVe dst ≠ 0) (hsrc : isVe src = 0)
    (hfound : host.procs.getProcHandle (getProcIdent dst) = .ok (some h)) : host.hmemcpyBody env dst src size =
      host.transfer (fun s => env.writeMem s (virtAddrVe dst) src size) (some h) := by
  rw [hmemcpyBody, if_pos ⟨hdst, hsrc⟩, hfound, withProc]

theorem hmemcpyBody_ve_vh (hdst : isVe dst = 0) (hsrc : isVe src ≠ 0)
    (hfound : host.procs.getProcHandle (getProcIdent src) = .ok (some h)) : host.hmemcpyBody env dst src size =
      host.transfer (fun s => env.readMem s dst (virtAddrVe src) size) (some h) := by
  rw [hmemcpyBody, if_neg fun hway => hway.1 hdst, if_pos ⟨hdst, hsrc⟩, hfound, withProc]

theorem hmemcpyBody_vh_vh (hdst : isVe dst = 0) (hsrc : isVe src = 0) : host.hmemcpyBody env dst src size =
    some (.ok (0, { host with vh := host.vh.write dst (host.vh.read src size.toNat) })) := by
  rw [hmemcpyBody, if_neg fun hway => hway.1 hdst, if_neg fun hway => hway.2 hsrc, if_pos ⟨hdst, hsrc⟩]

theorem hmemcpyBody_ve_ve (hdst : isVe dst ≠ 0) (hsrc : isVe src ≠ 0)
    (hfound : host.procs.getProcHandle (getProcIdent dst) = .ok (some h))
    (hfound' : host.procs.getProcHandle (getProcIdent src) = .ok (some h')) : host.hmemcpyBody env dst src size =
      if some h = some h' then host.transfer (fun s => env.veMemcpy s (virtAddrVe dst) (virtAddrVe src) size) (some h')
      else some (.ok (-1, host)) := by
  rw [hmemcpyBody, if_neg fun hway => hsrc hway.2, if_neg fun hway => hdst hway.1, if_neg fun hway => hdst hway.1,
    veoGetProcHandleFromHmem_eq hdst, veoGetProcHandleFromHmem_eq hsrc, hfound, hfound', withProc, withProc,
    veoGetHmemAddr_of_tag hdst, veoGetHmemAddr_of_tag hsrc]

end

section

variable (hs : (procTable n).Reachable C s) (hprocs : host.procs = s.pointer)

include hs hprocs

theorem getProcHandle_iff : host.procs.getProcHandle (getProcIdent addr) = .ok (some h) ↔ s.Names addr h := by
  rw [hprocs, s.pointer_getProcHandle hs]

/-- Copying between an address of a live process and one of the VH or of a live process does not fail. -/
theorem not_fails_of_names {env : TransferEnv} {dst src size : Word} (hdst : isVe dst = 0 ∨ ∃ h, s.Names dst h)
    (hsrc : isVe src = 0 ∨ ∃ h, s.Names src h) : ¬ Fails (host.veoHmemcpy env dst src size) := by
  apply not_fails_veoHmemcpy
  by_cases hdst0 : isVe dst = 0
  · by_cases hsrc0 : isVe src = 0
    · rw [hmemcpyBody_vh_vh hdst0 hsrc0]
      exact id
    · obtain ⟨h, hnames⟩ := hsrc.resolve_left hsrc0
      rw [hmemcpyBody_ve_vh hdst0 hsrc0 ((getProcHandle_iff hs hprocs).mpr hnames)]
      exact not_fails_transfer _ h
  · obtain ⟨h, hnames⟩ := hdst.resolve_left hdst0
    have hfound := (getProcHandle_iff hs hprocs).mpr hnames
    by_cases hsrc0 : isVe src = 0
    · rw [hmemcpyBody_vh_ve hdst0 hsrc0 hfound]
      exact not_fails_transfer _ h
    · obtain ⟨h', hnames'⟩ := hsrc.resolve_left hsrc0
      rw [hmemcpyBody_ve_ve hdst0 hsrc0 hfound ((getProcHandle_iff hs hprocs).mpr hnames')]
      split
      · exact not_fails_transfer _ h'
      · exact id

/-- In every history of the table, the functions act on the process whose identifier an address carries if that process
is alive, and the three functions that go on to one of its methods return only then. -/
theorem hmem_entry_points (addr : Word) (htag : isVe addr ≠ 0) :
    (∀ h, s.Names addr h →
      host.veoGetProcHandleFromHmem addr = .ok (some h) ∧ host.veoGetVenumFromHmem addr = .ok (host.veNumber h) ∧
      host.veoGetPidFromHmem addr = .ok (host.pid h) ∧
      host.veoFreeHmem false addr = .ok (0, { host with freed := (some h, virtAddrVe addr) :: host.freed }) ∧
      host.veoFreeHmem true addr = .ok (-1, host) ∧
      ∀ env other size, (isVe other = 0 ∨ ∃ h', s.Names other h') →
        ¬ Fails (host.veoHmemcpy env addr other size) ∧ ¬ Fails (host.veoHmemcpy env other addr size)) ∧
    ((¬ ∃ h, s.Names addr h) → (host.veoGetVenumFromHmem addr).returns = false ∧
      (host.veoGetPidFromHmem addr).returns = false ∧ ∀ throws, (host.veoFreeHmem throws addr).returns = false) := by
  constructor
  · intro h hnames
    have hfound := (getProcHandle_iff hs hprocs).mpr hnames
    have hproc : host.veoGetProcHandleFromHmem addr = .ok (some h) := (veoGetProcHandleFromHmem_eq htag).trans hfound
    refine ⟨hproc, ?_, ?_, ?_, ?_, fun env other size hother =>
      ⟨not_fails_of_names hs hprocs (.inr ⟨h, hnames⟩) hother, not_fails_of_names hs hprocs hother (.inr ⟨h, hnames⟩)⟩⟩
    · rw [veoGetVenumFromHmem, if_neg htag, hproc]
      rfl
    · rw [veoGetPidFromHmem, if_pos htag, hproc]
      rfl
    · rw [veoFreeHmem_eq false htag, hfound]
      rfl
    · rw [veoFreeHmem_eq true htag, hfound]
      rfl
  · intro hnone
    have hnot : ¬ ∃ h, host.procs.getProcHandle (getProcIdent addr) = .ok (some h) := by
      rintro ⟨h, hfound⟩
      exact hnone ⟨h, (getProcHandle_iff hs hprocs).mp hfound⟩
    refine ⟨?_, ?_, fun throws => ?_⟩
    · rw [veoGetVenumFromHmem, if_neg htag, veoGetProcHandleFromHmem_eq htag, Bool.eq_false_iff]
      exact mt (bind_method_returns_iff fun _ => rfl).mp hnot
    · rw [veoGetPidFromHmem, if_pos htag, veoGetProcHandleFromHmem_eq htag, Bool.eq_false_iff]
      exact mt (bind_method_returns_iff fun _ => rfl).mp hnot
    · rw [veoFreeHmem_eq throws htag, Bool.eq_false_iff]
      exact mt (bind_method_returns_iff fun _ => by cases throws <;> rfl).mp hnot

end

/-- A host whose VE memories are empty. -/
def bare (procs : ProcsPtr) : Host :=
  { procs := procs, vh := fun _ => 0, ve := fun _ => ⟨fun _ => 0, 0, []⟩, veNumber := fun h => h, pid := fun h => 100 + h, freed := [] }

/-- Two processes, of which the first was destroyed. -/
def firstDestroyed : List (Procs.Label 1) := [.create, .create, .destroy 0]

theorem exists_firstDestroyed :
    ∃ s : Procs 1, (procTable 1).Reachable Machine.anyStep s ∧ s.pointer = some [none, some 1] ∧
      s.Names 0x8800000000001000 1 := by
  obtain ⟨s, hs, hp⟩ := Machine.exists_reachable_of_run (M := procTable 1) (s := Procs.new 1) firstDestroyed
    (fun s => s.pointer = some [none, some 1] && decide (s.Live 1) && s.getProcIdentifier 1 = some 1) rfl (by decide +kernel)
  simp only [Bool.and_eq_true, decide_eq_true_eq] at hp
  exact ⟨s, hs, hp.1.1, hp.1.2, hp.2⟩

/-- The address of the second process leads to it. -/
theorem hmem_entry_points_second :
    ∃ s : Procs 1, (procTable 1).Reachable Machine.anyStep s ∧
      (bare s.pointer).veoGetVenumFromHmem 0x8800000000001000 = .ok 1 ∧
      (bare s.pointer).veoGetPidFromHmem 0x8800000000001000 = .ok 101 := by
  obtain ⟨s, hs, -, hnames⟩ := exists_firstDestroyed
  have hpoints := @hmem_entry_points _ s _ (bare s.pointer) hs rfl 0x8800000000001000 (by decide)
  obtain ⟨-, hvenum, hpid, -⟩ := hpoints.1 1 hnames
  exact ⟨s, hs, hvenum, hpid⟩

/-- With the identifier of the destroyed process a null pointer is followed, and with one beyond the table an exception
leaves the C functions. -/
theorem hmem_entry_points_fail :
    ∃ s : Procs 1, (procTable 1).Reachable Machine.anyStep s ∧
      (bare s.pointer).veoGetVenumFromHmem 0x8000000000001000 = .undefined ∧
      (bare s.pointer).veoGetPidFromHmem 0x8000000000001000 = .undefined ∧
      (bare s.pointer).veoFreeHmem false 0x8000000000001000 = .undefined ∧
      (∀ env, (bare s.pointer).veoHmemcpy env 0x8000000000001000 0x2000 8 = some .undefined) ∧
      (bare s.pointer).veoGetProcHandleFromHmem 0x9000000000001000 = .raise .outOfRange ∧
      (bare s.pointer).veoGetVenumFromHmem 0x9000000000001000 = .raise .outOfRange ∧
      (bare s.pointer).veoGetPidFromHmem 0x9000000000001000 = .raise .outOfRange ∧
      (bare s.pointer).veoFreeHmem false 0x9000000000001000 = .raise .outOfRange := by
  obtain ⟨s, hs, hptr, -⟩ := exists_firstDestroyed
  refine ⟨s, hs, ?_⟩
  rw [hptr]
  exact ⟨rfl, rfl, rfl, fun _ => rfl, rfl, rfl, rfl, rfl⟩

end Host

end Aveo

import Aveo.Hmem.Address
import Aveo.Lib.Slots
import Aveo.Lib.Machine

/-!
# The table of VE processes

`__procs` of `ProcHandle.cpp`, in which the index of a process is its identifier, and the calls of `veo_alloc_hmem`
that several threads make while processes come and go. `veo_proc_destroy` does not free the handle of a process, so
each process that is created has a handle of its own. Operations on the table run under `__procs_mtx` and are one step;
`veo_alloc_hmem` takes that mutex twice, for the number of processes and for the identifier.
-/

namespace Aveo

open Lib

/-- `ProcHandle *`, without the null pointer. -/
abbrev Handle := Nat

/-- Where a thread is in `veo_alloc_hmem`. -/
inductive AllocPc
  | idle
  /-- At `numProcs`. -/
  | check (h : Handle)
  /-- At `veo_alloc_mem`. -/
  | alloc (h : Handle)
  /-- At `getProcIdentifier`. -/
  | ident (h : Handle) (veaddr : Word)
  deriving DecidableEq

/-- A successful `veo_alloc_hmem`: the handle, the address that was allocated, and the address that was returned. -/
structure Allocation where
  proc : Option Handle
  mem : Word
  addr : Word
  deriving DecidableEq

/-- The table and the threads that allocate. `created` counts the processes so far; `destroyed` and `returned` record
the history. -/
structure Procs (n : Nat) where
  procs : List (Option Handle)
  created : Nat
  destroyed : List Handle
  pc : Fin n → AllocPc
  returned : List Allocation

namespace Procs

variable {n : Nat}

def new (n : Nat) : Procs n := { procs := [], created := 0, destroyed := [], pc := fun _ => .idle, returned := [] }

/-- `_getProcIdentifier`; `none` is `-1`. -/
def getProcIdentifier (s : Procs n) (h : Handle) : Option Nat := Slots.find s.procs h

/-- `ProcHandle::numProcs`. -/
def numProcs (s : Procs n) : Nat := s.procs.length

/-- `ProcHandle::getProcHandle`: `none` is the exception of `at`, and `some none` the null pointer. -/
def getProcHandle (s : Procs n) (procIdent : Nat) : Option (Option Handle) := s.procs[procIdent]?

/-- `veo_get_proc_handle_from_hmem`. -/
def veoGetProcHandleFromHmem (s : Procs n) (addr : Word) : Option (Option Handle) :=
  if isVe addr = 0 then some none else s.getProcHandle (getProcIdent addr)

def setPc (s : Procs n) (t : Fin n) (p : AllocPc) : Procs n := { s with pc := Function.update s.pc t p }

/-- A process was created and not destroyed since. -/
def Live (s : Procs n) (h : Handle) : Prop := h < s.created ∧ h ∉ s.destroyed

instance (s : Procs n) (h : Handle) : Decidable (s.Live h) := inferInstanceAs (Decidable (_ ∧ _))

/-- What can happen: a process is created or destroyed, a thread calls `veo_alloc_hmem` or goes on in it. A call
without a process ends at once with the address that `malloc` returns. -/
inductive Label (n : Nat)
  | create
  | destroy (h : Handle)
  | call (t : Fin n) (h : Handle)
  | callNull (mem : Word)
  | numProcs (t : Fin n)
  /-- `veo_alloc_mem` fails or returns an address. -/
  | allocMem (t : Fin n) (veaddr : Option Word)
  | identify (t : Fin n)
  deriving DecidableEq

def step (s : Procs n) : Label n → Option (Procs n)
  | .create => some { s with procs := Slots.put s.procs s.created, created := s.created + 1 }
  | .destroy h =>
      if h < s.created then some { s with procs := Slots.remove s.procs h, destroyed := h :: s.destroyed } else none
  | .call t h => if s.pc t = .idle ∧ h < s.created then some (s.setPc t (.check h)) else none
  | .callNull mem => some { s with returned := ⟨none, mem, mem⟩ :: s.returned }
  | .numProcs t =>
      match s.pc t with
      | .check h => some (s.setPc t (if maxHmemProcs < s.numProcs then .idle else .alloc h))
      | _ => none
  | .allocMem t veaddr =>
      match s.pc t with
      | .alloc h => some (s.setPc t (veaddr.elim .idle (.ident h)))
      | _ => none
  | .identify t =>
      match s.pc t with
      | .ident h veaddr =>
          match s.getProcIdentifier h with
          | none => some (s.setPc t .idle)
          | some i =>
              some ({ s with returned := ⟨some h, veaddr, setProcIdent (setVeFlag veaddr) i⟩ :: s.returned }.setPc t .idle)
      | _ => none

end Procs

/-- The machine of the table with `n` threads. -/
def procTable (n : Nat) : Machine (Procs n) (Procs.Label n) where
  init s := s = .new n
  step := Procs.step

/-- VE allocations lie below `2 ^ 59`. -/
def allocBelow {n : Nat} : Machine.Cond (Procs n) (Procs.Label n) := fun _ l _ =>
  ∀ t a, l = .allocMem t (some a) → a.toNat < 2 ^ 59

namespace Procs

variable {n : Nat} {s s' : Procs n} {l : Label n} {h : Handle} {i : Nat}

/-- The table holds exactly the live processes, each at one index. -/
structure Table (s : Procs n) : Prop where
  unique : Slots.Unique s.procs
  live : ∀ h, s.Live h ↔ ∃ i : Nat, s.procs[i]? = some (some h)
  destroyed : ∀ h ∈ s.destroyed, h < s.created

theorem Table.find (ht : s.Table) : s.getProcIdentifier h = some i ↔ s.procs[i]? = some (some h) :=
  Slots.find_eq_some ht.unique

/-- What a step does to the table: nothing, or a process comes or goes. -/
inductive TableStep (s : Procs n) (l : Label n) (s' : Procs n) : Prop
  | same (hprocs : s'.procs = s.procs) (hcreated : s'.created = s.created) (hdestroyed : s'.destroyed = s.destroyed)
  | create (hl : l = .create) (hprocs : s'.procs = Slots.put s.procs s.created) (hcreated : s'.created = s.created + 1)
      (hdestroyed : s'.destroyed = s.destroyed)
  | destroy (h : Handle) (hlt : h < s.created) (hprocs : s'.procs = Slots.remove s.procs h) (hcreated : s'.created = s.created)
      (hdestroyed : s'.destroyed = h :: s.destroyed)

theorem tableStep (hstep : s.step l = some s') : TableStep s l s' := by
  cases l with
  | create =>
    cases hstep
    exact .create rfl rfl rfl rfl
  | destroy h =>
    rw [step] at hstep
    split at hstep
    · rename_i hlt
      cases hstep
      exact .destroy h hlt rfl rfl rfl
    · cases hstep
  | call t h =>
    rw [step] at hstep
    split at hstep
    · cases hstep
      exact .same rfl rfl rfl
    · cases hstep
  | callNull mem =>
    cases hstep
    exact .same rfl rfl rfl
  | numProcs t =>
    rw [step] at hstep
    split at hstep
    · cases hstep
      exact .same rfl rfl rfl
    · cases hstep
  | allocMem t veaddr =>
    rw [step] at hstep
    split at hstep
    · cases hstep
      exact .same rfl rfl rfl
    · cases hstep
  | identify t =>
    rw [step] at hstep
    split at hstep
    · split at hstep
      · cases hstep
        exact .same rfl rfl rfl
      · cases hstep
        exact .same rfl rfl rfl
    · cases hstep

theorem Table.step (ht : s.Table) (hstep : TableStep s l s') : s'.Table := by
  obtain ⟨hunique, hlive, hdest⟩ := ht
  cases hstep with
  | same hprocs hcreated hdestroyed =>
    refine ⟨hprocs ▸ hunique, fun h => ?_, by rwa [hcreated, hdestroyed]⟩
    rw [Live, hcreated, hdestroyed, hprocs]
    exact hlive h
  | create hl hprocs hcreated hdestroyed =>
    have hfresh : ∀ i : Nat, s.procs[i]? ≠ some (some s.created) := by
      intro i hi
      exact Nat.lt_irrefl _ ((hlive s.created).mpr ⟨i, hi⟩).1
    obtain ⟨i, -, hspec⟩ := Slots.put_spec s.procs s.created
    refine ⟨hprocs ▸ hunique.put hfresh, fun h => ?_, fun h hmem => ?_⟩
    · rw [Live, hcreated, hdestroyed, hprocs]
      constructor
      · rintro ⟨hlt, hnot⟩
        rcases Nat.lt_succ_iff_lt_or_eq.mp hlt with hold | rfl
        · obtain ⟨j, hj⟩ := (hlive h).mp ⟨hold, hnot⟩
          exact ⟨j, (hspec j h).mpr (.inr hj)⟩
        · exact ⟨i, (hspec i _).mpr (.inl ⟨rfl, rfl⟩)⟩
      · rintro ⟨j, hj⟩
        rcases (hspec j h).mp hj with ⟨-, rfl⟩ | hold
        · exact ⟨Nat.lt_succ_self _, fun hmem => Nat.lt_irrefl _ (hdest _ hmem)⟩
        · have := (hlive h).mpr ⟨j, hold⟩
          exact ⟨Nat.lt_succ_of_lt this.1, this.2⟩
    · rw [hcreated]
      exact Nat.lt_succ_of_lt (hdest h (hdestroyed ▸ hmem))
  | destroy h₀ hlt hprocs hcreated hdestroyed =>
    refine ⟨hprocs ▸ hunique.remove h₀, fun h => ?_, fun h hmem => ?_⟩
    · rw [Live, hcreated, hdestroyed, hprocs]
      simp only [Slots.remove_spec hunique, exists_and_right, ← hlive, Live, List.mem_cons, not_or]
      exact ⟨fun ⟨hlt, hne, hnot⟩ => ⟨⟨hlt, hnot⟩, hne⟩, fun ⟨⟨hlt, hnot⟩, hne⟩ => ⟨hlt, hne, hnot⟩⟩
    · rw [hcreated]
      rw [hdestroyed] at hmem
      rcases List.mem_cons.mp hmem with rfl | hold
      · exact hlt
      · exact hdest h hold

theorem Table.of_reachable {C : Machine.Cond (Procs n) (Label n)} (hs : (procTable n).Reachable C s) : s.Table := by
  refine hs.invariant ?_ fun s l s' _ hstep _ ht => ht.step (tableStep hstep)
  rintro s rfl
  refine ⟨Slots.unique_nil, fun h => ?_, fun h hmem => by cases hmem⟩
  simp [Live, new]

/-- A process that exists before and after a step is at the same index. -/
theorem Table.index_step (ht : s.Table) (hstep : TableStep s l s') (hlt : h < s.created)
    (hi : s'.procs[i]? = some (some h)) : s.procs[i]? = some (some h) := by
  cases hstep with
  | same hprocs hcreated hdestroyed => rwa [hprocs] at hi
  | create hl hprocs hcreated hdestroyed =>
    obtain ⟨j, -, hspec⟩ := Slots.put_spec s.procs s.created
    rw [hprocs] at hi
    rcases (hspec i h).mp hi with ⟨-, rfl⟩ | hold
    · exact absurd hlt (Nat.lt_irrefl _)
    · exact hold
  | destroy h₀ _ hprocs hcreated hdestroyed =>
    rw [hprocs] at hi
    exact ((Slots.remove_spec ht.unique h₀).mp hi).1

theorem TableStep.created_le (hstep : TableStep s l s') : s.created ≤ s'.created := by
  cases hstep with
  | same _ hcreated _ => exact Nat.le_of_eq hcreated.symm
  | create _ _ hcreated _ => rw [hcreated]; exact Nat.le_succ _
  | destroy _ _ _ hcreated _ => exact Nat.le_of_eq hcreated.symm

/-- A process keeps its index as long as it lives. -/
theorem Table.index_steps {C : Machine.Cond (Procs n) (Label n)} (ht : s.Table) (hsteps : (procTable n).Steps C s s')
    (hlt : h < s.created) : ∀ i : Nat, s'.procs[i]? = some (some h) → s.procs[i]? = some (some h) := by
  suffices hinv : s'.Table ∧ h < s'.created ∧ ∀ i : Nat, s'.procs[i]? = some (some h) → s.procs[i]? = some (some h) from
    hinv.2.2
  refine hsteps.invariant (I := fun u => u.Table ∧ h < u.created ∧ ∀ i : Nat, u.procs[i]? = some (some h) →
    s.procs[i]? = some (some h)) ?_ ⟨ht, hlt, fun _ hi => hi⟩
  rintro u l u' hstep - ⟨htu, hltu, hidx⟩
  have hts := tableStep hstep
  exact ⟨htu.step hts, Nat.lt_of_lt_of_le hltu hts.created_le, fun i hi => hidx i (htu.index_step hts hltu hi)⟩

/-! ### The allocations -/

/-- The index of a process, while it lives, is one that fits in an address. -/
def Fits (s : Procs n) (h : Handle) : Prop := h < s.created ∧ ∀ i : Nat, s.procs[i]? = some (some h) → i < maxHmemProcs

/-- What a thread that allocates has found out. -/
def Pending (s : Procs n) : AllocPc → Prop
  | .idle => True
  | .check h => h < s.created
  | .alloc h => s.Fits h
  | .ident h veaddr => s.Fits h ∧ veaddr.toNat < 2 ^ 59

/-- An address that was returned carries the index of its process. -/
def Tagged (s : Procs n) (r : Allocation) : Prop :=
  ∀ h, r.proc = some h → h < s.created ∧ r.mem.toNat < 2 ^ 59 ∧ ∃ i < maxHmemProcs, r.addr = hmemAddr r.mem i ∧
    ∀ j : Nat, s.procs[j]? = some (some h) → j = i

structure Allocs (s : Procs n) : Prop where
  pending : ∀ t, s.Pending (s.pc t)
  tagged : ∀ r ∈ s.returned, s.Tagged r

theorem Fits.step (hf : s.Fits h) (ht : s.Table) (hstep : TableStep s l s') : s'.Fits h :=
  ⟨Nat.lt_of_lt_of_le hf.1 hstep.created_le, fun i hi => hf.2 i (ht.index_step hstep hf.1 hi)⟩

theorem Pending.step {p : AllocPc} (hp : s.Pending p) (ht : s.Table) (hstep : TableStep s l s') : s'.Pending p := by
  cases p with
  | idle => trivial
  | check h => exact Nat.lt_of_lt_of_le hp hstep.created_le
  | alloc h => exact Fits.step hp ht hstep
  | ident h veaddr => exact ⟨hp.1.step ht hstep, hp.2⟩

theorem Tagged.step {r : Allocation} (hr : s.Tagged r) (ht : s.Table) (hstep : TableStep s l s') : s'.Tagged r := by
  intro h hproc
  obtain ⟨hlt, hmem, i, hi, haddr, hidx⟩ := hr h hproc
  exact ⟨Nat.lt_of_lt_of_le hlt hstep.created_le, hmem, i, hi, haddr, fun j hj => hidx j (ht.index_step hstep hlt hj)⟩

/-- What a step adds: a thread at a new place, or an address that is returned. -/
structure AllocStep (s s' : Procs n) : Prop where
  pc : ∀ t, s'.pc t = s.pc t ∨ s.Pending (s'.pc t)
  returned : ∀ r ∈ s'.returned, r ∈ s.returned ∨ s.Tagged r

theorem pc_setPc {t t' : Fin n} {p : AllocPc} (hp : s.Pending p) :
    (s.setPc t p).pc t' = s.pc t' ∨ s.Pending ((s.setPc t p).pc t') := by
  by_cases heq : t' = t
  · subst heq
    right
    rwa [show (s.setPc t' p).pc t' = p from Function.update_self _ _ _]
  · exact .inl (Function.update_of_ne heq _ _)

theorem allocStep (ht : s.Table) (ha : s.Allocs) (hstep : s.step l = some s') (hC : allocBelow s l s') : AllocStep s s' := by
  cases l with
  | create =>
    cases hstep
    exact ⟨fun _ => .inl rfl, fun _ hr => .inl hr⟩
  | destroy h =>
    rw [step] at hstep
    split at hstep
    · cases hstep
      exact ⟨fun _ => .inl rfl, fun _ hr => .inl hr⟩
    · cases hstep
  | call t h =>
    rw [step] at hstep
    split at hstep
    · rename_i hcall
      cases hstep
      exact ⟨fun _ => pc_setPc hcall.2, fun _ hr => .inl hr⟩
    · cases hstep
  | callNull mem =>
    cases hstep
    refine ⟨fun _ => .inl rfl, fun r hr => ?_⟩
    rcases List.mem_cons.mp hr with rfl | hold
    · exact .inr fun h hproc => by cases hproc
    · exact .inl hold
  | numProcs t =>
    rw [step] at hstep
    split at hstep
    · rename_i h hpc
      cases hstep
      have hcheck : s.Pending (.check h) := hpc ▸ ha.pending t
      refine ⟨fun _ => pc_setPc ?_, fun _ hr => .inl hr⟩
      split
      · trivial
      · rename_i hle
        -- The table is not larger than the number of identifiers, so neither is the index.
        exact ⟨hcheck, fun i hi => Nat.lt_of_lt_of_le (List.getElem?_eq_some_iff.mp hi).1 (Nat.not_lt.mp hle)⟩
    · cases hstep
  | allocMem t veaddr =>
    rw [step] at hstep
    split at hstep
    · rename_i h hpc
      cases hstep
      have hfits : s.Pending (.alloc h) := hpc ▸ ha.pending t
      refine ⟨fun _ => pc_setPc ?_, fun _ hr => .inl hr⟩
      cases veaddr with
      | none => trivial
      | some a => exact ⟨hfits, hC t a rfl⟩
    · cases hstep
  | identify t =>
    rw [step] at hstep
    split at hstep
    · rename_i h veaddr hpc
      have hident : s.Pending (.ident h veaddr) := hpc ▸ ha.pending t
      split at hstep
      · cases hstep
        exact ⟨fun _ => pc_setPc trivial, fun _ hr => .inl hr⟩
      · rename_i i hfind
        cases hstep
        refine ⟨fun _ => pc_setPc (s := s) trivial, fun r hr => ?_⟩
        rcases List.mem_cons.mp hr with rfl | hold
        · have hi := ht.find.mp hfind
          refine .inr fun h' hproc => ?_
          cases hproc
          exact ⟨hident.1.1, hident.2, i, hident.1.2 i hi, rfl, fun j hj => ht.unique j i h hj hi⟩
        · exact .inl hold
    · cases hstep

theorem Allocs.of_reachable (hs : (procTable n).Reachable allocBelow s) : s.Allocs := by
  refine hs.invariant ?_ ?_
  · rintro s rfl
    exact ⟨fun _ => trivial, fun r hr => by cases hr⟩
  · intro s l s' hs hstep hC ha
    have ht := Table.of_reachable hs
    have hts := tableStep hstep
    obtain ⟨hpc, hreturned⟩ := allocStep ht ha hstep hC
    refine ⟨fun t => ?_, fun r hr => ?_⟩
    · rcases hpc t with heq | hnew
      · rw [heq]
        exact (ha.pending t).step ht hts
      · exact hnew.step ht hts
    · rcases hreturned r hr with hold | hnew
      · exact (ha.tagged r hold).step ht hts
      · exact hnew.step ht hts

/-- While its process lives, an address that was returned, and any address with an offset to it below bit 59, gives
back the process, its identifier and the VE address. -/
theorem Tagged.resolves {r : Allocation} (hr : s.Tagged r) (ht : s.Table) (hproc : r.proc = some h) (hlive : s.Live h)
    {k : Word} (hk : (r.mem + k).toNat < 2 ^ 59) :
    veoIsVeAddr (r.addr + k) = 1 ∧ s.veoGetProcHandleFromHmem (r.addr + k) = some (some h) ∧
      (∃ i, s.getProcIdentifier h = some i ∧ i < maxHmemProcs ∧ veoGetProcIdentifierFromHmem (r.addr + k) = i) ∧
      veoGetHmemAddr (r.addr + k) = r.mem + k := by
  obtain ⟨-, hmem, i, hi, haddr, hidx⟩ := hr h hproc
  obtain ⟨j, hj⟩ := (ht.live h).mp hlive
  have hslot : s.procs[i]? = some (some h) := hidx j hj ▸ hj
  have hsum : r.addr + k = hmemAddr (r.mem + k) i := by rw [haddr, hmemAddr_add hmem hi hk]
  rw [hsum]
  refine ⟨veoIsVeAddr_hmemAddr hk i hi, ?_, ⟨i, ht.find.mpr hslot, hi, veoGetProcIdentifierFromHmem_hmemAddr hk i hi⟩,
    veoGetHmemAddr_hmemAddr hk i hi⟩
  rw [veoGetProcHandleFromHmem, isVe_hmemAddr hk i hi, if_neg (by decide), getProcIdent_hmemAddr hk i hi]
  exact hslot

/-- In every history of processes and allocations, a live process has an index of its own that it keeps, and the
addresses allocated for it lead back to it. -/
theorem proc_identifiers_resolve (hs : (procTable n).Reachable allocBelow s) :
    (∀ h, s.Live h → ∃ i, s.getProcIdentifier h = some i ∧
      (∀ h', s.Live h' → s.getProcIdentifier h' = some i → h' = h) ∧
      ∀ s', (procTable n).Steps allocBelow s s' → s'.Live h → s'.getProcIdentifier h = some i) ∧
    ∀ r ∈ s.returned, ∀ h, r.proc = some h → s.Live h → ∀ k : Word, (r.mem + k).toNat < 2 ^ 59 →
      veoIsVeAddr (r.addr + k) = 1 ∧ s.veoGetProcHandleFromHmem (r.addr + k) = some (some h) ∧
        (∃ i, s.getProcIdentifier h = some i ∧ i < maxHmemProcs ∧ veoGetProcIdentifierFromHmem (r.addr + k) = i) ∧
        veoGetHmemAddr (r.addr + k) = r.mem + k := by
  have ht := Table.of_reachable hs
  refine ⟨fun h hlive => ?_, fun r hr h hproc hlive k hk => ((Allocs.of_reachable hs).tagged r hr).resolves ht hproc hlive hk⟩
  obtain ⟨i, hi⟩ := (ht.live h).mp hlive
  refine ⟨i, ht.find.mpr hi, fun h' _ hfind => ?_, fun s' hsteps hlive' => ?_⟩
  · have hi' := ht.find.mp hfind
    rw [hi] at hi'
    exact (Option.some.inj (Option.some.inj hi')).symm
  · have ht' := Table.of_reachable (hs.steps hsteps)
    obtain ⟨j, hj⟩ := (ht'.live h).mp hlive'
    have hold := ht.index_steps hsteps hlive.1 j hj
    rw [ht'.find, ← ht.unique j i h hold hi]
    exact hj

/-- Two processes are created, the first one is destroyed, a third one takes its slot, and memory is allocated for it. -/
def slotReuseTrace : List (Label 1) :=
  [.create, .create, .destroy 0, .create, .call 0 2, .numProcs 0, .allocMem 0 (some 0x1000), .identify 0]

/-- The process in the reused slot has the identifier 0, and an address inside its allocation leads back to it. -/
theorem proc_identifiers_resolve_reused :
    ∃ s : Procs 1, (procTable 1).Reachable allocBelow s ∧ s.Live 2 ∧ s.getProcIdentifier 2 = some 0 ∧
      s.returned = [⟨some 2, 0x1000, 0x8000000000001000⟩] ∧
      s.veoGetProcHandleFromHmem (0x8000000000001000 + 8) = some (some 2) ∧
      veoGetHmemAddr (0x8000000000001000 + 8) = 0x1000 + 8 := by
  have hrun : ∃ s : Procs 1, (procTable 1).Reachable allocBelow s ∧
      (s.Live 2 && s.getProcIdentifier 2 = some 0 && s.returned = [⟨some 2, 0x1000, 0x8000000000001000⟩]) = true :=
    Machine.exists_reachable_of_runCond (M := procTable 1) (s := Procs.new 1)
      (c := fun _ l _ => match l with | .allocMem _ (some a) => a.toNat < 2 ^ 59 | _ => true)
      (by
        rintro s l s' hc t a rfl
        exact of_decide_eq_true hc) slotReuseTrace _ rfl (by decide +kernel)
  obtain ⟨s, hs, hp⟩ := hrun
  simp only [Bool.and_eq_true, decide_eq_true_eq] at hp
  obtain ⟨⟨hlive, hident⟩, hreturned⟩ := hp
  have hresolve := (proc_identifiers_resolve hs).2 ⟨some 2, 0x1000, 0x8000000000001000⟩ (by simp [hreturned]) 2 rfl hlive 8
    (by decide)
  exact ⟨s, hs, hlive, hident, hreturned, hresolve.2.1, hresolve.2.2.2⟩

end Procs

end Aveo

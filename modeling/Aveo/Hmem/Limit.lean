import Aveo.Hmem.Procs

/-!
# The limit on processes

`veo_alloc_hmem` compares the length of the table with `VEO_MAX_HMEM_PROCS`. The table keeps the holes of the processes
that were destroyed, so its length is the largest number of processes that were alive at the same time.
-/

namespace Aveo

open Lib

namespace Procs

variable {n : Nat} {s s' : Procs n} {l : Label n}

def liveProcs (s : Procs n) : List Handle := (List.range s.created).filter fun h => decide (s.Live h)

theorem mem_liveProcs {h : Handle} : h ∈ s.liveProcs ↔ s.Live h := by
  rw [liveProcs, List.mem_filter, List.mem_range, decide_eq_true_iff]
  exact ⟨fun h => h.2, fun h => ⟨h.1, h⟩⟩

/-- The entries of the table are the live processes. -/
theorem Table.perm_liveProcs (ht : s.Table) : s.procs.reduceOption.Perm s.liveProcs := by
  refine (List.perm_ext_iff_of_nodup ht.unique.nodup_reduceOption (List.nodup_range.filter _)).mpr fun h => ?_
  rw [← liveProcs, mem_liveProcs, ht.live, List.reduceOption_mem_iff, List.mem_iff_getElem?]

/-- Processes are created only while fewer than 16 are alive. -/
def fewProcs : Machine.Cond (Procs n) (Label n) := fun s l _ => l = .create → s.liveProcs.length < maxHmemProcs

theorem length_procs_step (ht : s.Table) (hlen : s.procs.length ≤ maxHmemProcs) (hstep : s.step l = some s')
    (hC : fewProcs s l s') : s'.procs.length ≤ maxHmemProcs := by
  cases tableStep hstep with
  | same hprocs => rwa [hprocs]
  | destroy h hlt hprocs =>
    rw [hprocs, Slots.remove]
    split
    · rwa [List.length_set]
    · exact hlen
  | create hl hprocs =>
    rw [hprocs]
    by_cases hhole : none ∈ s.procs
    · rwa [Slots.length_put_of_hole hhole]
    · rw [Slots.length_put_of_full hhole, ht.perm_liveProcs.length_eq]
      exact hC hl

theorem length_procs_of_few (hs : (procTable n).Reachable fewProcs s) : s.procs.length ≤ maxHmemProcs := by
  refine hs.invariant (I := fun s => s.procs.length ≤ maxHmemProcs) ?_
    fun s l s' hs hstep hC hlen => length_procs_step (.of_reachable hs) hlen hstep hC
  rintro s rfl
  exact Nat.zero_le _

/-- In every history in which processes are created only while fewer than 16 are alive, `veo_alloc_hmem` never fails for
the number of processes: it goes on to the VE allocation, and with the address of that returns an address that carries
the identifier of the live process. -/
theorem hmem_limit_counts_live (hs : (procTable n).Reachable fewProcs s) :
    (∀ t h, s.pc t = .check h → s.step (.numProcs t) = some (s.setPc t (.alloc h))) ∧
    ∀ t h veaddr, s.pc t = .ident h veaddr → s.Live h →
      ∃ i s', i < maxHmemProcs ∧ s.getProcIdentifier h = some i ∧ s.step (.identify t) = some s' ∧
        s'.returned = ⟨some h, veaddr, hmemAddr veaddr i⟩ :: s.returned := by
  have hlen : s.numProcs ≤ maxHmemProcs := length_procs_of_few hs
  have ht := Table.of_reachable hs
  constructor
  · intro t h hpc
    simp only [step, hpc]
    rw [if_neg (Nat.not_lt.mpr hlen)]
  · intro t h veaddr hpc hlive
    obtain ⟨i, hi⟩ := (ht.live h).mp hlive
    have hfind := ht.find.mpr hi
    have hstep : s.step (.identify t) =
        some ({ s with returned := ⟨some h, veaddr, hmemAddr veaddr i⟩ :: s.returned }.setPc t .idle) := by
      simp only [step, hpc, hfind]
      rfl
    exact ⟨i, _, Nat.lt_of_lt_of_le (List.getElem?_eq_some_iff.mp hi).1 hlen, hfind, hstep, rfl⟩

/-- Sixteen processes, one of which was replaced, and an allocation for the new one. -/
def sixteenTrace : List (Label 1) :=
  List.replicate 16 .create ++ [.destroy 5, .create, .call 0 16]

theorem hmem_limit_counts_live_sixteen :
    ∃ s : Procs 1, (procTable 1).Reachable fewProcs s ∧ s.liveProcs.length = 16 ∧
      s.step (.numProcs 0) = some (s.setPc 0 (.alloc 16)) := by
  obtain ⟨s, hs, hp⟩ := Machine.exists_reachable_of_runCond (M := procTable 1) (s := Procs.new 1) (C := fewProcs)
    (c := fun s l _ => l ≠ .create || s.liveProcs.length < maxHmemProcs)
    (by
      rintro s l s' hc rfl
      simpa using hc) sixteenTrace
    (fun s => s.liveProcs.length = 16 && s.pc 0 = .check 16) rfl (by decide +kernel)
  simp only [Bool.and_eq_true, decide_eq_true_eq] at hp
  exact ⟨s, hs, hp.1, (hmem_limit_counts_live hs).1 0 16 hp.2⟩

/-- Seventeen processes are created and all but the first are destroyed again. -/
def seventeenTrace : List (Label 1) :=
  List.replicate 17 .create ++ (List.range 16).map (fun h => .destroy (h + 1)) ++ [.call 0 0]

/-- The only live process has the identifier 0, and an allocation for it is refused for the number of processes. -/
theorem hmem_limit_counts_holes :
    ∃ s : Procs 1, (procTable 1).Reachable Machine.anyStep s ∧ s.liveProcs = [0] ∧ s.getProcIdentifier 0 = some 0 ∧
      s.pc 0 = .check 0 ∧ s.step (.numProcs 0) = some (s.setPc 0 .idle) := by
  obtain ⟨s, hs, hp⟩ := Machine.exists_reachable_of_run (M := procTable 1) (s := Procs.new 1) seventeenTrace
    (fun s => s.liveProcs = [0] && s.getProcIdentifier 0 = some 0 && s.pc 0 = .check 0 && maxHmemProcs < s.numProcs) rfl
    (by decide +kernel)
  simp only [Bool.and_eq_true, decide_eq_true_eq] at hp
  obtain ⟨⟨⟨hlive, hident⟩, hpc⟩, hlimit⟩ := hp
  refine ⟨s, hs, hlive, hident, hpc, ?_⟩
  simp only [step, hpc]
  rw [if_pos hlimit]

end Procs

end Aveo

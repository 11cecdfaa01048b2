import Aveo.Progress.Pipeline
import Aveo.Progress.Replies
import Aveo.Progress.Close

/-!
# After an exception

When a pass receives a reply without a command, `_progress_nolock` throws. The exception leaves the call without the
release of `prog_mtx`, which is not held by a guard. From then on the thread that made the pass is the only one that can
make passes: neither the progress thread nor another user thread gets the mutex again, and no request is completed unless
that thread calls again.
-/

namespace Aveo

open Lib

variable {n : Nat}

/-- A thread holds `prog_mtx` more often than its passes need it. -/
def Stuck (s : State n) (t : Tid n) : Prop := s.passDepth t < s.sh.progMtx.depth t

namespace Stuck

variable {s s' : State n} {t : Tid n}

theorem step {l : Label n} (hB : Basic s) (hstep : s.step l = some s') (h : Stuck s t) : Stuck s' t := by
  have hle := (hB.depthStep (step_cases hstep)).1 t
  unfold Stuck at h ⊢
  omega

/-- No other thread holds `prog_mtx`. -/
theorem passDepth_eq_zero (hB : Basic s) (h : Stuck s t) {u : Tid n} (hu : u ≠ t) : s.passDepth u = 0 := by
  have hdepth : s.sh.progMtx.depth u = 0 := by
    by_contra hne
    exact hu (RecMutex.owner_unique (Nat.pos_of_ne_zero hne) (Nat.zero_lt_of_lt h))
  have hle := hB.depth u
  omega

theorem passOf_eq_none (hB : Basic s) (h : Stuck s t) {u : Tid n} (hu : u ≠ t) : s.passOf u = none := by
  by_contra hne
  obtain ⟨p, hp⟩ := Option.ne_none_iff_exists'.mp hne
  have hpos := State.depth_of_passOf hB hp
  exact hu (RecMutex.owner_unique hpos (Nat.zero_lt_of_lt h))

end Stuck

theorem ExecEffect.thrown {t : Tid n} {sh sh' : Shared n} {r : Regs} {i : Instr} {a : Api} (h : ExecEffect t sh r i sh' a) :
    sh'.thrown = sh.thrown := by
  cases h with
  | quiet h | issue _ h | nowait _ h | take _ h => exact h.thrown
  | push | lock => rfl

/-- The thread whose pass threw keeps the mutex. -/
theorem stuck_of_throw {s s' : State n} {l : Label n} (hB : Basic s) (hstep : s.step l = some s')
    (hold : s.sh.thrown = false) (hnew : s'.sh.thrown = true) (hlive : s'.sh.terminated = false) : ∃ t, Stuck s' t := by
  have hsame : s'.sh.thrown = s.sh.thrown → ∃ t, Stuck s' t := fun heq => by
    rw [heq, hold] at hnew
    cases hnew
  cases step_cases hstep with
  | out _ _ hq => exact hsame hq.thrown
  | execLock | execTest | execUnlock | vhReturn | unlock | call => exact hsame rfl
  | exec _ _ hexec => exact hsame (exec_effect hexec).thrown
  | @pass p env sh out hmain hpass =>
    have hthrown := (passStep_frame hpass).thrown
    cases out with
    | next | ret | startVH => exact hsame hthrown
    | throws => cases hlive
  | @apiPass t env p k sh sh' out a hphase hpass hout =>
    have hframe := passStep_frame hpass
    cases out with
    | next | ret => cases hout; exact hsame hframe.thrown
    | startVH => cases hout
    | throws =>
      simp only [Api.afterPass] at hout
      split at hout <;> cases hout
      · cases hlive
      · have hexact := hB.exact hold t
        refine ⟨t, ?_⟩
        simp only [Stuck, State.passDepth, State.setApi_main, State.setApi_sh, State.setApi_api_self, hframe.progMtx, hexact,
          hphase, Phase.holds]
        omega

theorem stuck_of_thrown {C : Machine.Cond (State n) (Label n)} {s : State n} (h : (context n).Reachable C s)
    (hthrown : s.sh.thrown = true) (hlive : s.sh.terminated = false) : ∃ t, Stuck s t := by
  revert hthrown hlive
  refine h.invariant (I := fun s => s.sh.thrown = true → s.sh.terminated = false → ∃ t, Stuck s t) ?_ ?_
  · rintro s rfl hthrown
    cases hthrown
  · intro s l s' hr hstep _ ih hthrown hlive
    have hB := Basic.of_reachable hr
    cases hold : s.sh.thrown with
    | false => exact stuck_of_throw hB hstep hold hthrown hlive
    | true =>
      have hrunning : s.sh.terminated = false := by
        by_contra hne
        rw [Bool.not_eq_false] at hne
        simp only [context, State.step, hne, if_true] at hstep
        cases hstep
      obtain ⟨t, ht⟩ := ih hold hrunning
      exact ⟨t, ht.step hB hstep⟩

/-- Instructions complete nothing. -/
theorem ExecEffect.completed {t : Tid n} {sh sh' : Shared n} {r : Regs} {i : Instr} {a : Api} (h : ExecEffect t sh r i sh' a)
    (id : ReqId) : sh'.Completed id ↔ sh.Completed id := by
  have hemit : ∀ e : Event n, e.deliveredId = none → e.discardedId = none →
      ((sh.emit e).Completed id ↔ sh.Completed id) := by
    intro e hdel hdis
    simp [Shared.Completed, Shared.emit, deliveredIds, discardedIds, hdel, hdis]
  cases h with
  | quiet h | issue _ h => exact h.completed id
  | nowait _ h => exact (h.completed id).trans (hemit _ rfl rfl)
  | take hentry h => exact (h.completed id).trans (Shared.completed_take hentry id)
  | push => exact hemit (.push _ _ _ _) rfl rfl
  | lock => exact Iff.rfl

/-- A step of a thread that is in no pass completes nothing. -/
theorem completed_of_not_passing {s s' : State n} {l : Label n} (hB : Basic s) (hstep : s.step l = some s')
    (hpass : s.passOf l.thread = none) {id : ReqId} (h : s'.sh.Completed id) : s.sh.Completed id := by
  cases step_cases hstep with
  | out _ _ hq => exact (hq.completed id).mp h
  | execLock | execTest | execUnlock | unlock | call => exact h
  | vhReturn => simpa [Shared.Completed, Shared.emit, deliveredIds, discardedIds, Event.deliveredId, Event.discardedId] using h
  | exec _ _ hexec => exact ((exec_effect hexec).completed id).mp h
  | @pass p env sh out hmain =>
    have hsome : s.passOf none = some p := by
      rw [passOf_none_main hB (by rw [hmain]; rfl), hmain]
      rfl
    cases hsome.symm.trans hpass
  | @apiPass t env p k sh sh' out a hphase =>
    have hsome : s.passOf t = some p := by
      rw [State.passOf_of_busy hB (by simp [hphase]), hphase]
      rfl
    cases hsome.symm.trans hpass

/-- After an exception that did not end the process there is a thread such that no other thread ever makes a pass or is
in `progressExec` again, and that no request is completed in a run to which this thread does not contribute. -/
theorem no_progress_after_exception {s : State n} (h : (context n).Reachable Machine.anyStep s) (hthrown : s.sh.thrown = true)
    (hlive : s.sh.terminated = false) :
    ∃ t : Tid n,
      (∀ s', (context n).Steps Machine.anyStep s s' → ∀ u, u ≠ t → s'.passOf u = none ∧ s'.passDepth u = 0) ∧
      ∀ s', (context n).Steps (notBy t) s s' → ∀ id, s'.sh.Completed id → s.sh.Completed id := by
  obtain ⟨t, ht⟩ := stuck_of_thrown h hthrown hlive
  have hB := Basic.of_reachable h
  have hstuck : ∀ {C s'}, (context n).Steps C s s' → Basic s' ∧ Stuck s' t := fun hrun =>
    hrun.invariant (I := fun s => Basic s ∧ Stuck s t) (fun s l s' hstep _ hs => ⟨hs.1.step hstep, hs.2.step hs.1 hstep⟩) ⟨hB, ht⟩
  refine ⟨t, fun s' hrun u hu => ?_, fun s' hrun id => ?_⟩
  · obtain ⟨hB', hs'⟩ := hstuck hrun
    exact ⟨hs'.passOf_eq_none hB' hu, hs'.passDepth_eq_zero hB' hu⟩
  · induction hrun with
    | refl => exact fun hid => hid
    | tail hrun hstep hne ih =>
      obtain ⟨hB', hs'⟩ := hstuck hrun
      exact fun hid => ih (completed_of_not_passing hB' hstep (hs'.passOf_eq_none hB' hne) hid)

/-- The pass of a user thread receives the reply to a NEWPEER request. -/
theorem no_progress_after_exception_newpeer :
    ∃ s : State 2, (context 2).Reachable Machine.anyStep s ∧ s.sh.thrown = true ∧ s.sh.terminated = false ∧
      ∃ t : Tid 2,
        (∀ s', (context 2).Steps Machine.anyStep s s' → ∀ u, u ≠ t → s'.passOf u = none ∧ s'.passDepth u = 0) ∧
        ∀ s', (context 2).Steps (notBy t) s s' → ∀ id, s'.sh.Completed id → s.sh.Completed id := by
  have hrun : ∃ s : State 2, (context 2).Reachable Machine.anyStep s ∧ (s.sh.thrown && !s.sh.terminated) = true :=
    Machine.exists_reachable_of_run (M := context 2) (s := State.new 2) newpeerTrace _ rfl (by decide +kernel)
  obtain ⟨s, hs, hp⟩ := hrun
  simp only [Bool.and_eq_true, Bool.not_eq_true'] at hp
  exact ⟨s, hs, hp.1, hp.2, no_progress_after_exception hs hp.1 hp.2⟩

end Aveo

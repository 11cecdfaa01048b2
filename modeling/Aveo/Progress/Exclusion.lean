import Aveo.Context.Step

/-!
# Passes exclude each other

Every pass runs under `prog_mtx`. The mutex is recursive, so a VH function on the progress thread can
make passes of its own while the pass that started it waits for it; apart from that at most one pass
is going on at any time. `Basic` is the invariant behind this, together with the shape of the code of
every thread.
-/

namespace Aveo

open Lib

variable {n : Nat}

namespace State

/-- The pass that a thread is in. On the progress thread a pass in a VH function hides the one that
started the function. -/
def passOf (s : State n) : Tid n → Option PassPc
  | none => s.main.passPc.or (s.api none).phase.passPc
  | some i => (s.api (some i)).phase.passPc

/-- How many times a thread holds `prog_mtx` for a pass. -/
def passDepth (s : State n) (t : Tid n) : Nat := (if t = none then s.main.holds else 0) + (s.api t).phase.holds

@[simp] theorem setApi_sh (s : State n) (t : Tid n) (a : Api) : (s.setApi t a).sh = s.sh := rfl

@[simp] theorem setApi_main (s : State n) (t : Tid n) (a : Api) : (s.setApi t a).main = s.main := rfl

@[simp] theorem setApi_api_self (s : State n) (t : Tid n) (a : Api) : (s.setApi t a).api t = a := by
  simp [setApi]

theorem setApi_api_ne (s : State n) {t u : Tid n} (a : Api) (hne : u ≠ t) : (s.setApi t a).api u = s.api u := by
  simp [setApi, hne]

end State

/-- What no step of a pass changes. -/
structure PassFrame (sh sh' : Shared n) (out : PassOut) : Prop where
  seqNo : sh'.seqNo = sh.seqNo
  submitMtx : sh'.submitMtx = sh.submitMtx
  progMtx : sh'.progMtx = sh.progMtx
  holds : sh'.holds = sh.holds
  used : sh.used ⊆ sh'.used
  internal : sh'.internal = sh.internal
  direct : sh'.direct = sh.direct
  thrown : sh'.thrown = if out = .throws then true else sh.thrown

/-- `_peekResult` changes the completion map, the set of request IDs and the log only. -/
theorem Shared.peekResult_eq (sh : Shared n) (t : Tid n) (id : ReqId) :
    ∃ q rem log, (sh.peekResult t id).1 = { sh with comq := q, remReqid := rem, log := log } := by
  unfold Shared.peekResult
  split
  · split
    · exact ⟨_, _, _, rfl⟩
    · exact ⟨_, _, _, rfl⟩
  · exact ⟨_, _, _, rfl⟩

/-- A result function changes what `_peekResult` changes, and the state of the context. -/
theorem Shared.unpack_eq (sh : Shared n) (t : Tid n) (cmd : Command) (m : Reply) :
    ∃ q rem log st, (sh.unpack t cmd m).1 = { sh with comq := q, remReqid := rem, log := log, state := st } := by
  have hprev : ∀ id, ∃ q rem log st,
      (sh.peekPrev t id).1 = { sh with comq := q, remReqid := rem, log := log, state := st } := by
    intro id
    unfold Shared.peekPrev
    split
    · exact ⟨_, _, _, _, rfl⟩
    · obtain ⟨q, rem, log, heq⟩ := sh.peekResult_eq t id
      exact ⟨q, rem, log, sh.state, heq⟩
  unfold Shared.unpack
  cases cmd.closure with
  | simpleCall | generic => cases m <;> exact ⟨_, _, _, _, rfl⟩
  | sendBuff prev => cases m <;> exact hprev prev
  | recvBuff prev =>
    dsimp only
    split
    · exact hprev prev
    · exact ⟨_, _, _, _, rfl⟩
  | callVH | synchronizeFunc | emptyTransfer | finaliser => exact ⟨_, _, _, _, rfl⟩

theorem passStep_frame {x : Bool} {t : Tid n} {sh sh' : Shared n} {p : PassPc} {env : Env} {out : PassOut}
    (h : passStep x t sh p env = some (sh', out)) : PassFrame sh sh' out := by
  have hused : sh.used ⊆ sh.used := List.Subset.refl _
  unfold passStep at h
  split at h
  case h_5 cmd m =>
    obtain ⟨q, rem, log, st, heq⟩ := sh.unpack_eq t cmd m
    cases h
    rw [heq]
    exact ⟨rfl, rfl, rfl, rfl, hused, rfl, rfl, rfl⟩
  case h_15 =>
    split at h <;> cases h
    exact ⟨rfl, rfl, rfl, rfl, List.subset_cons_self _ _, rfl, rfl, rfl⟩
  all_goals (try split at h) <;> (try split at h) <;> cases h <;> exact ⟨rfl, rfl, rfl, rfl, hused, rfl, rfl, rfl⟩

/-! ### The invariant -/

/-- Every thread has the shape of a call, holds `prog_mtx` at least as often as its passes need it and, as
long as no exception was thrown, not more often; and no call goes on beside the progress thread. -/
structure Basic (s : State n) : Prop where
  shaped : ∀ t, (s.api t).Shaped
  depth : ∀ t, s.passDepth t ≤ s.sh.progMtx.depth t
  exact : s.sh.thrown = false → ∀ t, s.sh.progMtx.depth t = s.passDepth t
  calm : s.main.isVH = false → (s.api none).phase = .run ∧ (s.api none).code = []

theorem Call.shaped_start (c : Call) (mark : Nat) : (⟨.run, c.code, c.regs mark⟩ : Api).Shaped := by
  have hregs : (c.regs mark).cur = none ∧ (c.regs mark).guards = 0 := by cases c <;> exact ⟨rfl, rfl⟩
  refine .of_none hregs.1 ?_
  rw [hregs.2]
  exact Shaped.shaped_code c

theorem Api.shaped_afterPass {a a' : Api} {t : Tid n} {k : After} {uncaught : Bool} {sh sh' : Shared n} {out : PassOut}
    (hs : a.Shaped) (hphase : a.phase ≠ .run) (h : a.afterPass t k uncaught sh out = some (sh', a')) :
    a'.Shaped := by
  have hcur := hs.pass hphase
  have hcode := hs.code
  rw [Regs.held_eq_none.mpr hcur] at hcode
  cases out with
  | next p => cases h; exact .of_none hcur hcode
  | ret rv => cases h; exact .of_none hcur hcode
  | startVH cmd => cases h
  | throws =>
    simp only [Api.afterPass] at h
    split at h <;> cases h
    · exact hs
    · exact .of_none hcur (Shaped.shaped_unwind a.regs)

theorem Api.shaped_unlock {a : Api} {rv : Int} {k : After} (hs : a.Shaped) (hphase : a.phase ≠ .run) :
    ({ a with phase := .run, code := k.code rv a.code } : Api).Shaped := by
  have hcur := hs.pass hphase
  have hcode := hs.code
  rw [Regs.held_eq_none.mpr hcur] at hcode
  refine .of_none hcur ?_
  cases k with
  | resume => exact hcode
  | wait id =>
    simp only [After.code]
    split <;> exact .plain rfl hcode

namespace Basic

variable {s s' : State n}

theorem init : Basic (State.new n) where
  shaped _ := .of_none rfl .nil
  depth t := by simp [State.passDepth, State.new, Shared.new, Main.holds, Api.idle, Phase.holds]
  exact _ t := by simp [State.passDepth, State.new, Shared.new, Main.holds, Api.idle, Phase.holds]
  calm _ := ⟨rfl, rfl⟩

theorem shaped_setApi (h : Basic s) (sh : Shared n) {t : Tid n} {a : Api} (ha : a.Shaped) (u : Tid n) :
    (({ s with sh := sh } : State n).setApi t a |>.api u).Shaped := by
  by_cases hu : u = t
  · subst hu
    rwa [State.setApi_api_self]
  · rw [State.setApi_api_ne _ _ hu]
    exact h.shaped u

/-- How `prog_mtx` and the passes of the threads change together. -/
def DepthStep (s s' : State n) : Prop :=
  (∀ t, s'.passDepth t + s.sh.progMtx.depth t ≤ s'.sh.progMtx.depth t + s.passDepth t) ∧
    (s'.sh.thrown = false →
      s.sh.thrown = false ∧ ∀ t, s'.sh.progMtx.depth t + s.passDepth t = s'.passDepth t + s.sh.progMtx.depth t)

theorem depthStep_of_eq (hmtx : s'.sh.progMtx = s.sh.progMtx) (hthrown : s'.sh.thrown = s.sh.thrown)
    (hmain : s'.main.holds = s.main.holds) (hapi : ∀ t, (s'.api t).phase.holds = (s.api t).phase.holds) :
    DepthStep s s' := by
  have hpass : ∀ t, s'.passDepth t = s.passDepth t := by
    intro t
    rw [State.passDepth, State.passDepth, hmain, hapi]
  refine ⟨fun t => ?_, fun h => ⟨hthrown ▸ h, fun t => ?_⟩⟩
  · rw [hmtx, hpass, Nat.add_comm]
  · rw [hmtx, hpass, Nat.add_comm]

/-- A thread takes the mutex for a pass, or releases it after one. -/
theorem depthStep_of_thread {t : Tid n} (hthrown : s'.sh.thrown = s.sh.thrown)
    (hself : s'.sh.progMtx.depth t + s.passDepth t = s'.passDepth t + s.sh.progMtx.depth t)
    (hother : ∀ u, u ≠ t → s'.sh.progMtx.depth u = s.sh.progMtx.depth u ∧ s'.passDepth u = s.passDepth u) :
    DepthStep s s' := by
  have heq : ∀ u, s'.sh.progMtx.depth u + s.passDepth u = s'.passDepth u + s.sh.progMtx.depth u := by
    intro u
    by_cases hu : u = t
    · rw [hu, hself]
    · obtain ⟨hd, hp⟩ := hother u hu
      rw [hd, hp, Nat.add_comm]
  exact ⟨fun u => (heq u).ge, fun h => ⟨hthrown ▸ h, heq⟩⟩

theorem passDepth_setApi_ne {sh : Shared n} {t u : Tid n} {a : Api} (hu : u ≠ t) :
    (({ s with sh := sh } : State n).setApi t a).passDepth u = s.passDepth u := by
  simp only [State.passDepth, State.setApi_main, State.setApi_api_ne _ _ hu]

theorem depthStep_setApi (sh : Shared n) {t : Tid n} {a : Api} (hmtx : sh.progMtx = s.sh.progMtx)
    (hthrown : sh.thrown = s.sh.thrown) (ha : a.phase.holds = (s.api t).phase.holds) :
    DepthStep s (({ s with sh := sh } : State n).setApi t a) := by
  refine depthStep_of_eq hmtx hthrown rfl fun u => ?_
  by_cases hu : u = t
  · rw [hu, State.setApi_api_self, ha]
  · rw [State.setApi_api_ne _ _ hu]

theorem depthStep_exec {t : Tid n} {i : Instr} {sh : Shared n} {a : Api} (hphase : (s.api t).phase = .run)
    (h : ExecEffect t s.sh (s.api t).regs i sh a) : DepthStep s (({ s with sh := sh } : State n).setApi t a) := by
  cases h with
  | quiet h | issue _ h | nowait _ h | take _ h => exact depthStep_setApi _ h.progMtx h.thrown (by rw [hphase])
  | push => exact depthStep_setApi _ rfl rfl (by rw [hphase])
  | lock hlock =>
    refine depthStep_of_thread (t := t) rfl ?_ fun u hu => ⟨RecMutex.depth_tryLock_ne hlock hu, passDepth_setApi_ne hu⟩
    have hdepth := RecMutex.depth_tryLock hlock
    simp only [State.passDepth, State.setApi_sh, State.setApi_main, State.setApi_api_self, hphase, Phase.holds, hdepth]
    omega

theorem depthStep_throws {t : Tid n} {sh : Shared n} {a : Api} (hmtx : sh.progMtx = s.sh.progMtx)
    (hthrown : sh.thrown = true) (ha : a.phase.holds ≤ (s.api t).phase.holds) :
    DepthStep s (({ s with sh := sh } : State n).setApi t a) := by
  refine ⟨fun u => ?_, fun h => ?_⟩
  · simp only [State.passDepth, State.setApi_sh, State.setApi_main, hmtx]
    by_cases hu : u = t
    · rw [hu, State.setApi_api_self]
      omega
    · rw [State.setApi_api_ne _ _ hu]
      exact (Nat.add_comm _ _).le
  · rw [State.setApi_sh, hthrown] at h
    cases h

theorem depthStep_apiPass {x uncaught : Bool} {t : Tid n} {p : PassPc} {env : Env} {k : After} {sh sh' : Shared n}
    {out : PassOut} {a : Api} (hphase : (s.api t).phase = .inPass p k) (h : passStep x t s.sh p env = some (sh, out))
    (hout : (s.api t).afterPass t k uncaught sh out = some (sh', a)) :
    DepthStep s (({ s with sh := sh' } : State n).setApi t a) := by
  obtain ⟨-, -, hmtx, -, -, -, -, hthrown⟩ := passStep_frame h
  cases out with
  | next p | ret rv => cases hout; exact depthStep_setApi _ hmtx hthrown (by rw [hphase]; rfl)
  | startVH cmd => cases hout
  | throws =>
    simp only [Api.afterPass] at hout
    split at hout <;> cases hout
    · exact depthStep_throws hmtx hthrown le_rfl
    · exact depthStep_throws hmtx hthrown (Nat.zero_le _)

theorem depthStep (h : Basic s) {l : Label n} (hstep : StepCase s l s') : DepthStep s s' := by
  cases hstep with
  | out hmain hmain' hq =>
    refine depthStep_of_eq hq.progMtx hq.thrown ?_ fun _ => rfl
    rw [Main.holds_of_isOut hmain]
    exact Main.holds_of_isOut hmain'
  | execLock hmain hlock =>
    refine depthStep_of_thread (t := none) rfl ?_ fun u hu => ⟨RecMutex.depth_tryLock_ne hlock hu, ?_⟩
    · have hdepth := RecMutex.depth_tryLock hlock
      simp only [State.passDepth, hmain, Main.holds, hdepth, if_true]
      omega
    · simp only [State.passDepth, if_neg hu]
  | execTest hmain hmain' =>
    refine depthStep_of_eq rfl rfl ?_ fun _ => rfl
    rcases hmain' with rfl | rfl <;> rw [hmain] <;> rfl
  | execUnlock hmain hlock =>
    refine depthStep_of_thread (t := none) rfl ?_ fun u hu => ⟨RecMutex.depth_unlock_ne hlock hu, ?_⟩
    · have hdepth := RecMutex.depth_unlock hlock
      simp only [State.passDepth, hmain, Main.holds, hdepth, if_true]
      omega
    · simp only [State.passDepth, if_neg hu]
  | @pass p env sh out hmain hpass =>
    obtain ⟨-, -, hmtx, -, -, -, -, hthrown⟩ := passStep_frame hpass
    cases out with
    | next p | ret rv => exact depthStep_of_eq hmtx hthrown (by rw [hmain]; rfl) fun _ => rfl
    | startVH cmd =>
      refine depthStep_of_eq hmtx hthrown (by rw [hmain]; rfl) fun u => ?_
      by_cases hu : u = none
      · subst hu
        have hcalm := (h.calm (by rw [hmain]; rfl)).1
        rw [State.afterPass, State.setApi_api_self, hcalm]
      · rw [State.afterPass, State.setApi_api_ne _ _ hu]
    | throws =>
      refine ⟨fun u => ?_, fun hfalse => ?_⟩
      · simp only [State.afterPass, State.passDepth, hmtx]
        exact (Nat.add_comm _ _).le
      · rw [State.afterPass, hthrown] at hfalse
        cases hfalse
  | vhReturn hmain => exact depthStep_of_eq rfl rfl (by rw [hmain]; rfl) fun _ => rfl
  | exec hphase hcode hexec => exact depthStep_exec hphase (exec_effect hexec)
  | apiPass hphase hpass hout => exact depthStep_apiPass hphase hpass hout
  | @unlock t env rv k m hphase hlock =>
    refine depthStep_of_thread (t := t) rfl ?_ fun u hu => ⟨RecMutex.depth_unlock_ne hlock hu, passDepth_setApi_ne hu⟩
    have hdepth := RecMutex.depth_unlock hlock
    simp only [State.passDepth, State.setApi_sh, State.setApi_main, State.setApi_api_self, hphase, Phase.holds, hdepth]
    omega
  | call hphase => exact depthStep_setApi s.sh rfl rfl (by rw [hphase])

theorem shaped_step (h : Basic s) {l : Label n} (hstep : StepCase s l s') (u : Tid n) : (s'.api u).Shaped := by
  cases hstep with
  | out | execLock | execTest | execUnlock | vhReturn => exact h.shaped u
  | @pass p env sh out hmain hpass =>
    cases out with
    | next p | ret rv | throws => exact h.shaped u
    | startVH cmd =>
      exact h.shaped_setApi sh (.of_none rfl (Shaped.shaped_vhCode cmd.closure)) u
  | @exec t env i rest sh a hphase hcode hexec =>
    have hs := (h.shaped t).code
    rw [hcode] at hs
    exact h.shaped_setApi _ (shaped_exec hs (h.shaped t).req hexec) u
  | @apiPass t env p k sh sh' out a hphase hpass hout =>
    exact h.shaped_setApi _ (Api.shaped_afterPass (h.shaped t) (by rw [hphase]; exact nofun) hout) u
  | @unlock t env rv k m hphase hlock =>
    exact h.shaped_setApi _ (Api.shaped_unlock (h.shaped t) (by rw [hphase]; exact nofun)) u
  | @call t c => exact h.shaped_setApi _ (c.shaped_start _) u

/-- A thread in a call is a user thread, or the progress thread in a VH function. -/
theorem isVH_of_busy (h : Basic s) {t : Tid n} (hbusy : ¬((s.api t).phase = .run ∧ (s.api t).code = [])) :
    t ≠ none ∨ s.main.isVH = true := by
  by_cases ht : t = none
  · subst ht
    refine .inr ?_
    by_contra hvh
    exact hbusy (h.calm (by simpa using hvh))
  · exact .inl ht

theorem calm_setApi (h : Basic s) (sh : Shared n) {t : Tid n} {a : Api} (ht : t ≠ none ∨ s.main.isVH = true) :
    (({ s with sh := sh } : State n).setApi t a).main.isVH = false →
      ((({ s with sh := sh } : State n).setApi t a).api none).phase = .run ∧
        ((({ s with sh := sh } : State n).setApi t a).api none).code = [] := by
  intro hvh
  rcases ht with ht | ht
  · rw [State.setApi_api_ne _ _ (Ne.symm ht)]
    exact h.calm hvh
  · rw [State.setApi_main, ht] at hvh
    cases hvh

theorem calm_step (h : Basic s) {l : Label n} (hstep : StepCase s l s') :
    s'.main.isVH = false → (s'.api none).phase = .run ∧ (s'.api none).code = [] := by
  cases hstep with
  | out hmain hmain' hq =>
    exact fun _ => h.calm (Main.isVH_of_isOut hmain).1
  | execLock hmain | execTest hmain | execUnlock hmain => exact fun _ => h.calm (by rw [hmain]; rfl)
  | @pass p env sh out hmain hpass =>
    have hcalm := h.calm (by rw [hmain]; rfl)
    cases out with
    | next p | ret rv | throws => exact fun _ => hcalm
    | startVH cmd => exact fun hvh => by cases hvh
  | vhReturn hmain hphase hcode => exact fun _ => ⟨hphase, hcode⟩
  | exec hphase hcode hexec => exact h.calm_setApi _ (h.isVH_of_busy (by simp [hcode]))
  | apiPass hphase hpass hout => exact h.calm_setApi _ (h.isVH_of_busy (by simp [hphase]))
  | unlock hphase hlock => exact h.calm_setApi _ (h.isVH_of_busy (by simp [hphase]))
  | @call t c hphase hcode hmay =>
    refine h.calm_setApi s.sh ?_
    cases t with
    | none =>
      refine .inr ?_
      revert hmay
      simp only [State.mayCall]
      cases s.main <;> simp [Main.inUserVH, Main.isVH]
    | some i => exact .inl (fun h => by cases h)

theorem step (h : Basic s) {l : Label n} (hstep : s.step l = some s') : Basic s' := by
  have hcase := step_cases hstep
  obtain ⟨hle, heq⟩ := h.depthStep hcase
  refine ⟨h.shaped_step hcase, fun t => ?_, fun hfalse t => ?_, h.calm_step hcase⟩
  · have := hle t
    have := h.depth t
    omega
  · obtain ⟨hthrown, hdepth⟩ := heq hfalse
    have := hdepth t
    have := h.exact hthrown t
    omega

theorem of_reachable {C : Machine.Cond (State n) (Label n)} (h : (context n).Reachable C s) : Basic s := by
  refine h.invariant (I := Basic) ?_ fun _ _ _ _ hstep _ hs => hs.step hstep
  intro s₀ h0
  rw [h0]
  exact init

end Basic

/-! ### Exclusion -/

namespace State

variable {s : State n}

theorem depth_of_passOf (h : Basic s) {t : Tid n} {p : PassPc} (hp : s.passOf t = some p) :
    0 < s.sh.progMtx.depth t := by
  have hdepth := h.depth t
  suffices 0 < s.passDepth t by omega
  have hphase : ∀ {ph : Phase}, ph.passPc = some p → 0 < ph.holds := by
    intro ph hph
    cases ph with
    | inPass => exact Nat.one_pos
    | run | unlock => cases hph
  cases t with
  | none =>
    simp only [State.passOf, Option.or_eq_some_iff] at hp
    rcases hp with hp | ⟨-, hp⟩
    · cases hmain : s.main with
      | pass p' =>
        simp only [State.passDepth, hmain, Main.holds, if_true]
        omega
      | _ => rw [hmain] at hp; cases hp
    · exact Nat.add_pos_right _ (hphase hp)
  | some i => exact Nat.add_pos_right _ (hphase hp)

/-- Two threads are not in a pass at the same time. -/
theorem passOf_unique (h : Basic s) {t u : Tid n} {p p' : PassPc} (hp : s.passOf t = some p)
    (hp' : s.passOf u = some p') : t = u :=
  RecMutex.owner_unique (depth_of_passOf h hp) (depth_of_passOf h hp')

end State

end Aveo

import Aveo.Progress.Order

/-!
# Closing a context

`close` sets the termination flag, wakes the progress thread and joins it. The progress thread looks at the
flag only when it returns from `waitRequest`. If it is in `progressExec` when the flag is set, it goes on until
the request queue and the map of commands in flight are empty; if it is not, it ends at once and leaves
behind what is queued or in flight.
-/

namespace Aveo

open Lib

variable {n : Nat}

/-! ### The termination flag and the condition variable -/

/-- What concerns the sleep of the progress thread is unchanged. -/
structure SameWait (q q' : CommQueue) : Prop where
  terminateFlag : q'.terminateFlag = q.terminateFlag
  reqFliCond : q'.reqFliCond = q.reqFliCond

theorem sameWait_peekCompletion {q q' : CommQueue} {id : ReqId} {c : Command} (h : q.peekCompletion id = some (c, q')) :
    SameWait q q' := by
  obtain ⟨-, rfl⟩ := CommQueue.peekCompletion_eq_some.mp h
  exact ⟨rfl, rfl⟩

theorem sameWait_popInFlight {q q' : CommQueue} {req : Int} {c : Command} (h : q.popInFlight req = some (c, q')) :
    SameWait q q' := by
  obtain ⟨-, rfl⟩ := CommQueue.popInFlight_eq_some.mp h
  exact ⟨rfl, rfl⟩

theorem sameWait_tryPopRequest {q q' : CommQueue} {c : Command} (h : q.tryPopRequest = some (c, q')) : SameWait q q' := by
  obtain ⟨rest, -, rfl⟩ := CommQueue.tryPopRequest_eq_some h
  exact ⟨rfl, rfl⟩

theorem sameWait_peekResult (sh : Shared n) (t : Tid n) (id : ReqId) : SameWait sh.comq (sh.peekResult t id).1.comq := by
  unfold Shared.peekResult
  split
  · split
    · rename_i c q hpeek
      exact sameWait_peekCompletion hpeek
    · exact ⟨rfl, rfl⟩
  · exact ⟨rfl, rfl⟩

theorem sameWait_unpack (sh : Shared n) (t : Tid n) (cmd : Command) (m : Reply) :
    SameWait sh.comq (sh.unpack t cmd m).1.comq := by
  have hprev : ∀ id, SameWait sh.comq (sh.peekPrev t id).1.comq := by
    intro id
    unfold Shared.peekPrev
    split
    · exact ⟨rfl, rfl⟩
    · exact sameWait_peekResult sh t id
  unfold Shared.unpack
  cases cmd.closure with
  | simpleCall | generic => cases m <;> exact ⟨rfl, rfl⟩
  | sendBuff prev => cases m <;> exact hprev prev
  | recvBuff prev =>
    dsimp only
    split
    · exact hprev prev
    · exact ⟨rfl, rfl⟩
  | callVH | synchronizeFunc | emptyTransfer | finaliser => exact ⟨rfl, rfl⟩

theorem passStep_wait {x : Bool} {t : Tid n} {sh sh' : Shared n} {p : PassPc} {env : Env} {out : PassOut}
    (h : passStep x t sh p env = some (sh', out)) : SameWait sh.comq sh'.comq := by
  cases p with
  | unpack cmd m => cases env <;> cases h; exact sameWait_unpack sh t cmd m
  | received cmd failed => cases env <;> cases h; cases cmd.nowait <;> exact ⟨rfl, rfl⟩
  | reply req m =>
    cases env with
    | tau =>
      simp only [passStep] at h
      split at h <;> cases h
      · exact ⟨rfl, rfl⟩
      · rename_i cmd q hpop
        exact sameWait_popInFlight hpop
    | _ => cases h
  | cancelInflight =>
    cases env with
    | pick req =>
      simp only [passStep] at h
      split at h <;> cases h
      rename_i cmd q hpop
      exact sameWait_popInFlight hpop
    | tau =>
      simp only [passStep] at h
      split at h <;> cases h
      exact ⟨rfl, rfl⟩
    | _ => cases h
  | cancelRequest | tryPop =>
    cases env with
    | tau =>
      simp only [passStep] at h
      split at h <;> cases h
      · exact ⟨rfl, rfl⟩
      · rename_i cmd q hpop
        exact sameWait_tryPopRequest hpop
    | _ => cases h
  | poll | popped | idle =>
    cases env <;> simp only [passStep] at h <;> (try split at h) <;> (try split at h) <;> cases h <;> exact ⟨rfl, rfl⟩
  | failed | cancelledRequest | cancelledInflight | submitted | putBack | rejected | executed =>
    cases env <;> cases h
    exact ⟨rfl, rfl⟩

/-- What an instruction does to the sleep of the progress thread. -/
inductive WaitExec (i : Instr) (q q' : CommQueue) : Prop
  | same (h : SameWait q q')
  | notify (hi : i = .notifyAll ∨ ∃ id, i = .waitNotify id) (h : q' = q.notifyAll)
  | terminate (hi : i = .terminate) (h : q' = q.terminate)

theorem exec_wait {t : Tid n} {exited : Bool} {sh sh' : Shared n} {r : Regs} {rest : List Instr} {i : Instr} {env : Env}
    {a : Api} (h : exec t exited sh r rest i env = some (sh', a)) : WaitExec i sh.comq sh'.comq := by
  cases i with
  | notifyAll => cases env <;> cases h; exact .notify (.inl rfl) rfl
  | waitNotify id => cases env <;> cases h; exact .notify (.inr ⟨id, rfl⟩) rfl
  | terminate => cases env <;> cases h; exact .terminate rfl rfl
  | peekResult id | finPeek sub id =>
    cases env <;> cases h
    exact .same (sameWait_peekResult sh t id)
  | waitPeek id =>
    cases env with
    | tau =>
      simp only [exec] at h
      split at h <;> cases h <;> exact .same (sameWait_peekResult sh t id)
    | _ => cases h
  | waitCompletion id =>
    cases env with
    | tau =>
      simp only [exec, Option.map_eq_some_iff, Prod.exists] at h
      obtain ⟨c, q, hpeek, heq⟩ := h
      cases heq
      exact .same (sameWait_peekCompletion hpeek)
    | _ => cases h
  | setNowait | pushRequest | lockSubmit | unlockSubmit | reqBlockBegin | reqBlockEnd =>
    cases env with
    | tau =>
      obtain ⟨c, -, heq⟩ := Option.map_eq_some_iff.mp h
      cases heq
      exact .same ⟨rfl, rfl⟩
    | _ => cases h
  | remInsert | clearPrev | setExit | unlockCtx | syncReturn | save =>
    cases env <;> cases h
    exact .same ⟨rfl, rfl⟩
  | isAlive | issue | progress | join | syncWait | lockCtx | progressTry | peekTry | waitTry | waitCheck | waitErase
  | newpeerSend | newpeerWait =>
    cases env <;> simp only [exec] at h <;> (try split at h) <;> cases h <;> exact .same ⟨rfl, rfl⟩

/-- The termination flag is never reset. -/
theorem terminateFlag_step {s s' : State n} (hcs : CursorStep s s') (h : s.sh.comq.terminateFlag = true) :
    s'.sh.comq.terminateFlag = true := by
  cases hcs with
  | pass hp hpass hsh =>
    rw [hsh]
    exact (passStep_wait hpass).terminateFlag.trans h
  | vhReturn hmain hcmd hsh =>
    rw [hsh]
    exact h
  | exec hcode heff hapi hcur hvh hexec =>
    cases exec_wait hexec with
    | same hsame => exact hsame.terminateFlag.trans h
    | notify hi heq =>
      rw [heq, CommQueue.notifyAll_terminateFlag]
      exact h
    | terminate hi heq =>
      rw [heq]
      rfl
  | quiet hq hcur hvh hsh =>
    rw [hsh]
    exact h

/-! ### The progress thread after the flag is set -/

/-- The progress thread is in `progressExec` and has not found the queue inactive. -/
def Main.drains : Main → Bool
  | .execLock | .execTest | .pass _ | .vh _ => true
  | _ => false

/-- Nothing is queued or in flight. -/
def CommQueue.Drained (q : CommQueue) : Prop := q.request = [] ∧ q.inflight.isEmpty = true

theorem CommQueue.drained_of_not_isActive {q : CommQueue} (h : q.isActive = false) : q.Drained := by
  simp only [CommQueue.isActive, Bool.or_eq_false_iff, Bool.not_eq_false'] at h
  exact ⟨List.isEmpty_iff.mp h.2, h.1⟩

def Label.thread : Label n → Tid n
  | .main _ => none
  | .api t _ | .call t _ => t

/-- The steps that a thread does not take. -/
def notBy (t : Tid n) : Machine.Cond (State n) (Label n) := fun _ l _ => l.thread ≠ t

/-- The progress thread leaves `progressExec` only when nothing is queued or in flight. -/
theorem drains_step {s s' : State n} {l : Label n} (hstep : s.step l = some s') (h : s.main.drains = true) :
    s'.main.drains = true ∨ s'.sh.comq.Drained := by
  unfold State.step at hstep
  split at hstep
  · cases hstep
  · cases l with
    | api t env =>
      obtain ⟨r, -, rfl⟩ := Option.map_eq_some_iff.mp hstep
      exact .inl h
    | call t c =>
      dsimp only at hstep
      split at hstep <;> cases hstep
      exact .inl h
    | main env =>
      dsimp only [mainStep] at hstep
      split at hstep
      · rename_i hmain
        rw [hmain] at h
        cases h
      · rename_i hmain
        rw [hmain] at h
        cases h
      · obtain ⟨m, -, rfl⟩ := Option.map_eq_some_iff.mp hstep
        exact .inl rfl
      · cases hstep
        cases hactive : s.sh.comq.isActive with
        | true => exact .inl rfl
        | false => exact .inr (CommQueue.drained_of_not_isActive hactive)
      · rename_i p hmain
        obtain ⟨⟨sh, out⟩, -, rfl⟩ := Option.map_eq_some_iff.mp hstep
        cases out with
        | next | ret | startVH => exact .inl rfl
        | throws => exact .inl h
      · split at hstep <;> cases hstep
        exact .inl rfl
      · rename_i hmain
        rw [hmain] at h
        cases h
      · rename_i hmain
        rw [hmain] at h
        cases h
      · cases hstep

/-- Outside `progressExec` the progress thread goes to its end and touches nothing. -/
theorem out_step {s s' : State 1} {l : Label 1} (hB : Basic s) (hstep : s.step l = some s') (hl : l.thread ≠ some 0)
    (hflag : s.sh.comq.terminateFlag = true) (h : s.main.drains = false) :
    s'.main.drains = false ∧ s'.sh.comq.request = s.sh.comq.request ∧ s'.sh.comq.inflight = s.sh.comq.inflight := by
  have hvh : s.main.isVH = false := by
    cases hmain : s.main with
    | vh => rw [hmain] at h; cases h
    | _ => rfl
  have hnone : ∀ {t : Tid 1}, t ≠ some 0 → t = none := by
    intro t ht
    cases t with
    | none => rfl
    | some i => exact absurd (congrArg some (Subsingleton.elim i 0)) ht
  unfold State.step at hstep
  split at hstep
  · cases hstep
  · cases l with
    | api t env =>
      obtain ⟨r, happ, -⟩ := Option.map_eq_some_iff.mp hstep
      rw [hnone (t := t) hl] at happ
      obtain ⟨hphase, hcode⟩ := hB.calm hvh
      simp [apiStep, hphase, hcode] at happ
    | call t c =>
      dsimp only at hstep
      split at hstep
      · rename_i hidle
        rw [hnone (t := t) hl] at hidle
        have huser : s.main.inUserVH = true := hidle.2.2
        cases hmain : s.main with
        | vh => rw [hmain] at hvh; cases hvh
        | _ => rw [hmain] at huser; cases huser
      · cases hstep
    | main env =>
      dsimp only [mainStep] at hstep
      split at hstep
      · rw [hflag] at hstep
        simp only [Bool.not_true, Bool.and_false, Bool.false_eq_true, if_false, if_true] at hstep
        cases hstep
        exact ⟨rfl, rfl, rfl⟩
      · split at hstep <;> cases hstep
        rw [hflag]
        exact ⟨rfl, rfl, rfl⟩
      · rename_i hmain
        rw [hmain] at h
        cases h
      · rename_i hmain
        rw [hmain] at h
        cases h
      · rename_i hmain
        rw [hmain] at h
        cases h
      · rename_i hmain
        rw [hmain] at h
        cases h
      · obtain ⟨m, -, rfl⟩ := Option.map_eq_some_iff.mp hstep
        exact ⟨rfl, rfl, rfl⟩
      · cases hstep
        split <;> exact ⟨rfl, rfl, rfl⟩
      · cases hstep

/-- A thread stands still while others take steps. -/
theorem api_notBy {s s' : State n} {l : Label n} {i : Fin n} (hstep : s.step l = some s') (hl : l.thread ≠ some i) :
    s'.api (some i) = s.api (some i) := by
  cases step_cases hstep with
  | pass hmain hpass =>
    rename_i out
    cases out with
    | startVH => exact State.setApi_api_ne _ _ (Option.some_ne_none i)
    | _ => rfl
  | exec | apiPass | unlock | call => exact State.setApi_api_ne _ _ (Ne.symm hl)
  | _ => rfl

/-- What holds from the moment `close` sets the flag until the progress thread ends, `d` telling whether the
progress thread drains the queue. -/
structure Closing (d : Prop) (a : Api) (s : State 1) : Prop where
  reachable : (context 1).Reachable Machine.anyStep s
  flag : s.sh.comq.terminateFlag = true
  waits : s.api (some 0) = a
  drained : d → s.main.drains = true ∨ s.sh.comq.Drained
  dropped : ¬ d → s.main.drains = false ∧ ¬ s.sh.comq.Drained

theorem Closing.start {d : Prop} {a : Api} {s : State 1} (h : (context 1).Reachable Machine.anyStep s)
    (hflag : s.sh.comq.terminateFlag = true) (hwaits : s.api (some 0) = a)
    (hd : d ↔ s.sh.comq.Drained ∨ s.main.drains = true) : Closing d a s := by
  refine ⟨h, hflag, hwaits, fun h => (hd.mp h).symm, fun hnot => ?_⟩
  obtain ⟨hdr, hmain⟩ := not_or.mp fun h => hnot (hd.mpr h)
  exact ⟨Bool.eq_false_iff.mpr hmain, hdr⟩

theorem Closing.step {d : Prop} {a : Api} {s s' : State 1} {l : Label 1} (h : Closing d a s)
    (hstep : (context 1).step s l = some s') (hl : notBy (some 0) s l s') : Closing d a s' := by
  have hB := Basic.of_reachable h.reachable
  have hout : s.main.drains = false → s'.main.drains = false ∧ (s'.sh.comq.Drained ↔ s.sh.comq.Drained) := by
    intro hmain
    obtain ⟨hmain', hreq, hinf⟩ := out_step hB hstep hl h.flag hmain
    exact ⟨hmain', by rw [CommQueue.Drained, CommQueue.Drained, hreq, hinf]⟩
  refine ⟨h.reachable.step hstep trivial, terminateFlag_step (cursorStep hB hstep) h.flag,
    (api_notBy hstep hl).trans h.waits, fun hd => ?_, fun hd => ?_⟩
  · cases hmain : s.main.drains with
    | true => exact drains_step hstep hmain
    | false =>
      refine .inr ((hout hmain).2.mpr ((h.drained hd).resolve_left ?_))
      rw [hmain]
      exact Bool.false_ne_true
  · obtain ⟨hmain, hnot⟩ := h.dropped hd
    exact ⟨(hout hmain).1, fun hdr => hnot ((hout hmain).2.mp hdr)⟩

/-- When nothing is queued, in flight or in a hand, every request is completed. -/
theorem Tracked.completed_of_drained {s : State n} (h : Tracked s) (hdrained : s.sh.comq.Drained)
    (hpass : s.cursor = none) (hvh : s.main.vhCmd = none) : ∀ id ∈ pushedIds s.sh.log, s.sh.Completed id := by
  intro id hid
  rw [← Multiset.mem_coe, h.pushed_eq] at hid
  rcases Multiset.mem_add.mp hid with hid | hid
  · obtain ⟨cmd, hcmd, -⟩ := hands_of_mem hid
    rcases State.hand_cases h.basic hcmd with ⟨p, hp, -⟩ | hcmd
    · rw [hpass] at hp
      cases hp
    · rw [hvh] at hcmd
      cases hcmd
  · rcases mem_shared_ids.mp hid with hid | hid | hid
    · rw [CommQueue.requestIds, hdrained.1] at hid
      cases hid
    · rw [CommQueue.inflightIds, BlockingMap.values, List.isEmpty_iff.mp hdrained.2] at hid
      cases hid
    · exact hid

/-- When `close` has joined the progress thread, nothing is queued or in flight and every request is completed,
exactly if at the moment it set the termination flag nothing was queued or in flight or the progress thread was
inside `progressExec`. -/
theorem close_drains_iff {s s₁ s₂ s₃ : State 1} {rest : List Instr} (h : (context 1).Reachable Machine.anyStep s)
    (hphase : (s.api (some 0)).phase = .run) (hcode : (s.api (some 0)).code = .terminate :: .join :: rest)
    (hterm : (context 1).step s (.api (some 0) .tau) = some s₁) (hrun : (context 1).Steps (notBy (some 0)) s₁ s₂)
    (hjoin : (context 1).step s₂ (.api (some 0) .tau) = some s₃) :
    (s₃.sh.comq.Drained ∧ ∀ id ∈ pushedIds s₃.sh.log, s₃.sh.Completed id) ↔
      s.sh.comq.Drained ∨ s.main.drains = true := by
  -- The call sets the flag and waits.
  obtain ⟨sh, a, hexec, rfl⟩ := exec_of_step hterm hphase hcode
  cases hexec
  have hstart := Closing.start (d := s.sh.comq.Drained ∨ s.main.drains = true) (h.step hterm trivial) rfl
    (State.setApi_api_self _ _ _) Iff.rfl
  have hend := hrun.invariant (I := Closing _ _) (fun _ _ _ hstep hl hc => hc.step hstep hl) hstart
  -- The join returns when the progress thread has ended, and changes nothing.
  obtain ⟨sh, a, hexec, rfl⟩ := exec_of_step hjoin (by rw [hend.waits]) (by rw [hend.waits])
  obtain ⟨hexit, rfl⟩ : s₂.main = .exited ∧ sh = s₂.sh := by
    dsimp only [exec] at hexec
    split at hexec <;> cases hexec
    rename_i hexit
    exact ⟨of_decide_eq_true hexit, rfl⟩
  have hmain : s₂.main.drains = false := by
    rw [hexit]
    rfl
  refine ⟨fun hdr => ?_, fun hd => ?_⟩
  · by_contra hnot
    exact (hend.dropped hnot).2 hdr.1
  · have hdr : s₂.sh.comq.Drained := (hend.drained hd).resolve_left (by rw [hmain]; exact Bool.false_ne_true)
    have hB := Basic.of_reachable hend.reachable
    refine ⟨hdr, (Tracked.of_reachable hend.reachable).completed_of_drained hdr (State.cursor_eq_none fun t => ?_)
      (by rw [hexit]; rfl)⟩
    cases t with
    | none =>
      rw [passOf_none_main hB (by rw [hexit]; rfl), hexit]
      rfl
    | some i =>
      rw [State.passOf, Subsingleton.elim i 0, hend.waits]
      rfl

/-- A VH request is queued, the progress thread has left `waitRequest` for it, and the thread is about to set the flag. -/
def closeBusyTrace : List (Label 1) :=
  List.flatten [[.call (some 0) .callVHAsync], List.replicate 7 (.api (some 0) .tau), [.main .tau, .call (some 0) .close]]

/-- The progress thread runs the VH function, finds the queue inactive and ends. -/
def drainTrace : List (Label 1) :=
  List.flatten [List.replicate 5 (.main .tau), [.main (.vhReturn 0)], List.replicate 8 (.main .tau)]

theorem close_drains_busy :
    ∃ s s₃ : State 1, s.sh.comq.requestIds = [0] ∧ s₃.main = .exited ∧
      (s₃.sh.comq.Drained ∧ ∀ id ∈ pushedIds s₃.sh.log, s₃.sh.Completed id) := by
  have hrun : ∃ s s₁ s₂ : State 1, (context 1).Reachable Machine.anyStep s ∧
      (context 1).step s (.api (some 0) .tau) = some s₁ ∧ (context 1).Steps (notBy (some 0)) s₁ s₂ ∧
      (decide (s.sh.comq.requestIds = [0] ∧ s.main.drains = true ∧ (s.api (some 0)).phase = .run ∧
          (s.api (some 0)).code = .terminate :: .join :: ifAlive [.setExit]) &&
        ((context 1).step s₂ (.api (some 0) .tau)).any fun s₃ => s₃.main = .exited) = true :=
    Machine.exists_step_steps_of_run (M := context 1) (s := State.new 1) (c := fun _ l _ => decide (l.thread ≠ some 0))
      (fun _ _ _ hc => of_decide_eq_true hc) closeBusyTrace _ drainTrace _ rfl (by decide +kernel)
  obtain ⟨s, s₁, s₂, hs, hterm, hsteps, hp⟩ := hrun
  obtain ⟨hp, hjoin⟩ := Bool.and_eq_true_iff.mp hp
  obtain ⟨hreq, hmain, hphase, hcode⟩ := of_decide_eq_true hp
  obtain ⟨s₃, hjoin, hexit⟩ := (Option.any_eq_true _ _).mp hjoin
  exact ⟨s, s₃, hreq, of_decide_eq_true hexit, (close_drains_iff hs hphase hcode hterm hsteps hjoin).mpr (.inr hmain)⟩

/-- The flag is set before the progress thread tests the queue. -/
def closeEarlyTrace : List (Label 1) :=
  List.flatten [[.call (some 0) .callVHAsync], List.replicate 7 (.api (some 0) .tau), [.call (some 0) .close,
    .api (some 0) .tau, .main .tau, .api (some 0) .tau]]

/-- A live context has been closed and the progress thread joined, and the request is still in the queue. -/
theorem close_drops_request :
    ∃ s : State 1, (context 1).Reachable Machine.anyStep s ∧ (s.api (some 0)).code = ifAlive [.setExit] ∧
      s.main = .exited ∧ s.sh.state = .running ∧ s.sh.comq.requestIds = [0] ∧ ¬ s.sh.Completed 0 := by
  have hrun : ∃ s : State 1, (context 1).Reachable Machine.anyStep s ∧
      decide ((s.api (some 0)).code = ifAlive [.setExit] ∧ s.main = .exited ∧ s.sh.state = .running ∧
        s.sh.comq.requestIds = [0] ∧ ¬ s.sh.Completed 0) = true :=
    Machine.exists_reachable_of_run (M := context 1) (s := State.new 1) closeEarlyTrace _ rfl (by decide +kernel)
  obtain ⟨s, hs, hp⟩ := hrun
  exact ⟨s, hs, of_decide_eq_true hp⟩

end Aveo

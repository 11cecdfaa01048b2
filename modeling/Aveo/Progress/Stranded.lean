import Aveo.Progress.Close
import Aveo.Progress.Retrieval

/-!
# Requests after a failure

A pass that fails sets the state to VEO_STATE_EXIT and cancels what is queued and in flight. From then on nothing comes
into the queue by itself, but a thread that has passed the test `is_alive` before still pushes its request. If the
progress thread has ended by then, a VH request stays in the queue for good.
-/

namespace Aveo

open Lib

variable {n : Nat}

namespace PassPc

/-- On the way from a failure to the end of the request queue. -/
def failing : PassPc → Bool
  | .received _ b => b
  | .failed | .cancelRequest | .cancelledRequest _ => true
  | _ => false

/-- The request queue has been cancelled, and what is in flight is being cancelled. -/
def cancelling : PassPc → Bool
  | .cancelInflight | .cancelledInflight _ => true
  | _ => false

/-- Where a pass can be that finds nothing queued or in flight. -/
def calm : PassPc → Bool
  | .poll | .reply _ _ | .tryPop | .idle | .executed _ => true
  | _ => false

/-- With a command from the request queue that is neither submitted nor put back. -/
def outgoing : PassPc → Bool
  | .popped _ | .submitted _ | .putBack _ _ | .rejected _ => true
  | _ => false

end PassPc

/-- A context in the state VEO_STATE_EXIT: the pass is about to cancel everything, or has done so. -/
inductive Cancelled (q : CommQueue) (cur : Option PassPc) : Prop
  | failing {p : PassPc} (hcur : cur = some p) (hp : p.failing = true)
  | cancelling {p : PassPc} (hcur : cur = some p) (hp : p.cancelling = true) (hrequest : q.request = [])
  | drained (hdrained : q.Drained) (hcalm : ∀ p, cur = some p → p.calm = true)

theorem Cancelled.of_calm {q : CommQueue} {p : PassPc} (h : Cancelled q (some p)) (hf : p.failing = false)
    (hc : p.cancelling = false) : q.Drained ∧ p.calm = true := by
  cases h with
  | failing hcur hp =>
    cases hcur
    rw [hf] at hp
    cases hp
  | cancelling hcur hp =>
    cases hcur
    rw [hc] at hp
    cases hp
  | drained hdrained hcalm => exact ⟨hdrained, hcalm p rfl⟩

/-- No part of a pass that has a command from the queue in its hand is reached after the failure. -/
theorem Cancelled.false_of_busy {q : CommQueue} {p : PassPc} (h : Cancelled q (some p)) (hf : p.failing = false)
    (hc : p.cancelling = false) (hp : p.calm = false) : False := by
  have := (h.of_calm hf hc).2
  rw [hp] at this
  cases this

theorem Cancelled.request_of_cancelling {q : CommQueue} {p : PassPc} (h : Cancelled q (some p))
    (hp : p.cancelling = true := by rfl) : q.request = [] := by
  cases h with
  | failing hcur hf =>
    cases hcur
    cases p <;> first | exact (Bool.false_ne_true hp).elim | exact (Bool.false_ne_true hf).elim
  | cancelling _ _ hrequest => exact hrequest
  | drained hdrained => exact hdrained.1

theorem Cancelled.calm_next {q q' : CommQueue} {cur : Option PassPc} (h : q.Drained) (hreq : q'.request = q.request)
    (hinf : q'.inflight = q.inflight) (hcalm : ∀ p, cur = some p → p.calm = true) : Cancelled q' cur := by
  refine .drained ⟨hreq.trans h.1, ?_⟩ hcalm
  rw [hinf]
  exact h.2

theorem Cancelled.over {q : CommQueue} (h : q.Drained) : Cancelled q none := .drained h fun _ hcur => by cases hcur

theorem CommQueue.Drained.popInFlight {q : CommQueue} (h : q.Drained) (req : Int) : q.popInFlight req = none := by
  have hkeys : q.inflight.keys = [] := BlockingMap.isEmpty_iff.mp h.2
  rw [CommQueue.popInFlight, BlockingMap.tryFind_eq_none.mpr (by rw [hkeys]; exact List.not_mem_nil), Option.map_none]

/-- A result function changes the state only if it fails. -/
theorem unpack_state (sh : Shared n) (t : Tid n) (cmd : Command) (m : Reply) :
    (sh.unpack t cmd m).1.state = sh.state ∨ (sh.unpack t cmd m).2.2 = true := by
  have hprev : ∀ id, (sh.peekPrev t id).1.state = sh.state := by
    intro id
    unfold Shared.peekPrev
    split
    · rfl
    · unfold Shared.peekResult
      split
      · split <;> rfl
      · rfl
  have hresult : (sh.unpackResult cmd m).1.state = sh.state ∨ (sh.unpackResult cmd m).2.2 = true := by
    unfold Shared.unpackResult
    split
    · exact .inl rfl
    · exact .inr rfl
  unfold Shared.unpack
  cases cmd.closure with
  | simpleCall => exact hresult
  | generic => cases m <;> first | exact .inl rfl | exact hresult
  | sendBuff prev => cases m <;> exact .inl (hprev prev)
  | recvBuff prev =>
    dsimp only
    split
    · exact .inl (hprev prev)
    · exact .inr rfl
  | callVH | synchronizeFunc | emptyTransfer | finaliser => exact .inl rfl

/-- What a pass does with a command that it took from the queue does not change the state. -/
theorem passStep_state_of_busy {x : Bool} {t : Tid n} {sh sh' : Shared n} {p : PassPc} {env : Env} {out : PassOut}
    (h : passStep x t sh p env = some (sh', out)) (hp : p.outgoing = true) : sh'.state = sh.state := by
  cases p <;> cases hp <;> cases env <;> simp only [passStep, reduceCtorEq] at h <;>
    first
    | (cases h; rfl)
    | (split at h <;> first | (cases h; rfl) | (split at h <;> cases h <;> rfl) | cases h)

/-- A step of a pass keeps the invariant of a context in the state VEO_STATE_EXIT. -/
theorem cancelled_pass {x : Bool} {t : Tid n} {sh sh' : Shared n} {p : PassPc} {env : Env} {out : PassOut}
    (h : passStep x t sh p env = some (sh', out)) (hold : sh.state = .exit → Cancelled sh.comq (some p))
    (hexit : sh'.state = .exit) :
    Cancelled sh'.comq out.passPc ∧ (out = .throws → Cancelled sh'.comq (some p)) := by
  cases p with
  | poll =>
    cases env with
    | reply req m =>
      simp only [passStep] at h
      split at h <;> cases h
      exact ⟨.calm_next ((hold hexit).of_calm rfl rfl).1 rfl rfl (by rintro p ⟨⟩; rfl), (fun h => by cases h)⟩
    | noSlot => cases h; exact ⟨.over ((hold hexit).of_calm rfl rfl).1, (fun h => by cases h)⟩
    | tau => cases h; exact ⟨.calm_next ((hold hexit).of_calm rfl rfl).1 rfl rfl (by rintro p ⟨⟩; rfl), (fun h => by cases h)⟩
    | _ => cases h
  | reply req m =>
    cases env with
    | tau =>
      simp only [passStep] at h
      split at h <;> cases h
      · have hdr := ((hold hexit).of_calm rfl rfl).1
        exact ⟨.over hdr, fun _ => .calm_next hdr rfl rfl (by rintro p ⟨⟩; rfl)⟩
      · rename_i cmd q hpop
        rw [((hold hexit).of_calm rfl rfl).1.popInFlight] at hpop
        cases hpop
    | _ => cases h
  | unpack cmd m =>
    cases env <;> cases h
    rcases unpack_state sh t cmd m with hsame | hfailed
    · exact absurd (hold (hsame.symm.trans hexit)) fun hc => hc.false_of_busy rfl rfl rfl
    · exact ⟨.failing rfl hfailed, (fun h => by cases h)⟩
  | received cmd failed =>
    cases env <;> cases h
    cases failed with
    | true => exact ⟨.failing rfl rfl, (fun h => by cases h)⟩
    | false =>
      have hstate : sh.state = .exit := by
        rw [← hexit]
        split <;> rfl
      exact absurd (hold hstate) fun hc => hc.false_of_busy rfl rfl rfl
  | failed => cases env <;> cases h; exact ⟨.failing rfl rfl, (fun h => by cases h)⟩
  | cancelRequest =>
    cases env with
    | tau =>
      simp only [passStep] at h
      split at h <;> cases h
      · rename_i hpop
        exact ⟨.cancelling rfl rfl (CommQueue.tryPopRequest_eq_none.mp hpop), (fun h => by cases h)⟩
      · exact ⟨.failing rfl rfl, (fun h => by cases h)⟩
    | _ => cases h
  | cancelledRequest cmd => cases env <;> cases h; exact ⟨.failing rfl rfl, (fun h => by cases h)⟩
  | cancelInflight =>
    cases env with
    | pick req =>
      simp only [passStep] at h
      split at h <;> cases h
      rename_i cmd q hpop
      obtain ⟨-, rfl⟩ := CommQueue.popInFlight_eq_some.mp hpop
      exact ⟨.cancelling rfl rfl (hold hexit).request_of_cancelling, (fun h => by cases h)⟩
    | tau =>
      simp only [passStep] at h
      split at h <;> cases h
      rename_i hempty
      exact ⟨.over ⟨(hold hexit).request_of_cancelling, hempty⟩, (fun h => by cases h)⟩
    | _ => cases h
  | cancelledInflight cmd =>
    cases env <;> cases h
    exact ⟨.cancelling rfl rfl (hold hexit).request_of_cancelling, (fun h => by cases h)⟩
  | tryPop =>
    cases env with
    | tau =>
      have hdr : sh.state = .exit → sh.comq.Drained := fun he => ((hold he).of_calm rfl rfl).1
      simp only [passStep] at h
      split at h <;> cases h
      · exact ⟨.calm_next (hdr hexit) rfl rfl (by rintro p ⟨⟩; rfl), (fun h => by cases h)⟩
      · rename_i cmd q hpop
        obtain ⟨rest, hreq, -⟩ := CommQueue.tryPopRequest_eq_some hpop
        rw [(hdr hexit).1] at hreq
        cases hreq
    | _ => cases h
  | popped cmd | submitted cmd | putBack cmd defer | rejected cmd =>
    -- no step from here changes the state
    refine absurd (hold ?_) fun hc => hc.false_of_busy rfl rfl rfl
    rw [← hexit]
    exact (passStep_state_of_busy h rfl).symm
  | executed cmd =>
    cases env <;> cases h
    exact ⟨.calm_next ((hold hexit).of_calm rfl rfl).1 rfl rfl (by rintro p ⟨⟩; rfl), (fun h => by cases h)⟩
  | idle =>
    cases env with
    | tau =>
      simp only [passStep] at h
      split at h <;> cases h
      · exact ⟨.failing rfl rfl, (fun h => by cases h)⟩
      · exact ⟨.over ((hold hexit).of_calm rfl rfl).1, (fun h => by cases h)⟩
    | dead =>
      simp only [passStep] at h
      split at h <;> cases h
      exact ⟨.failing rfl rfl, (fun h => by cases h)⟩
    | _ => cases h

/-! ### The state is set by passes only -/

/-- Only `close` sets the state outside a pass. -/
theorem exec_state {t : Tid n} {exited : Bool} {sh sh' : Shared n} {r : Regs} {rest : List Instr} {i : Instr} {env : Env}
    {a : Api} (h : exec t exited sh r rest i env = some (sh', a)) (hi : i ≠ .setExit) : sh'.state = sh.state := by
  have hpeek : ∀ id, (sh.peekResult t id).1.state = sh.state := by
    intro id
    unfold Shared.peekResult
    split
    · split <;> rfl
    · rfl
  cases i with
  | setExit => exact absurd rfl hi
  | peekResult id | finPeek sub id => cases env <;> cases h; exact hpeek id
  | waitPeek id =>
    cases env with
    | tau =>
      simp only [exec] at h
      split at h <;> cases h <;> exact hpeek id
    | _ => cases h
  | setNowait | pushRequest | lockSubmit | unlockSubmit | reqBlockBegin | reqBlockEnd | waitCompletion =>
    cases env with
    | tau =>
      obtain ⟨c, -, heq⟩ := Option.map_eq_some_iff.mp h
      cases heq
      rfl
    | _ => cases h
  | remInsert | clearPrev | unlockCtx | syncReturn | save | notifyAll | waitNotify | terminate =>
    cases env <;> cases h
    rfl
  | isAlive | issue | progress | join | syncWait | lockCtx | progressTry | peekTry | waitTry | waitCheck | waitErase
  | newpeerSend | newpeerWait =>
    cases env <;> simp only [exec] at h <;> (try split at h) <;> cases h <;> rfl

/-! ### No request is stranded -/

/-- No thread closes the context, and a request is pushed only while the state is not VEO_STATE_EXIT. -/
def pushedAlive : Machine.Cond (State n) (Label n) := fun s l s' =>
  (∀ t, l ≠ .call t .close) ∧ (pushedIds s'.sh.log ≠ pushedIds s.sh.log → s.sh.state ≠ .exit)

/-- The request queue changes in a call only when a request is pushed. -/
theorem ExecEffect.request {t : Tid n} {sh sh' : Shared n} {r : Regs} {i : Instr} {a : Api}
    (h : ExecEffect t sh r i sh' a) :
    sh'.comq.request = sh.comq.request ∨ pushedIds sh'.log ≠ pushedIds sh.log := by
  cases h with
  | quiet h | issue _ h | nowait _ h | take _ h => exact .inl h.request
  | lock => exact .inl rfl
  | push =>
    refine .inr fun heq => ?_
    have hlen := congrArg List.length heq
    simp [pushedIds, Event.pushedId] at hlen

/-- What holds of a context in which requests are pushed only while it is alive. -/
structure Settled (s : State n) : Prop where
  reachable : (context n).Reachable Machine.anyStep s
  setExit : ∀ t, .setExit ∉ (s.api t).code
  cancelled : s.sh.state = .exit → Cancelled s.sh.comq s.cursor

theorem Cancelled.kept {s s' : State n} (h : Cancelled s.sh.comq s.cursor) (hcur : CursorKept s s')
    (hreq : s'.sh.comq.request = s.sh.comq.request) (hinf : s'.sh.comq.inflight = s.sh.comq.inflight) :
    Cancelled s'.sh.comq s'.cursor := by
  cases h with
  | @failing p hp hf =>
    rcases hcur with hcur | ⟨hnone, -⟩
    · exact .failing (hcur.trans hp) hf
    · rw [hp] at hnone
      cases hnone
  | @cancelling p hp hc hrequest =>
    rcases hcur with hcur | ⟨hnone, -⟩
    · exact .cancelling (hcur.trans hp) hc (hreq.trans hrequest)
    · rw [hp] at hnone
      cases hnone
  | drained hdr hcalm =>
    refine .calm_next hdr hreq hinf fun p hp => ?_
    rcases hcur with hcur | ⟨-, hpoll⟩
    · exact hcalm p (hcur.symm.trans hp)
    · cases hpoll.symm.trans hp
      rfl

theorem Settled.step {s s' : State n} {l : Label n} (h : Settled s) (hstep : (context n).step s l = some s')
    (hl : pushedAlive s l s') : Settled s' := by
  refine ⟨h.reachable.step hstep trivial, fun t hmem => ?_, fun hexit => ?_⟩
  · exact (code_step_call hstep rfl hmem).elim (h.setExit t) (hl.1 t)
  cases cursorStep (Basic.of_reachable h.reachable) hstep with
  | pass hp hpass hsh hcur =>
    rw [hsh] at hexit ⊢
    obtain ⟨hnext, hthrow⟩ := cancelled_pass hpass (fun he => hp ▸ h.cancelled he) hexit
    rcases hcur with hcur | ⟨rfl, hcur⟩
    · rw [hcur]
      exact hnext
    · rw [hcur, hp]
      exact hthrow rfl
  | vhReturn hmain hcmd hsh hcur hcur' =>
    rw [hsh] at hexit ⊢
    have hold := h.cancelled hexit
    rw [hcur] at hold
    cases hold with
    | failing hcur => cases hcur
    | cancelling hcur => cases hcur
    | drained hdr =>
      refine .drained hdr fun p hp => ?_
      cases hcur'.symm.trans hp
      rfl
  | @exec t _ _ i rest a hcode heff hapi hcur hvh hexec =>
    have hne : i ≠ .setExit := by
      rintro rfl
      exact h.setExit t (hcode ▸ List.mem_cons_self)
    have hstate : s.sh.state = .exit := (exec_state hexec hne).symm.trans hexit
    refine (h.cancelled hstate).kept hcur (heff.request.resolve_right fun hpush => ?_) heff.inflight.1
    exact hl.2 hpush hstate
  | quiet hq hcur hvh hsh =>
    rw [hsh] at hexit
    exact (h.cancelled hexit).kept hcur (by rw [hsh]) (by rw [hsh])

theorem Settled.of_reachable {s : State n} (h : (context n).Reachable pushedAlive s) : Settled s := by
  refine h.invariant (I := Settled) ?_ fun _ _ _ _ hstep hl hs => hs.step hstep hl
  rintro s rfl
  exact ⟨.init rfl, fun t => List.not_mem_nil, nofun⟩

/-- After a failure, when no pass is going on and no VH function runs, nothing is queued or in flight and every
request that was pushed is completed, if none is pushed after the state became VEO_STATE_EXIT. -/
theorem nothing_stranded {s : State n} (h : (context n).Reachable pushedAlive s) (hexit : s.sh.state = .exit)
    (hpass : s.cursor = none) (hvh : s.main.vhCmd = none) :
    s.sh.comq.Drained ∧ ∀ id ∈ pushedIds s.sh.log, s.sh.Completed id := by
  have hs := Settled.of_reachable h
  have hdr : s.sh.comq.Drained := by
    have hc := hs.cancelled hexit
    rw [hpass] at hc
    cases hc with
    | failing hcur => cases hcur
    | cancelling hcur => cases hcur
    | drained hdr => exact hdr
  exact ⟨hdr, (Tracked.of_reachable hs.reachable).completed_of_drained hdr hpass hvh⟩

/-- A call and a VH request are queued. The pass of the call cannot submit it, finds the VE process terminated and
cancels both. -/
def deadTrace : List (Label 2) :=
  List.flatten [[.call (some 0) .callAsync], List.replicate 8 (.api (some 0) .tau), [.call (some 1) .callVHAsync],
    List.replicate 7 (.api (some 1) .tau), List.replicate 3 (.api (some 0) .tau), [.api (some 0) .again, .api (some 0) .tau,
    .api (some 0) .dead], List.replicate 9 (.api (some 0) .tau)]

theorem nothing_stranded_dead :
    ∃ s : State 2, s.sh.state = .exit ∧ pushedIds s.sh.log = [0, 1] ∧
      s.sh.comq.Drained ∧ ∀ id ∈ pushedIds s.sh.log, s.sh.Completed id := by
  have hrun := Machine.exists_reachable_of_runCond (M := context 2) (s := State.new 2) (C := pushedAlive)
    (c := fun s l s' => decide ((∀ t, l ≠ .call t .close) ∧
      (pushedIds s'.sh.log ≠ pushedIds s.sh.log → s.sh.state ≠ .exit)))
    (fun _ _ _ hc => by simpa only [pushedAlive, decide_eq_true_eq] using hc) deadTrace
    (fun s => decide (s.sh.state = .exit ∧ s.cursor = none ∧ s.main.vhCmd = none ∧ pushedIds s.sh.log = [0, 1])) rfl
    (by decide +kernel)
  obtain ⟨s, hs, hp⟩ := hrun
  obtain ⟨hexit, hpass, hvh, hpush⟩ := of_decide_eq_true hp
  exact ⟨s, hexit, hpush, nothing_stranded hs hexit hpass hvh⟩

/-- A VH request passes the test `is_alive`. Before it is issued a pass of the other thread finds the VE process
terminated and the progress thread ends. -/
def strandTrace : List (Label 2) :=
  List.flatten [[.main .tau, .main .spurious, .call (some 0) .callVHAsync, .api (some 0) .tau,
    .call (some 1) (.callPeekResult 0)], List.replicate 3 (.api (some 1) .tau), [.api (some 1) .dead],
    List.replicate 5 (.api (some 1) .tau), List.replicate 4 (.main .tau), List.replicate 6 (.api (some 0) .tau)]

/-- The request is pushed when nobody is left to execute or cancel it: it stays in the queue, and no thread is in a
call or a pass. -/
theorem request_stranded :
    ∃ s : State 2, (context 2).Reachable Machine.anyStep s ∧ s.sh.state = .exit ∧ s.main = .exited ∧
      (∀ t, (s.api t).phase = .run ∧ (s.api t).code = []) ∧ s.sh.comq.requestIds = [0] ∧
      0 ∈ pushedIds s.sh.log ∧ ¬ s.sh.Completed 0 := by
  have hrun := Machine.exists_reachable_of_run (M := context 2) (s := State.new 2) strandTrace
    (fun s => decide (s.sh.state = .exit ∧ s.main = .exited ∧ (∀ t, (s.api t).phase = .run ∧ (s.api t).code = []) ∧
      s.sh.comq.requestIds = [0] ∧ 0 ∈ pushedIds s.sh.log ∧ 0 ∉ s.sh.comq.completionIds ∧
      0 ∉ deliveredIds s.sh.log ∧ 0 ∉ discardedIds s.sh.log)) rfl (by decide +kernel)
  obtain ⟨s, hs, hp⟩ := hrun
  obtain ⟨hexit, hmain, hidle, hreq, hpush, hc, hd, hdis⟩ := of_decide_eq_true hp
  exact ⟨s, hs, hexit, hmain, hidle, hreq, hpush, fun h => h.elim hc fun h => h.elim hd hdis⟩

end Aveo

import Aveo.Progress.Blocks
import Aveo.Progress.Close
import Aveo.Progress.Retrieval
import Aveo.Progress.VH

/-!
# Waiting for results

`callWaitResult` makes passes as long as it gets `prog_mtx`. When it does not, it wakes the progress thread and
blocks until the result is there. `notifyAll` wakes the progress thread only if a request is queued, and the
progress thread goes to sleep when nothing is queued or in flight, whatever is in the hand of a pass.
-/

namespace Aveo

open Lib

variable {n : Nat}

/-- The request that a thread is blocked for in `completion.wait`. -/
def Api.blockedOn : Api → Option ReqId
  | ⟨.run, .waitCompletion id :: _, _⟩ => some id
  | _ => none

/-- The thread is inside a pass or in the polling loop of `callWaitResult`. -/
def Api.polls : Api → Bool
  | ⟨.inPass _ _, _, _⟩ | ⟨.unlock _ _, _, _⟩ | ⟨.run, .waitTry _ :: _, _⟩ | ⟨.run, .waitPeek _ :: _, _⟩ => true
  | _ => false

/-- A thread is blocked for a request that is queued or in flight, the progress thread sleeps without a
notification, and nobody else makes progress. -/
def State.LostWakeup (s : State n) (t : Tid n) (id : ReqId) : Prop :=
  (s.api t).blockedOn = some id ∧ id ∉ s.sh.comq.completionIds ∧
    (id ∈ s.sh.comq.inflightIds ∨ id ∈ s.sh.comq.requestIds) ∧ s.main = .cvWait ∧
    s.sh.comq.reqFliCond = .sleeping ∧ ∀ u, u ≠ t → (s.api u).polls = false

instance (s : State n) (t : Tid n) (id : ReqId) : Decidable (s.LostWakeup t id) :=
  inferInstanceAs (Decidable (_ ∧ _ ∧ _ ∧ _ ∧ _ ∧ _))

/-- The calls of a thread that retrieves only what it submitted. -/
def Call.own (s : State n) (t : Tid n) : Call → Bool
  | .callAsync | .largeCallAsync _ _ _ _ => true
  | .callPeekResult id | .callWaitResult id => id = requestIdInvalid ∨ (t, id) ∈ pushes s.sh.log
  | _ => false

/-- User threads call asynchronously and retrieve their own requests, and no wakeup is spurious. -/
def Label.own (s : State n) : Label n → Bool
  | .main env => env ≠ .spurious
  | .api _ _ => true
  | .call t c => t ≠ none && c.own s t

def ownCalls : Machine.Cond (State n) (Label n) := fun s l _ => l.own s = true

/-- The request of a command in the hand of a pass, or whose VH function runs. -/
def State.InHand (s : State n) (id : ReqId) : Prop :=
  ∃ cmd : Command, ((∃ t, (s.api t).phase.hand = some cmd) ∨ s.main.hand = some cmd) ∧ cmd.msgid = id

/-- The thread has notified the progress thread in `callWaitResult` and waits for the result. -/
def Api.Awaits (a : Api) (id : ReqId) : Prop := .waitCheck id ∈ a.code ∨ .waitCompletion id ∈ a.code

/-- The steps at which no wakeup gets lost: a thread does not notify in vain, which it does with an empty request
queue while the progress thread sleeps and its request is in flight or in a hand; and the progress thread does not
go to sleep while a request that a thread waits for is in a hand. -/
def attentive : Machine.Cond (State n) (Label n) := fun s l s' =>
  ownCalls s l s' ∧
  (∀ t env id rest, l = .api t env → (s.api t).code = .waitNotify id :: rest → s.sh.comq.reqFliCond = .sleeping →
    s.sh.comq.request = [] → id ∉ s.sh.comq.inflightIds ∧ ¬ s.InHand id) ∧
  (s.main = .waitRequest → s'.main = .cvWait → ∀ t id, (s.api t).Awaits id → ¬ s.InHand id)

/-! ### What steps do to the condition variable and to waiting threads -/

theorem CondWait.notify_ne_sleeping (c : CondWait) : c.notify ≠ .sleeping := by
  cases c <;> exact nofun

theorem CommQueue.sleeping_of_notifyAll {q : CommQueue} (h : q.notifyAll.reqFliCond = .sleeping) :
    q.reqFliCond = .sleeping ∧ q.request = [] := by
  unfold CommQueue.notifyAll at h
  split at h
  · rename_i hempty
    exact ⟨h, List.isEmpty_iff.mp hempty⟩
  · exact absurd h (CondWait.notify_ne_sleeping _)

theorem WaitExec.sleeping {i : Instr} {q q' : CommQueue} (h : WaitExec i q q') (hs : q'.reqFliCond = .sleeping) :
    q.reqFliCond = .sleeping := by
  cases h with
  | same h => exact h.reqFliCond.symm.trans hs
  | notify hi h =>
    rw [h] at hs
    exact (CommQueue.sleeping_of_notifyAll hs).1
  | terminate hi h =>
    rw [h] at hs
    exact absurd hs (CondWait.notify_ne_sleeping _)

/-- The progress thread sleeps because it slept before, or it has just found nothing queued or in flight. -/
theorem sleeping_step {s s' : State n} {l : Label n} (hstep : s.step l = some s') (hs : s'.sh.comq.reqFliCond = .sleeping) :
    s.sh.comq.reqFliCond = .sleeping ∨
      s.main = .waitRequest ∧ s'.main = .cvWait ∧ s.sh.comq.Drained := by
  cases step_cases hstep with
  | out hmain =>
    unfold State.step at hstep
    split at hstep
    · cases hstep
    · dsimp only [mainStep] at hstep
      split at hstep
      · rename_i hm
        split at hstep
        · rename_i hcond
          cases hstep
          simp only [Bool.and_eq_true] at hcond
          exact .inr ⟨hm, rfl, List.isEmpty_iff.mp hcond.1.1, hcond.1.2⟩
        · cases hstep
          exact .inl hs
      · split at hstep <;> cases hstep
        cases hs
      · obtain ⟨m, -, heq⟩ := Option.map_eq_some_iff.mp hstep
        cases heq
        exact .inl hs
      · cases hstep
        exact .inl hs
      · rename_i hm
        rw [hm] at hmain
        cases hmain
      · rename_i hm
        rw [hm] at hmain
        cases hmain
      · obtain ⟨m, -, heq⟩ := Option.map_eq_some_iff.mp hstep
        cases heq
        exact .inl hs
      · cases hstep
        exact .inl hs
      · cases hstep
  | @pass p env sh out hmain hpass =>
    have hsh : (s.afterPass sh out).sh.comq = sh.comq := by cases out <;> rfl
    rw [hsh] at hs
    exact .inl ((passStep_wait hpass).reqFliCond.symm.trans hs)
  | exec hphase hcode hexec => exact .inl ((exec_wait hexec).sleeping hs)
  | @apiPass t env p k sh sh' out a hphase hpass hout =>
    have hsh : sh'.comq = sh.comq := by
      unfold Api.afterPass at hout
      split at hout
      · cases hout; rfl
      · cases hout; rfl
      · split at hout <;> cases hout <;> rfl
      · cases hout
    have hs : sh'.comq.reqFliCond = .sleeping := hs
    rw [hsh] at hs
    exact .inl ((passStep_wait hpass).reqFliCond.symm.trans hs)
  | _ => exact .inl hs

/-- A call starts with none of the instructions that follow a notification, and so does a VH function. -/
theorem not_awaits_start {j : Instr} {id : ReqId} (hj : j = .waitCheck id ∨ j = .waitCompletion id) :
    (∀ c : Call, j ∉ c.code) ∧ ∀ c : Closure, j ∉ vhCode c := by
  have hid : j.retrieves = some id := by rcases hj with rfl | rfl <;> rfl
  refine ⟨fun c hmem => ?_, fun c hmem => ?_⟩
  · rcases Call.retrieves hmem hid with rfl | rfl <;> cases List.mem_singleton.mp hmem <;> rcases hj with hj | hj <;> cases hj
  · cases c with
    | finaliser w c r =>
      simp only [vhCode, List.mem_append] at hmem
      rcases hmem with (hmem | hmem) | hmem <;> split at hmem <;> cases hmem <;> rcases hj with hj | hj <;> cases hj <;> contradiction
    | _ => cases hmem

/-- A thread begins to wait with its notification. -/
theorem awaits_step {s s' : State n} {l : Label n} {u : Tid n} {id : ReqId} (hstep : s.step l = some s')
    (h : (s'.api u).Awaits id) :
    (s.api u).Awaits id ∨
      ∃ env rest, l = .api u env ∧ (s.api u).phase = .run ∧ (s.api u).code = .waitNotify id :: rest := by
  have hsource : ∀ {j : Instr}, (j = .waitCheck id ∨ j = .waitCompletion id) → Source s l s' u j →
      j ∈ (s.api u).code ∨ ∃ env i rest, l = .api u env ∧ (s.api u).phase = .run ∧ (s.api u).code = i :: rest ∧
        i.Follows (s.api u).regs j := by
    intro j hj hsrc
    cases hsrc with
    | kept h => exact .inl h
    | follows hl hphase hcode h => exact .inr ⟨_, _, _, hl, hphase, hcode, h⟩
    | resumed hphase h => rcases hj with rfl | rfl <;> rcases h with h | h <;> cases h
    | called hl h => exact absurd h ((not_awaits_start hj).1 _)
    | unwound h => rcases hj with rfl | rfl <;> rcases h with h | h <;> cases h
    | vh hu hmain h => exact absurd h ((not_awaits_start hj).2 _)
  rcases h with h | h
  · rcases hsource (.inl rfl) (code_step hstep h) with hmem | ⟨env, i, rest, hl, hphase, hcode, hf⟩
    · exact .inl (.inl hmem)
    · cases hf
      exact .inr ⟨env, rest, hl, hphase, hcode⟩
  · rcases hsource (.inr rfl) (code_step hstep h) with hmem | ⟨env, i, rest, hl, hphase, hcode, hf⟩
    · exact .inl (.inr hmem)
    · cases hf
      exact .inl (.inl (hcode ▸ List.mem_cons_self))

/-- Where a request that was pushed can be. -/
theorem Tracked.place {s : State n} (h : Tracked s) {id : ReqId} (hid : id ∈ pushedIds s.sh.log) :
    s.InHand id ∨ id ∈ s.sh.comq.requestIds ∨ id ∈ s.sh.comq.inflightIds ∨ s.sh.Completed id := by
  rw [← Multiset.mem_coe, h.pushed_eq] at hid
  exact (Multiset.mem_add.mp hid).imp hands_of_mem mem_shared_ids.mp

/-- What a request in the queue or in flight is not. -/
theorem Tracked.not_completed {s : State n} (h : Tracked s) {id : ReqId}
    (hid : id ∈ s.sh.comq.inflightIds ∨ id ∈ s.sh.comq.requestIds) : id ∈ pushedIds s.sh.log ∧ ¬ s.sh.Completed id := by
  have hmem : id ∈ s.sh.ids := mem_shared_ids.mpr (hid.symm.imp_right .inl)
  have hpushed : id ∈ pushedIds s.sh.log := by
    rw [← Multiset.mem_coe, h.pushed_eq]
    exact Multiset.mem_add.mpr (.inr hmem)
  refine ⟨hpushed, fun hdone => ?_⟩
  have hsplit : s.sh.ids = ((s.sh.comq.requestIds : Multiset ReqId) + (s.sh.comq.inflightIds : Multiset ReqId)) +
      ((s.sh.comq.completionIds : Multiset ReqId) + (deliveredIds s.sh.log : Multiset ReqId) +
        (discardedIds s.sh.log : Multiset ReqId)) := by
    simp only [Shared.ids, CommQueue.ids, add_assoc]
  have hnodup : s.sh.ids.Nodup := by
    have hall : (pushedIds s.sh.log : Multiset ReqId).Nodup := Multiset.coe_nodup.mpr h.pushed_nodup
    rw [h.pushed_eq] at hall
    exact (Multiset.nodup_add.mp hall).2.1
  rw [hsplit] at hnodup
  have hleft : id ∈ (s.sh.comq.requestIds : Multiset ReqId) + (s.sh.comq.inflightIds : Multiset ReqId) :=
    Multiset.mem_add.mpr hid.symm
  refine Multiset.disjoint_left.mp (Multiset.nodup_add.mp hnodup).2.2 hleft ?_
  simpa only [Shared.Completed, Multiset.mem_add, Multiset.mem_coe, or_assoc] using hdone

/-! ### Threads that retrieve what they submitted -/

/-- User threads are about to retrieve only what was pushed, and none is in `synchronize`. -/
structure Owned (s : State n) : Prop where
  pushed : ∀ (i : Fin n) id, (s.api (some i)).Retrieves id → id = requestIdInvalid ∨ id ∈ pushedIds s.sh.log
  noSync : ∀ i : Fin n, .syncWait ∉ (s.api (some i)).code

namespace Owned

variable {s s' : State n}

theorem init : Owned (State.new n) := by
  refine ⟨fun i id h => ?_, fun i h => by cases h⟩
  rcases h with ⟨j, hj, -⟩ | hid
  · cases hj
  · cases hid

theorem not_syncWait {c : Call} {t : Tid n} (h : c.own s t = true) : .syncWait ∉ c.code := by
  have hsub : ∀ {code : List Instr}, submitsOnly code = true → .syncWait ∉ code := by
    intro code hcode hmem
    cases List.all_eq_true.mp hcode _ hmem
  cases c with
  | callAsync => exact hsub rfl
  | largeCallAsync copyin copyout w r => exact hsub (submitsOnly_largeCallAsync copyin copyout w r)
  | callPeekResult id | callWaitResult id => exact fun hmem => by cases List.mem_singleton.mp hmem
  | _ => cases h

theorem step {l : Label n} (h : Owned s) (hB : Basic s) (hstep : s.step l = some s') (hown : l.own s = true) : Owned s' := by
  have hmono : pushedIds s.sh.log ⊆ pushedIds s'.sh.log := fun id hid => by
    obtain ⟨t, k, c, hmem⟩ := mem_pushedIds.mp hid
    exact mem_pushedIds.mpr ⟨t, k, c, (cursorStep hB hstep).mem_log hmem⟩
  have hcall : ∀ {t : Tid n} {c : Call}, l = .call t c → c.own s t = true := by
    rintro t c rfl
    exact (Bool.and_eq_true_iff.mp hown).2
  refine ⟨fun i id hid => ?_, fun i hmem => ?_⟩
  · rcases retrieves_step hstep hid with hold | ⟨c, hl, hc⟩ | ⟨hsync, -⟩ | ⟨hu, -⟩
    · exact (h.pushed i id hold).imp_right fun hp => hmono hp
    · have hc' := hcall hl
      have hown' : id = requestIdInvalid ∨ (some i, id) ∈ pushes s.sh.log := by
        rcases hc with rfl | rfl <;> exact of_decide_eq_true hc'
      refine hown'.imp_right fun hp => hmono ?_
      rw [← pushes_ids]
      exact List.mem_map_of_mem (f := Prod.snd) hp
    · exact absurd hsync (h.noSync i)
    · cases hu
  · cases code_step hstep hmem with
    | kept hold => exact h.noSync i hold
    | follows hl hphase hcode hf => cases hf
    | resumed hphase hj => rcases hj with hj | hj <;> cases hj
    | called hl hj => exact not_syncWait (hcall hl) hj
    | unwound hj => rcases hj with hj | hj <;> cases hj
    | vh hu => cases hu

theorem of_reachable (h : (context n).Reachable ownCalls s) : Owned s := by
  refine h.invariant (I := Owned) ?_ fun s₀ l s₁ hr hstep hown hs => hs.step (Basic.of_reachable hr) hstep hown
  intro s₀ h0
  rw [h0]
  exact init

end Owned

/-- While a thread waits for a request that is not completed, the progress thread does not sleep. -/
def Awake (s : State n) : Prop :=
  ∀ (i : Fin n) id, (s.api (some i)).Awaits id → id ∈ pushedIds s.sh.log → ¬ s.sh.Completed id →
    s.sh.comq.reqFliCond ≠ .sleeping

theorem Api.Awaits.retrieves {a : Api} {id : ReqId} (h : a.Awaits id) : a.Retrieves id := by
  rcases h with h | h <;> exact .inl ⟨_, h, rfl⟩

theorem Awake.step {s s' : State n} {l : Label n} (h : Awake s) (hr : (context n).Reachable attentive s)
    (hstep : s.step l = some s') (hC : attentive s l s') : Awake s' := by
  have hT := Tracked.of_reachable hr
  have hO := Owned.of_reachable (hr.mono fun _ _ _ hc => hc.1)
  have hmoves := moves_step hT hstep
  obtain ⟨-, hnotify, hsleep⟩ := hC
  intro i id hawaits hpushed hdone hcond
  have hdone₀ : ¬ s.sh.Completed id := fun hc => hdone (hmoves.completed hc)
  rcases awaits_step hstep hawaits with hold | ⟨env, rest, hl, hphase, hcode⟩
  · -- The thread waited before, so the progress thread has just gone to sleep.
    have hpushed₀ : id ∈ pushedIds s.sh.log := by
      refine (hO.pushed i id hold.retrieves).resolve_left fun hinv => ?_
      have hlt := (Tracked.of_reachable (hr.any.step hstep trivial)).lt_of_pushed hpushed
      have hle := seqNo_le (hr.any.step hstep trivial)
      exact Nat.not_lt.mpr hle (hinv ▸ hlt)
    obtain hcond₀ | ⟨hmain, hmain', hdrained⟩ := sleeping_step hstep hcond
    · exact h i id hold hpushed₀ hdone₀ hcond₀
    · rcases hT.place hpushed₀ with hhand | hmem | hmem | hmem
      · exact hsleep hmain hmain' (some i) id hold hhand
      · rw [CommQueue.requestIds, hdrained.1] at hmem
        cases hmem
      · rw [CommQueue.inflightIds, BlockingMap.values, List.isEmpty_iff.mp hdrained.2] at hmem
        cases hmem
      · exact hdone₀ hmem
  · -- The thread has just notified, in vain.
    subst hl
    obtain ⟨sh, a, hexec, rfl⟩ := exec_of_step hstep hphase hcode
    cases env with
    | tau =>
      cases hexec
      obtain ⟨hcond₀, hempty⟩ := CommQueue.sleeping_of_notifyAll hcond
      obtain ⟨hflight, hhand⟩ := hnotify (some i) .tau id rest rfl hcode hcond₀ hempty
      rcases hT.place hpushed with hmem | hmem | hmem | hmem
      · exact hhand hmem
      · rw [CommQueue.requestIds, hempty] at hmem
        cases hmem
      · exact hflight hmem
      · exact hdone₀ hmem
    | _ => cases hexec

theorem Awake.of_reachable {s : State n} (h : (context n).Reachable attentive s) : Awake s := by
  refine h.invariant (I := Awake) ?_ fun s₀ l s₁ hr hstep hC hs => hs.step hr hstep hC
  intro s₀ h0 i id hawaits
  rw [h0] at hawaits
  rcases hawaits with hmem | hmem <;> cases hmem

/-- In every run in which no thread notifies in vain, and the progress thread does not go to sleep while a request
that is waited for is in a hand, no wakeup is lost. -/
theorem no_lost_wakeup {s : State n} (h : (context n).Reachable attentive s) (i : Fin n) (id : ReqId) :
    ¬ s.LostWakeup (some i) id := by
  rintro ⟨hblocked, -, hplace, -, hcond, -⟩
  obtain ⟨hpushed, hdone⟩ := (Tracked.of_reachable h).not_completed hplace
  have hawaits : (s.api (some i)).Awaits id := by
    unfold Api.blockedOn at hblocked
    split at hblocked
    · rename_i heq
      cases hblocked
      rw [heq]
      exact .inr List.mem_cons_self
    · cases hblocked
  exact Awake.of_reachable h i id hawaits hpushed hdone hcond

/-- Thread 0 submits a request and waits for it while thread 1 is in a pass; the progress thread is awake. -/
def awakeTrace : List (Label 2) :=
  List.flatten [[.call (some 0) .callAsync], List.replicate 11 (.api (some 0) .tau), [.api (some 0) (.sent 0)],
    List.replicate 6 (.api (some 0) .tau), [.main .tau, .call (some 1) (.callPeekResult requestIdInvalid), .api (some 1) .tau,
      .call (some 0) (.callWaitResult 0)], List.replicate 3 (.api (some 0) .tau)]

theorem no_lost_wakeup_awake :
    ∃ s : State 2, (context 2).Reachable attentive s ∧ (s.api (some 0)).blockedOn = some 0 ∧
      s.sh.comq.inflightIds = [0] ∧ ¬ s.LostWakeup (some 0) 0 := by
  have hrun : ∃ s : State 2, (context 2).Reachable attentive s ∧
      decide ((s.api (some 0)).blockedOn = some 0 ∧ s.sh.comq.inflightIds = [0]) = true := by
    refine Machine.exists_reachable_of_runCond (M := context 2) (s := State.new 2)
      (c := fun s l s' => decide (l.own s = true ∧ s.sh.comq.reqFliCond ≠ .sleeping ∧ s'.main ≠ .cvWait))
      (fun s l s' hc => ?_) awakeTrace _ rfl (by decide +kernel)
    obtain ⟨hown, hcond, hmain⟩ := of_decide_eq_true hc
    exact ⟨hown, fun _ _ _ _ _ _ hsleep => absurd hsleep hcond, fun _ hsleep => absurd hsleep hmain⟩
  obtain ⟨s, hs, hp⟩ := hrun
  obtain ⟨hblocked, hflight⟩ := of_decide_eq_true hp
  exact ⟨s, hs, hblocked, hflight, no_lost_wakeup hs 0 0⟩

/-- The progress thread sleeps. Thread 1 completes a request in a pass of its own, and thread 0 submits one. Thread
1 asks for its result and is in a pass when thread 0 begins to wait: its notification finds the request queue
empty. Thread 1 then leaves. -/
def lostWakeupTrace : List (Label 2) :=
  List.flatten [[.main .tau, .call (some 1) .callAsync], List.replicate 11 (.api (some 1) .tau), [.api (some 1) (.sent 0),
      .api (some 1) .tau, .api (some 1) (.reply 0 (.result 5))], List.replicate 8 (.api (some 1) .tau),
    [.call (some 0) .callAsync], List.replicate 11 (.api (some 0) .tau), [.api (some 0) (.sent 1)],
    List.replicate 6 (.api (some 0) .tau), [.call (some 1) (.callPeekResult 0), .api (some 1) .tau,
      .call (some 0) (.callWaitResult 1)], List.replicate 3 (.api (some 0) .tau), List.replicate 5 (.api (some 1) .tau)]

/-- Threads that retrieve only their own requests reach a state in which a wakeup is lost. -/
theorem wakeup_lost : ∃ s : State 2, (context 2).Reachable ownCalls s ∧ s.LostWakeup (some 0) 1 := by
  have hrun : ∃ s : State 2, (context 2).Reachable ownCalls s ∧ decide (s.LostWakeup (some 0) 1) = true :=
    Machine.exists_reachable_of_runCond (M := context 2) (s := State.new 2) (c := fun s l _ => l.own s)
      (fun _ _ _ hc => hc) lostWakeupTrace _ rfl (by decide +kernel)
  obtain ⟨s, hs, hp⟩ := hrun
  exact ⟨s, hs, of_decide_eq_true hp⟩

end Aveo

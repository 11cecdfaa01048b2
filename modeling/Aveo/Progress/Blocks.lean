import Aveo.Progress.Pipeline

/-!
# Submission blocks

`submit_mtx` is recursive. A thread holds it between `veo_req_block_begin` and `veo_req_block_end`, in the
section of a call with large arguments, and around every single push. Every push is made under it, so the
requests that one thread pushes while it holds the lock are consecutive in the order of pushes, and since
requests start in that order they are consecutive there too.
-/

namespace Aveo

open Lib

variable {n : Nat}

/-- What an instruction does to the submission lock and to the guards of its call. -/
inductive SubmitEffect (t : Tid n) (sh : Shared n) (r : Regs) (i : Instr) (sh' : Shared n) (a : Api) : Prop
  | frame (hmtx : sh'.submitMtx = sh.submitMtx) (hguards : a.regs.guards = r.guards)
  | lock {m : RecMutex (Tid n)} (hlock : sh.submitMtx.tryLock t = some m) (hmtx : sh'.submitMtx = m)
      (hguards : a.regs.guards ≤ r.guards + 1)
  | unlock {m : RecMutex (Tid n)} (hlock : sh.submitMtx.unlock t = some m) (hmtx : sh'.submitMtx = m)
      (hguards : i = .unlockSubmit ∧ a.regs.guards = r.guards - 1 ∨ i = .reqBlockEnd ∧ a.regs.guards = r.guards)

theorem exec_submit {t : Tid n} {exited : Bool} {sh sh' : Shared n} {r : Regs} {rest : List Instr} {i : Instr} {env : Env}
    {a : Api} (h : exec t exited sh r rest i env = some (sh', a)) : SubmitEffect t sh r i sh' a := by
  have hpeek : ∀ id, (sh.peekResult t id).1.submitMtx = sh.submitMtx := by
    intro id
    obtain ⟨q, rem, log, heq⟩ := sh.peekResult_eq t id
    rw [heq]
  cases i with
  | lockSubmit | reqBlockBegin =>
    cases env with
    | tau =>
      obtain ⟨m, hlock, heq⟩ := Option.map_eq_some_iff.mp h
      cases heq
      exact .lock hlock rfl (by simp)
    | _ => cases h
  | unlockSubmit =>
    cases env with
    | tau =>
      obtain ⟨m, hlock, heq⟩ := Option.map_eq_some_iff.mp h
      cases heq
      exact .unlock hlock rfl (.inl ⟨rfl, rfl⟩)
    | _ => cases h
  | reqBlockEnd =>
    cases env with
    | tau =>
      obtain ⟨m, hlock, heq⟩ := Option.map_eq_some_iff.mp h
      cases heq
      exact .unlock hlock rfl (.inr ⟨rfl, rfl⟩)
    | _ => cases h
  | peekResult id =>
    cases env <;> cases h
    exact .frame (hpeek id) rfl
  | finPeek sub id =>
    cases env <;> cases h
    exact .frame (hpeek id) (SameCall.seen r _ _ sub).guards
  | waitPeek id =>
    cases env with
    | tau =>
      simp only [exec] at h
      split at h <;> cases h <;> exact .frame (hpeek id) rfl
    | _ => cases h
  | save sub =>
    cases env <;> cases h
    exact .frame rfl (SameCall.save r sub).guards
  | setNowait | pushRequest | waitCompletion =>
    cases env with
    | tau =>
      obtain ⟨c, -, heq⟩ := Option.map_eq_some_iff.mp h
      cases heq
      exact .frame rfl rfl
    | _ => cases h
  | remInsert | clearPrev | terminate | setExit | unlockCtx | notifyAll | waitNotify | syncReturn =>
    cases env <;> cases h
    exact .frame rfl rfl
  | isAlive | issue | progress | join | syncWait | lockCtx | progressTry | peekTry | waitTry | waitCheck | waitErase
  | newpeerSend | newpeerWait =>
    cases env <;> simp only [exec] at h <;> (try split at h) <;> cases h <;> exact .frame rfl rfl

/-! ### Guards -/

/-- The guards of a call are the sections whose end is ahead and whose beginning is not. -/
theorem Shaped.guards_eq {c : Held} {g : Nat} {code : List Instr} (h : Shaped c g code) :
    g + code.count .lockSubmit = code.count .unlockSubmit := by
  induction h with
  | nil | reqBlockBegin | reqBlockEnd => rfl
  | isAlive _ _ ih | newpeerSend _ _ ih => simpa using ih
  | issue _ ih | remInsert _ ih | setNowait _ ih | pushRequest _ _ ih => simpa using ih
  | lockSubmit _ ih =>
    simp only [List.count_cons_self, List.count_cons_of_ne (show Instr.lockSubmit ≠ .unlockSubmit by nofun)]
    omega
  | unlockSubmit _ ih =>
    simp only [List.count_cons_self, List.count_cons_of_ne (show Instr.unlockSubmit ≠ .lockSubmit by nofun)]
    omega
  | @plain g i rest hi _ ih =>
    rw [List.count_cons_of_ne (by rintro rfl; cases hi), List.count_cons_of_ne (by rintro rfl; cases hi)]
    exact ih

/-- A thread holds the submission lock at least as often as its call has guards on it. -/
def Guarded (s : State n) : Prop := ∀ t, (s.api t).regs.guards ≤ s.sh.submitMtx.depth t

theorem Api.afterPass_submitMtx {a a' : Api} {t : Tid n} {k : After} {uncaught : Bool} {sh sh' : Shared n} {out : PassOut}
    (h : a.afterPass t k uncaught sh out = some (sh', a')) : sh'.submitMtx = sh.submitMtx := by
  cases out with
  | next | ret => cases h; rfl
  | startVH => cases h
  | throws =>
    simp only [Api.afterPass] at h
    split at h <;> cases h <;> rfl

namespace Guarded

variable {s s' : State n}

theorem setApi (h : Guarded s) {sh : Shared n} {t : Tid n} {a : Api} (hself : a.regs.guards ≤ sh.submitMtx.depth t)
    (hother : ∀ u, u ≠ t → sh.submitMtx.depth u = s.sh.submitMtx.depth u) :
    Guarded (({ s with sh := sh } : State n).setApi t a) := by
  intro u
  by_cases hu : u = t
  · subst hu
    rwa [State.setApi_api_self]
  · rw [State.setApi_api_ne _ _ hu, State.setApi_sh, hother u hu]
    exact h u

theorem exec (h : Guarded s) {t : Tid n} {i : Instr} {rest : List Instr} {sh : Shared n} {a : Api}
    (hs : Shaped (s.api t).regs.held (s.api t).regs.guards (i :: rest)) (heff : SubmitEffect t s.sh (s.api t).regs i sh a) :
    Guarded (({ s with sh := sh } : State n).setApi t a) := by
  have hle := h t
  cases heff with
  | frame hmtx hguards => exact h.setApi (by rw [hmtx, hguards]; exact hle) fun u _ => by rw [hmtx]
  | lock hlock hmtx hguards =>
    subst hmtx
    refine h.setApi ?_ fun u hu => RecMutex.depth_tryLock_ne hlock hu
    rw [RecMutex.depth_tryLock hlock]
    omega
  | unlock hlock hmtx hguards =>
    subst hmtx
    refine h.setApi ?_ fun u hu => RecMutex.depth_unlock_ne hlock hu
    have hdepth := RecMutex.depth_unlock hlock
    rcases hguards with ⟨-, heq⟩ | ⟨rfl, heq⟩
    · omega
    · -- `veo_req_block_end` is a call of its own, so the thread has no guard.
      have hzero : (s.api t).regs.guards = 0 := by
        generalize (s.api t).regs.held = c at hs
        generalize (s.api t).regs.guards = g at hs
        cases hs with
        | reqBlockEnd => rfl
        | plain hi => cases hi
      omega

theorem step (hB : Basic s) (h : Guarded s) {l : Label n} (hstep : s.step l = some s') : Guarded s' := by
  cases step_cases hstep with
  | out hmain hmain' hq hsh =>
    subst hsh
    exact h
  | execLock | execTest | execUnlock | vhReturn => exact h
  | @pass p env sh out hmain hpass =>
    have hmtx := (passStep_frame hpass).submitMtx
    cases out with
    | next | ret | throws =>
      intro u
      simp only [State.afterPass, hmtx]
      exact h u
    | startVH cmd => exact setApi (s := { s with main := .vh cmd }) h (Nat.zero_le _) fun u _ => by rw [hmtx]
  | @exec t env i rest sh a hphase hcode hexec =>
    have hs := (hB.shaped t).code
    rw [hcode] at hs
    exact h.exec hs (exec_submit hexec)
  | @apiPass t env p k sh sh' out a hphase hpass hout =>
    have hmtx : sh'.submitMtx = s.sh.submitMtx :=
      (Api.afterPass_submitMtx hout).trans (passStep_frame hpass).submitMtx
    refine h.setApi ?_ fun u _ => by rw [hmtx]
    rw [(Api.regs_afterPass hout).1, hmtx]
    exact h t
  | @unlock t env rv k m hphase hlock => exact h.setApi (h t) fun u _ => rfl
  | @call t c hphase hcode hmay =>
    have hzero : (c.regs (pushedIds s.sh.log).length).guards = 0 := by cases c <;> rfl
    exact h.setApi (show _ ≤ s.sh.submitMtx.depth t by rw [hzero]; exact Nat.zero_le _) fun u _ => rfl

theorem of_reachable {C : Machine.Cond (State n) (Label n)} (h : (context n).Reachable C s) : Guarded s := by
  refine h.invariant (I := Guarded) ?_ fun s₀ l s₁ hr hstep _ hs => hs.step (Basic.of_reachable hr) hstep
  intro s₀ h0 t
  rw [h0]
  exact Nat.zero_le _

end Guarded

/-! ### Pushes under the lock -/

def Event.pushedBy : Event n → Option (Tid n × ReqId)
  | .push t _ id _ => some (t, id)
  | _ => none

/-- The pushes with the threads that made them, in their order. -/
def pushes (log : List (Event n)) : List (Tid n × ReqId) := log.filterMap Event.pushedBy

theorem pushes_ids (log : List (Event n)) : (pushes log).map Prod.snd = pushedIds log := by
  rw [pushes, pushedIds, List.map_filterMap]
  refine List.filterMap_congr fun e _ => ?_
  cases e <;> rfl

theorem pushes_grow {log log' : List (Event n)} (h : log <+: log') : pushes log <+: pushes log' := by
  obtain ⟨es, rfl⟩ := h
  rw [pushes, pushes, List.filterMap_append]
  exact List.prefix_append _ _

theorem pushes_eq {log log' : List (Event n)} (h : log <+: log') (hids : pushedIds log' = pushedIds log) :
    pushes log' = pushes log := by
  refine ((pushes_grow h).eq_of_length ?_).symm
  rw [← List.length_map Prod.snd, ← List.length_map Prod.snd, pushes_ids, pushes_ids, hids]

/-- A step pushes only under the lock of the thread that pushes. -/
theorem pushes_step {s s' : State n} {l : Label n} (hB : Basic s) (hG : Guarded s) (hstep : s.step l = some s') :
    ∃ block, pushes s'.sh.log = pushes s.sh.log ++ block ∧ ∀ e ∈ block, 0 < s.sh.submitMtx.depth e.1 := by
  have hcs := cursorStep hB hstep
  have hnone : pushedIds s'.sh.log = pushedIds s.sh.log →
      ∃ block, pushes s'.sh.log = pushes s.sh.log ++ block ∧ ∀ e ∈ block, 0 < s.sh.submitMtx.depth e.1 := fun hids =>
    ⟨[], by rw [List.append_nil, pushes_eq hcs.log_grows hids], nofun⟩
  cases hcs with
  | pass hp hpass hsh =>
    refine hnone ?_
    rw [hsh]
    exact (passStep_effect hpass).order.1
  | vhReturn hmain hcmd hsh =>
    refine hnone ?_
    rw [hsh]
    exact pushedIds_append_of_none _ rfl
  | quiet hq => exact hnone hq.pushedIds
  | @exec t exited env i rest a hcode heff =>
    generalize hsh : s'.sh = sh' at heff hnone
    cases heff with
    | quiet hq | issue _ hq => exact hnone hq.pushedIds
    | nowait _ hq | take _ hq => exact hnone (hq.pushedIds.trans (pushedIds_append_of_none _ rfl))
    | lock => exact hnone rfl
    | @push code r' cmd hi hcmd hcur =>
      refine ⟨[(t, cmd.msgid)], List.filterMap_append, fun e he => ?_⟩
      rw [List.mem_singleton.mp he]
      have hs := (hB.shaped t).code
      rw [hcode, hi] at hs
      exact hs.of_pushRequest.2.trans_le (hG t)

/-- A thread is between `veo_req_block_begin` and `veo_req_block_end`, or in a section of its call that is
guarded by the submission lock: the end of the section is ahead and its beginning is not. -/
def State.InBlock (s : State n) (t : Tid n) : Prop :=
  0 < s.sh.submitMtx.depth t ∨ (s.api t).code.count .lockSubmit < (s.api t).code.count .unlockSubmit

instance (s : State n) (t : Tid n) : Decidable (s.InBlock t) := inferInstanceAs (Decidable (_ ∨ _))

theorem State.InBlock.depth {s : State n} (hB : Basic s) (hG : Guarded s) {t : Tid n} (h : s.InBlock t) :
    0 < s.sh.submitMtx.depth t := by
  rcases h with h | h
  · exact h
  · have hguards := (hB.shaped t).code.guards_eq
    have hle := hG t
    omega

/-- The steps during a block of a thread. -/
def inBlock (t : Tid n) : Machine.Cond (State n) (Label n) := fun s _ s' => s.InBlock t ∧ s'.InBlock t

/-- During a block of a thread only this thread pushes. -/
theorem pushes_block {t : Tid n} {s₀ s₁ : State n} (hs : (context n).Reachable Machine.anyStep s₀)
    (hblock : (context n).Steps (inBlock t) s₀ s₁) :
    ∃ block, pushes s₁.sh.log = pushes s₀.sh.log ++ block ∧ ∀ e ∈ block, e.1 = t := by
  induction hblock with
  | refl => exact ⟨[], (List.append_nil _).symm, nofun⟩
  | tail hrun hstep hC ih =>
    obtain ⟨block, hpush, hby⟩ := ih
    have hreach := hs.steps (hrun.mono fun _ _ _ _ => trivial)
    have hB := Basic.of_reachable hreach
    have hG := Guarded.of_reachable hreach
    obtain ⟨new, hnew, hheld⟩ := pushes_step hB hG hstep
    refine ⟨block ++ new, by rw [hnew, hpush, List.append_assoc], fun e he => ?_⟩
    rcases List.mem_append.mp he with he | he
    · exact hby e he
    · exact RecMutex.owner_unique (hheld e he) (hC.1.depth hB hG)

theorem Steps.log_grows {C : Machine.Cond (State n) (Label n)} {s s' : State n}
    (hs : (context n).Reachable Machine.anyStep s) (hrun : (context n).Steps C s s') : s.sh.log <+: s'.sh.log := by
  induction hrun with
  | refl => exact List.prefix_refl _
  | tail hrun hstep _ ih =>
    have hreach := hs.steps (hrun.mono fun _ _ _ _ => trivial)
    exact ih.trans (cursorStep (Basic.of_reachable hreach) hstep).log_grows

def Event.submittedId : Event n → Option ReqId
  | .submit id _ => some id
  | _ => none

/-- The requests in the order in which they were submitted to the VE. -/
def submittedIds (log : List (Event n)) : List ReqId := log.filterMap Event.submittedId

theorem submittedIds_sublist (log : List (Event n)) : (submittedIds log).Sublist (startedIds log) := by
  induction log with
  | nil => exact List.Sublist.slnil
  | cons e log ih =>
    have hstart : e.submittedId = none ∨ e.submittedId = e.startedId := by
      cases e <;> first | exact .inl rfl | exact .inr rfl
    rw [submittedIds, startedIds, List.filterMap_cons, List.filterMap_cons]
    cases hs : e.startedId with
    | none =>
      have hnone : e.submittedId = none := hstart.elim (fun h => h) fun h => h.trans hs
      rw [hnone]
      exact ih
    | some id =>
      rcases hstart with h | h
      · rw [h]
        exact ih.cons id
      · rw [h, hs]
        exact ih.cons_cons id

/-- The requests that a thread pushes during a block are consecutive in the order of pushes, and at any later
time no other request was submitted to the VE, rejected, executed or cancelled between two of them. -/
theorem submission_block_contiguous {t : Tid n} {s₀ s₁ s₂ : State n} (hs : (context n).Reachable Machine.anyStep s₀)
    (hblock : (context n).Steps (inBlock t) s₀ s₁) (hrest : (context n).Steps Machine.anyStep s₁ s₂) :
    ∃ block after, pushes s₂.sh.log = pushes s₀.sh.log ++ block ++ after ∧
      pushes s₁.sh.log = pushes s₀.sh.log ++ block ∧ (∀ e ∈ block, e.1 = t) ∧
      ∀ x y z, [x, y, z].Sublist (startedIds s₂.sh.log) ∨ [x, y, z].Sublist (submittedIds s₂.sh.log) →
        x ∈ block.map Prod.snd → z ∈ block.map Prod.snd → y ∈ block.map Prod.snd := by
  obtain ⟨block, hpush, hby⟩ := pushes_block hs hblock
  have hs₁ := hs.steps (hblock.mono fun _ _ _ _ => trivial)
  obtain ⟨after, hafter⟩ := pushes_grow (Steps.log_grows hs₁ hrest)
  rw [hpush] at hafter
  refine ⟨block, after, hafter.symm, hpush, hby, fun x y z hxyz hx hz => ?_⟩
  have hrun := pipeline_run (hs₁.steps hrest)
  have hids : pushedIds s₂.sh.log = pushedIds s₀.sh.log ++ block.map Prod.snd ++ after.map Prod.snd := by
    rw [← pushes_ids, ← hafter, List.map_append, List.map_append, pushes_ids]
  have hsub : [x, y, z].Sublist (pushedIds s₂.sh.log) := by
    have hstarted : (startedIds s₂.sh.log).Sublist (pushedIds s₂.sh.log) := hrun.started_prefix.sublist
    rcases hxyz with h | h
    · exact h.trans hstarted
    · exact (h.trans (submittedIds_sublist _)).trans hstarted
  rw [hids] at hsub
  refine Pipeline.mem_of_between ?_ hsub hx hz
  rw [← hids]
  exact hrun.pushed_nodup

/-- Two requests of thread 0 in a request block, between which thread 1 gets an ID for a request and waits for the
lock; then the block ends, and the progress thread executes the three requests. -/
def blockTrace : List (Label 2) × List (Label 2) × List (Label 2) :=
  ([.call (some 0) .reqBlockBegin, .api (some 0) .tau],
    List.flatten [[.call (some 0) .callVHAsync], List.replicate 7 (.api (some 0) .tau), [.call (some 1) .callVHAsync],
      List.replicate 3 (.api (some 1) .tau), [.call (some 0) .callVHAsync], List.replicate 7 (.api (some 0) .tau)],
    List.flatten [[.call (some 0) .reqBlockEnd, .api (some 0) .tau], List.replicate 4 (.api (some 1) .tau),
      List.replicate 6 (.main .tau), [.main (.vhReturn 0)], List.replicate 4 (.main .tau), [.main (.vhReturn 0)],
      List.replicate 4 (.main .tau)])

theorem submission_block_contiguous_two :
    ∃ s₀ s₁ s₂ : State 2, (context 2).Reachable Machine.anyStep s₀ ∧ (context 2).Steps (inBlock (some 0)) s₀ s₁ ∧
      (context 2).Steps Machine.anyStep s₁ s₂ ∧ pushes s₂.sh.log = [(some 0, 0), (some 0, 2), (some 1, 1)] ∧
      startedIds s₂.sh.log = [0, 2, 1] ∧
      ∃ block after, pushes s₂.sh.log = pushes s₀.sh.log ++ block ++ after ∧
        pushes s₁.sh.log = pushes s₀.sh.log ++ block ∧ (∀ e ∈ block, e.1 = some 0) ∧
        ∀ x y z, [x, y, z].Sublist (startedIds s₂.sh.log) ∨ [x, y, z].Sublist (submittedIds s₂.sh.log) →
          x ∈ block.map Prod.snd → z ∈ block.map Prod.snd → y ∈ block.map Prod.snd := by
  have hrun : ∃ s₀ s₁ s₂ : State 2, (context 2).Reachable Machine.anyStep s₀ ∧
      (context 2).Steps (inBlock (some 0)) s₀ s₁ ∧ (context 2).Steps Machine.anyStep s₁ s₂ ∧
        (pushes s₂.sh.log = [(some 0, 0), (some 0, 2), (some 1, 1)] && startedIds s₂.sh.log = [0, 2, 1]) = true :=
    Machine.exists_steps_of_run (M := context 2) (s := State.new 2)
      (c := fun s _ s' => decide (s.InBlock (some 0) ∧ s'.InBlock (some 0))) (fun _ _ _ h => of_decide_eq_true h)
      blockTrace.1 blockTrace.2.1 blockTrace.2.2 _ rfl (by decide +kernel)
  obtain ⟨s₀, s₁, s₂, hs, hblock, hrest, hp⟩ := hrun
  simp only [Bool.and_eq_true, decide_eq_true_eq] at hp
  exact ⟨s₀, s₁, s₂, hs, hblock, hrest, hp.1, hp.2, submission_block_contiguous hs hblock hrest⟩

end Aveo

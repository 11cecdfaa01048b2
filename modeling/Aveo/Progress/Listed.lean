import Aveo.Progress.Registers

/-!
# The requests whose result was not retrieved

`rem_reqid` has a request from the moment its ID was issued to the moment its result is retrieved. A request that no
call returns is retrieved by a result function or by a finaliser, in one step with its removal from `rem_reqid`; so
`_peekResult` never finds such a request in the set when its result is gone.
-/

namespace Aveo

open Lib

variable {n : Nat}

/-! ### What steps do to the set -/

/-- What `_peekResult` can do. -/
inductive PeekCase (sh : Shared n) (t : Tid n) (id : ReqId) : Shared n × CommandState × Word → Prop
  | delivered {c : Command} (hin : id ∈ sh.remReqid) (hentry : (id, c) ∈ sh.comq.completion.entries) :
      PeekCase sh t id
        ({ sh.take t id with remReqid := sh.remReqid.erase id }, c.status, c.retval)
  | unfinished (hin : id ∈ sh.remReqid) (hnone : id ∉ sh.comq.completionIds) : PeekCase sh t id (sh, .unfinished, 0)
  | unknown (hnot : id ∉ sh.remReqid) : PeekCase sh t id (sh, .error, 0)

theorem peek_cases (sh : Shared n) (t : Tid n) (id : ReqId) : PeekCase sh t id (sh.peekResult t id) := by
  unfold Shared.peekResult
  split
  · rename_i hin
    split
    · rename_i c q hpeek
      obtain ⟨hentry, rfl⟩ := CommQueue.peekCompletion_eq_some.mp hpeek
      exact .delivered hin hentry
    · rename_i hnone
      exact .unfinished hin (CommQueue.peekCompletion_eq_none.mp hnone)
  · rename_i hnot
    exact .unknown hnot

/-- No result is delivered, and no call is answered with OK. -/
structure SameAnswers (sh sh' : Shared n) : Prop where
  delivered : deliveredIds sh'.log = deliveredIds sh.log
  answers : ∀ u id, .answer u id .ok ∈ sh'.log → .answer u id .ok ∈ sh.log

def Instr.isWaitCompletion : Instr → Bool
  | .waitCompletion _ => true
  | _ => false

/-- The request of a call of `_peekResult`. -/
def Instr.looks : Instr → Option ReqId
  | .peekResult id | .waitPeek id | .finPeek _ id => some id
  | _ => none

/-- What an instruction does to `rem_reqid`, with the results it delivers and the calls it answers. -/
inductive RemExec (t : Tid n) (sh : Shared n) (r : Regs) (rest : List Instr) (i : Instr) (sh' : Shared n) (a : Api) : Prop
  | same (hi : i.isWaitCompletion = false) (hrem : sh'.remReqid = sh.remReqid) (h : SameAnswers sh sh')
      (hlisted : a.regs.listed = true → r.listed = true)
  | insert (hi : i = .remInsert) (hrem : sh'.remReqid = sh.remReqid.insert r.req) (h : SameAnswers sh sh')
  | nowait {cmd : Command} (hi : i = .setNowait) (hcur : r.cur = some cmd) (hrem : sh'.remReqid = sh.remReqid.erase cmd.msgid)
      (hlog : .nowait cmd.msgid ∈ sh'.log) (h : SameAnswers sh sh')
  | take {id : ReqId} {c : Command} (hi : i.looks = some id) (hin : id ∈ sh.remReqid)
      (hentry : (id, c) ∈ sh.comq.completion.entries) (hrem : sh'.remReqid = sh.remReqid.erase id)
      (hdel : deliveredIds sh'.log = deliveredIds sh.log ++ [id])
      (hans : ∀ u x, .answer u x .ok ∈ sh'.log → .answer u x .ok ∈ sh.log ∨ x = id ∧ c.status = .ok)
      (hans' : (∃ sub, i = .finPeek sub id) ∨ c.status = .unfinished ∨ .answer t id c.status ∈ sh'.log)
      (hregs : a.regs.listed = r.listed)
  | wait {id : ReqId} {c : Command} (hi : i = .waitCompletion id) (hentry : (id, c) ∈ sh.comq.completion.entries)
      (hrem : sh'.remReqid = sh.remReqid) (hdel : deliveredIds sh'.log = deliveredIds sh.log ++ [id])
      (hans : ∀ u x, .answer u x .ok ∈ sh'.log → .answer u x .ok ∈ sh.log)
      (ha : a = ⟨.run, .waitErase id c :: rest, r⟩)
  | erase {id : ReqId} {c : Command} (hi : i = .waitErase id c) (hin : id ∈ sh.remReqid)
      (hrem : sh'.remReqid = sh.remReqid.erase id) (hdel : deliveredIds sh'.log = deliveredIds sh.log)
      (hans : ∀ u x, .answer u x .ok ∈ sh'.log → .answer u x .ok ∈ sh.log ∨ x = id ∧ c.status = .ok)
      (hans' : .answer t id c.status ∈ sh'.log) (hregs : a.regs = r)

theorem sameAnswers_of_log {sh sh' : Shared n} (h : sh'.log = sh.log) : SameAnswers sh sh' := by
  refine ⟨by rw [h], fun u id hmem => ?_⟩
  rwa [h] at hmem

theorem sameAnswers_of_append {sh sh' : Shared n} {e : Event n} (h : sh'.log = sh.log ++ [e]) (hdel : e.deliveredId = none)
    (hans : ∀ u id, e ≠ .answer u id .ok) : SameAnswers sh sh' := by
  refine ⟨?_, fun u id hmem => ?_⟩
  · rw [h, deliveredIds, List.filterMap_append]
    simp [deliveredIds, hdel]
  · rw [h] at hmem
    exact (mem_append_singleton hmem).resolve_right fun heq => hans u id heq.symm

/-- The three instructions that call `_peekResult`. -/
theorem RemExec.of_peek {t : Tid n} {sh sh' : Shared n} {r : Regs} {rest : List Instr} {i : Instr} {a : Api} {id : ReqId}
    (hi : i.looks = some id) (hw : i.isWaitCompletion = false) (hlisted : a.regs.listed = r.listed)
    (hsh : sh' = (sh.peekResult t id).1 ∧ ((∃ sub, i = .finPeek sub id) ∨ (sh.peekResult t id).2.1 = .unfinished) ∨
      sh' = (sh.peekResult t id).1.emit (.answer t id (sh.peekResult t id).2.1)) : RemExec t sh r rest i sh' a := by
  have hcase := peek_cases sh t id
  generalize sh.peekResult t id = p at hcase hsh
  cases hcase with
  | @delivered c hin hentry =>
    have hdel : deliveredIds (sh.take t id).log = deliveredIds sh.log ++ [id] := by
      simp [deliveredIds, Shared.take, Event.deliveredId]
    rcases hsh with ⟨rfl, hfin⟩ | rfl
    · refine .take (c := c) hi hin hentry rfl hdel (fun u x hmem => .inl ?_) (hfin.imp_right .inl) hlisted
      exact (mem_append_singleton hmem).resolve_right (fun h => by cases h)
    · refine .take (c := c) hi hin hentry rfl ?_ (fun u x hmem => ?_) (.inr (.inr ?_)) hlisted
      · simp [deliveredIds, Shared.take, Shared.emit, Event.deliveredId]
      · rcases mem_append_singleton hmem with hmem | heq
        · exact .inl ((mem_append_singleton hmem).resolve_right (fun h => by cases h))
        · simp only [Event.answer.injEq] at heq
          exact .inr ⟨heq.2.1, heq.2.2.symm⟩
      · exact List.mem_append_right _ (List.mem_singleton_self _)
  | unfinished hin hnone =>
    rcases hsh with ⟨rfl, -⟩ | rfl
    · exact .same hw rfl (sameAnswers_of_log rfl) fun h => hlisted ▸ h
    · exact .same hw rfl (sameAnswers_of_append rfl rfl (fun _ _ h => by cases h)) fun h => hlisted ▸ h
  | unknown hnot =>
    rcases hsh with ⟨rfl, -⟩ | rfl
    · exact .same hw rfl (sameAnswers_of_log rfl) fun h => hlisted ▸ h
    · exact .same hw rfl (sameAnswers_of_append rfl rfl (fun _ _ h => by cases h)) fun h => hlisted ▸ h

theorem exec_rem {t : Tid n} {exited : Bool} {sh sh' : Shared n} {r : Regs} {rest : List Instr} {i : Instr} {env : Env}
    {a : Api} (h : exec t exited sh r rest i env = some (sh', a)) : RemExec t sh r rest i sh' a := by
  cases i with
  | remInsert => cases env <;> cases h; exact .insert rfl rfl (sameAnswers_of_log rfl)
  | setNowait =>
    cases env with
    | tau =>
      obtain ⟨cmd, hcmd, heq⟩ := Option.map_eq_some_iff.mp h
      cases heq
      exact .nowait rfl hcmd rfl (List.mem_append_right _ (List.mem_singleton_self _)) (sameAnswers_of_append rfl rfl (fun _ _ h => by cases h))
    | _ => cases h
  | peekResult id => cases env <;> cases h; exact .of_peek rfl rfl rfl (.inr rfl)
  | finPeek sub id =>
    cases env <;> cases h
    exact .of_peek rfl rfl (by cases sub <;> rfl) (.inl ⟨rfl, .inl ⟨sub, rfl⟩⟩)
  | waitPeek id =>
    cases env with
    | tau =>
      simp only [exec] at h
      split at h <;> cases h
      · rename_i hunf
        exact .of_peek rfl rfl rfl (.inl ⟨rfl, .inr hunf⟩)
      · exact .of_peek rfl rfl rfl (.inr rfl)
    | _ => cases h
  | waitCompletion id =>
    cases env with
    | tau =>
      simp only [exec, Option.map_eq_some_iff, Prod.exists] at h
      obtain ⟨c, q, hpeek, heq⟩ := h
      obtain ⟨hentry, rfl⟩ := CommQueue.peekCompletion_eq_some.mp hpeek
      cases heq
      refine .wait rfl hentry rfl ?_ (fun u x hmem => (mem_append_singleton hmem).resolve_right (fun h => by cases h)) rfl
      simp [deliveredIds, Event.deliveredId]
    | _ => cases h
  | waitErase id c =>
    cases env with
    | tau =>
      simp only [exec] at h
      split at h <;> cases h
      · rename_i hin
        refine .erase rfl hin rfl ?_ (fun u x hmem => ?_) (List.mem_append_right _ (List.mem_singleton_self _)) rfl
        · simp [deliveredIds, Shared.emit, Event.deliveredId]
        · refine (mem_append_singleton hmem).imp_right fun heq => ?_
          simp only [Event.answer.injEq] at heq
          exact ⟨heq.2.1, heq.2.2.symm⟩
      · exact .same rfl rfl (sameAnswers_of_append rfl rfl (fun _ _ h => by cases h)) fun h => h
    | _ => cases h
  | waitCheck id =>
    cases env with
    | tau =>
      simp only [exec] at h
      split at h <;> cases h
      · exact .same rfl rfl (sameAnswers_of_log rfl) fun h => h
      · exact .same rfl rfl (sameAnswers_of_append rfl rfl (fun _ _ h => by cases h)) fun h => h
    | _ => cases h
  | syncReturn => cases env <;> cases h; exact .same rfl rfl (sameAnswers_of_append rfl rfl (fun _ _ h => by cases h)) fun h => h
  | pushRequest =>
    cases env with
    | tau =>
      obtain ⟨c, -, heq⟩ := Option.map_eq_some_iff.mp h
      cases heq
      exact .same rfl rfl (sameAnswers_of_append rfl rfl (fun _ _ h => by cases h)) fun h => h
    | _ => cases h
  | lockSubmit | unlockSubmit | reqBlockBegin | reqBlockEnd =>
    cases env with
    | tau =>
      obtain ⟨c, -, heq⟩ := Option.map_eq_some_iff.mp h
      cases heq
      exact .same rfl rfl (sameAnswers_of_log rfl) fun h => h
    | _ => cases h
  | save sub => cases env <;> cases h; exact .same rfl rfl (sameAnswers_of_log rfl) (by cases sub <;> exact fun h => h)
  | clearPrev | terminate | setExit | unlockCtx | notifyAll | waitNotify =>
    cases env <;> cases h
    exact .same rfl rfl (sameAnswers_of_log rfl) fun h => h
  | issue =>
    cases env <;> simp only [exec] at h <;> (try split at h) <;> cases h
    exact .same rfl rfl (sameAnswers_of_log rfl) (fun h => by cases h)
  | isAlive | progress | join | syncWait | lockCtx | progressTry | peekTry | waitTry | newpeerSend | newpeerWait =>
    cases env <;> simp only [exec] at h <;> (try split at h) <;> cases h <;>
      exact .same rfl rfl (sameAnswers_of_log rfl) fun h => h

/-- What a step of a pass does to `rem_reqid`: a result function may take the result of the fragment before. -/
inductive RemPass (sh : Shared n) (p : PassPc) (sh' : Shared n) : Prop
  | same (hrem : sh'.remReqid = sh.remReqid) (h : SameAnswers sh sh')
  | take {cmd : Command} {m : Reply} {id : ReqId} {c : Command} (hp : p = .unpack cmd m) (hid : id ∈ cmd.closure.captured)
      (hin : id ∈ sh.remReqid) (hentry : (id, c) ∈ sh.comq.completion.entries) (hrem : sh'.remReqid = sh.remReqid.erase id)
      (hdel : deliveredIds sh'.log = deliveredIds sh.log ++ [id])
      (hans : ∀ u x, .answer u x .ok ∈ sh'.log → .answer u x .ok ∈ sh.log)

theorem RemPass.of_peekPrev {sh : Shared n} {t : Tid n} {cmd : Command} {m : Reply} {prev : ReqId}
    (hprev : prev ≠ requestIdInvalid → prev ∈ cmd.closure.captured) : RemPass sh (.unpack cmd m) (sh.peekPrev t prev).1 := by
  unfold Shared.peekPrev
  split
  · exact .same rfl (sameAnswers_of_log rfl)
  · rename_i hne
    have hcase := peek_cases sh t prev
    generalize sh.peekResult t prev = r at hcase
    cases hcase with
    | @delivered c hin hentry =>
      refine .take rfl (hprev hne) hin hentry rfl ?_ fun u x hmem => (mem_append_singleton hmem).resolve_right nofun
      simp [deliveredIds, Shared.take, Event.deliveredId]
    | unfinished | unknown => exact .same rfl (sameAnswers_of_log rfl)

theorem passStep_rem {x : Bool} {t : Tid n} {sh sh' : Shared n} {p : PassPc} {env : Env} {out : PassOut}
    (h : passStep x t sh p env = some (sh', out)) : RemPass sh p sh' := by
  cases p with
  | unpack cmd m =>
    cases env <;> cases h
    unfold Shared.unpack
    cases hc : cmd.closure with
    | simpleCall =>
      dsimp only
      unfold Shared.unpackResult
      split <;> exact .same rfl (sameAnswers_of_log rfl)
    | generic =>
      cases m with
      | ack | resStk => exact .same rfl (sameAnswers_of_log rfl)
      | _ =>
        dsimp only
        unfold Shared.unpackResult
        split <;> exact .same rfl (sameAnswers_of_log rfl)
    | sendBuff prev =>
      have hprev : prev ≠ requestIdInvalid → prev ∈ cmd.closure.captured := by
        rw [hc]
        exact fun hne => List.mem_filter.mpr ⟨List.mem_singleton_self _, decide_eq_true hne⟩
      cases m <;> exact .of_peekPrev hprev
    | recvBuff prev =>
      have hprev : prev ≠ requestIdInvalid → prev ∈ cmd.closure.captured := by
        rw [hc]
        exact fun hne => List.mem_filter.mpr ⟨List.mem_singleton_self _, decide_eq_true hne⟩
      dsimp only
      split
      · exact .of_peekPrev hprev
      · exact .same rfl (sameAnswers_of_log rfl)
    | callVH | synchronizeFunc | emptyTransfer | finaliser => exact .same rfl (sameAnswers_of_log rfl)
  | received cmd failed =>
    cases env <;> cases h
    cases cmd.nowait with
    | true => exact .same rfl (sameAnswers_of_append rfl rfl (fun _ _ h => by cases h))
    | false => exact .same rfl (sameAnswers_of_log rfl)
  | cancelRequest | cancelInflight | popped =>
    cases env <;> simp only [passStep] at h <;> (try split at h) <;> (try split at h) <;> cases h <;>
      first | exact .same rfl (sameAnswers_of_log rfl) | exact .same rfl (sameAnswers_of_append rfl rfl (fun _ _ h => by cases h))
  | poll | reply | failed | cancelledRequest | cancelledInflight | tryPop | submitted | putBack | rejected | executed | idle =>
    cases env <;> simp only [passStep] at h <;> (try split at h) <;> cases h <;> exact .same rfl (sameAnswers_of_log rfl)

/-! ### The requests that threads ask for -/

/-- The request whose result a call asks for. -/
def Instr.asks : Instr → Option ReqId
  | .peekTry id | .peekResult id | .waitTry id | .waitPeek id | .waitNotify id | .waitCheck id | .waitCompletion id
  | .waitErase id _ => some id
  | _ => none

def Api.Asks (a : Api) (id : ReqId) : Prop := (∃ i ∈ a.code, i.asks = some id) ∨ a.phase.waits = some id

theorem Instr.Follows.asks {r : Regs} {i j : Instr} {id : ReqId} (h : i.Follows r j) (hj : j.asks = some id) :
    i.asks = some id ∨ i = .syncWait ∧ id = r.req := by
  cases h with
  | progressTry => cases hj
  | syncWait =>
    cases hj
    exact .inr ⟨rfl, rfl⟩
  | _ => exact .inl hj

theorem Instr.retrieves_of_asks {i : Instr} {id : ReqId} (h : i.asks = some id) : i.retrieves = some id := by
  cases i <;> first | exact h | cases h

theorem asks_of_mem_vhCode {c : Closure} {j : Instr} (h : j ∈ vhCode c) : j.asks = none := by
  have hall : (vhCode c).all (·.asks = none) = true := by
    cases c with
    | finaliser w c r =>
      rw [vhCode]
      split <;> split <;> split <;> rfl
    | _ => rfl
  exact of_decide_eq_true (List.all_eq_true.mp hall j h)

theorem asks_step {s s' : State n} {l : Label n} {u : Tid n} {id : ReqId} (hstep : s.step l = some s')
    (h : (s'.api u).Asks id) :
    (s.api u).Asks id ∨ (∃ c, l = .call u c ∧ (c = .callPeekResult id ∨ c = .callWaitResult id)) ∨
      (∃ rest, (s.api u).code = .syncWait :: rest) ∧ id = (s.api u).regs.req := by
  rcases h with ⟨j, hj, hid⟩ | hid
  · cases code_step hstep hj with
    | kept h => exact .inl (.inl ⟨j, h, hid⟩)
    | @follows env i rest hl hphase hcode h =>
      rcases h.asks hid with hi | ⟨rfl, rfl⟩
      · exact .inl (.inl ⟨i, hcode ▸ List.mem_cons_self, hi⟩)
      · exact .inr (.inr ⟨⟨rest, hcode⟩, rfl⟩)
    | resumed hphase h => rcases h with rfl | rfl <;> cases hid <;> exact .inl (.inr hphase)
    | called hl h => exact .inr (.inl ⟨_, hl, Call.retrieves h (Instr.retrieves_of_asks hid)⟩)
    | unwound h => rcases h with rfl | rfl <;> cases hid
    | vh _ _ h =>
      rw [asks_of_mem_vhCode h] at hid
      cases hid
  · rcases phase_step hstep hid with h | h
    · exact .inl (.inr h)
    · exact .inl (.inl ⟨_, h, rfl⟩)

/-- A thread asks only for requests that were pushed and that a call returns. -/
theorem asks_public {s : State n} (hr : (context n).Reachable publicCalls s) {t : Tid n} {id : ReqId} (h : (s.api t).Asks id) :
    id = requestIdInvalid ∨ id ∈ pushedIds s.sh.log ∧ id ∉ s.sh.internal := by
  refine hr.invariant
    (I := fun s => ∀ t id, (s.api t).Asks id → id = requestIdInvalid ∨ id ∈ pushedIds s.sh.log ∧ id ∉ s.sh.internal)
    ?_ (fun s l s' hr hstep hC hs t id hasks => ?_) t id h
  · rintro s rfl t id (⟨i, hi, -⟩ | hphase)
    · cases hi
    · cases hphase
  · have hT := Tracked.of_reachable hr
    have hg := grows hT.basic hstep
    have hkeep : id ∈ pushedIds s.sh.log ∧ id ∉ s.sh.internal → id ∈ pushedIds s'.sh.log ∧ id ∉ s'.sh.internal :=
      fun ⟨hpush, hnot⟩ => ⟨hg.mem_pushed hpush, fun hin => hnot (hg.internal_of_lt hin (hT.lt_of_pushed hpush))⟩
    rcases asks_step hstep hasks with hold | ⟨c, hl, hc⟩ | ⟨⟨rest, hsync⟩, rfl⟩
    · exact (hs t id hold).imp_right hkeep
    · have hpub := hC t c hl
      have hor : id = requestIdInvalid ∨ id ∈ pushedIds s.sh.log ∧ id ∉ s.sh.internal := by
        rcases hc with rfl | rfl <;> simpa [Call.isPublic] using hpub
      exact hor.imp_right hkeep
    · -- `synchronize` waits for its own VH command, which it has pushed.
      have hcap := Captures.of_reachable hr
      have hcur := hT.basic.cur_of_plain hsync rfl
      rcases (hcap.thread t).about .syncWait (hsync ▸ List.mem_cons_self) .synchronizeFunc rfl with hinv | hbuilt
      · exact .inl hinv
      rcases (hcap.thread t).req with hinv | hpush | ⟨cmd, hcmd, -⟩
      · exact .inl hinv
      · refine .inr (hkeep ⟨hpush, fun hin => ?_⟩)
        cases hcap.sub _ _ hbuilt hin
      · cases hcur.symm.trans hcmd

/-! ### The set -/

theorem Tracked.lt_of_completed {s : State n} (h : Tracked s) {id : ReqId} (hid : s.sh.Completed id) : id < s.sh.seqNo :=
  h.lt_of_started (h.started_iff.mpr (.inr (.inr hid)))

/-- A request that a thread holds is not completed. -/
theorem Tracked.not_completed_of_cur {s : State n} (h : Tracked s) {t : Tid n} {cmd : Command}
    (hcur : (s.api t).regs.cur = some cmd) : ¬ s.sh.Completed cmd.msgid := by
  intro hdone
  have hstart := h.started_iff.mpr (.inr (.inr hdone))
  refine h.not_mem_pushed hcur ?_
  rw [h.ordered.pushed]
  exact List.mem_append_left _ hstart

theorem completed_of_entry {sh : Shared n} {id : ReqId} {c : Command} (h : (id, c) ∈ sh.comq.completion.entries) : sh.Completed id :=
  .inl (BlockingMap.mem_keys_of_entry h)

/-- How a call comes to have a result in its hand. -/
theorem erase_new {s s' : State n} {l : Label n} (hstep : s.step l = some s') {t : Tid n} {id : ReqId} {c : Command}
    (hmem : .waitErase id c ∈ (s'.api t).code) :
    .waitErase id c ∈ (s.api t).code ∨ ∃ env rest, l = .api t env ∧ (s.api t).phase = .run ∧
      (s.api t).code = .waitCompletion id :: rest ∧ (id, c) ∈ s.sh.comq.completion.entries ∧
      deliveredIds s'.sh.log = deliveredIds s.sh.log ++ [id] := by
  cases threadStep hstep t with
  | same hcode => exact .inl (hcode ▸ hmem)
  | resumed _ hcode =>
    rcases hcode with hcode | hcode <;> rw [hcode] at hmem <;> exact .inl ((List.mem_cons.mp hmem).resolve_left nofun)
  | called _ hcode =>
    rw [hcode] at hmem
    rcases Call.retrieves hmem rfl with rfl | rfl <;> cases List.mem_singleton.mp hmem
  | unwound hcode =>
    rw [hcode] at hmem
    rcases Api.mem_unwind hmem with heq | heq <;> cases heq
  | vh _ _ hcode =>
    rw [hcode] at hmem
    cases asks_of_mem_vhCode hmem
  | @exec env exited i rest hl hphase hcode hexec =>
    rcases exec_mem_code hexec hmem with hin | hf
    · exact .inl (hcode ▸ List.mem_cons_of_mem _ hin)
    · cases hf
      cases exec_rem hexec with
      | wait hi hentry _ hdel _ ha =>
        cases hi
        rw [ha] at hmem
        rcases List.mem_cons.mp hmem with heq | hin
        · cases heq
          exact .inr ⟨env, rest, hl, hphase, hcode, hentry, hdel⟩
        · exact .inl (hcode ▸ List.mem_cons_of_mem _ hin)
      | same hi | insert hi | nowait hi | take hi | erase hi => cases hi

/-- What is known of `rem_reqid`. -/
structure Listed (s : State n) : Prop where
  nodup : s.sh.remReqid.Nodup
  internal : ∀ id ∈ s.sh.internal, id ∈ deliveredIds s.sh.log → id ∉ s.sh.remReqid
  pushed : ∀ id ∈ pushedIds s.sh.log, id ∈ s.sh.remReqid ∨ id ∈ deliveredIds s.sh.log ∨ .nowait id ∈ s.sh.log
  held : ∀ t cmd, (s.api t).regs.cur = some cmd → (s.api t).regs.listed = true →
    cmd.msgid ∈ s.sh.remReqid ∨ .nowait cmd.msgid ∈ s.sh.log
  erase : ∀ t id c, .waitErase id c ∈ (s.api t).code → id ∈ deliveredIds s.sh.log

/-- The ID that is put into the set is the one of the command at hand. -/
theorem Tracked.cur_of_remInsert {s : State n} (h : Tracked s) {t : Tid n} {rest : List Instr}
    (hcode : (s.api t).code = .remInsert :: rest) : ∃ cmd, (s.api t).regs.cur = some cmd ∧ cmd.msgid = (s.api t).regs.req := by
  have hheld : (s.api t).regs.held = .issued := by
    have hshape := (h.basic.shaped t).code
    rw [hcode] at hshape
    exact hshape.held_of_remInsert
  obtain ⟨cmd, hcmd⟩ : ∃ cmd, (s.api t).regs.cur = some cmd := by
    refine Option.ne_none_iff_exists'.mp fun hnone => ?_
    rw [Regs.held_eq_none.mpr hnone] at hheld
    cases hheld
  exact ⟨cmd, hcmd, (h.basic.shaped t).req cmd hcmd⟩

/-- How a step changes `rem_reqid` and what is delivered. -/
structure RemStep (s s' : State n) : Prop where
  nodup : s'.sh.remReqid.Nodup
  added : ∀ id ∈ s'.sh.remReqid, id ∈ s.sh.remReqid ∨ id ∉ deliveredIds s'.sh.log
  lost : ∀ id ∈ s.sh.remReqid, id ∈ s'.sh.remReqid ∨ id ∈ deliveredIds s'.sh.log ∨ .nowait id ∈ s'.sh.log
  delivered : ∀ id ∈ deliveredIds s'.sh.log, id ∈ deliveredIds s.sh.log ∨ id ∉ s'.sh.remReqid ∨ id ∉ s'.sh.internal

theorem RemStep.of_same {s s' : State n} (h : s.sh.remReqid.Nodup) (hrem : s'.sh.remReqid = s.sh.remReqid)
    (hdel : deliveredIds s'.sh.log = deliveredIds s.sh.log) : RemStep s s' :=
  ⟨by rwa [hrem], fun id hid => .inl (hrem ▸ hid), fun id hid => .inl (hrem ▸ hid), fun id hid => .inl (hdel ▸ hid)⟩

theorem RemStep.of_erase {s s' : State n} (h : s.sh.remReqid.Nodup) {id : ReqId}
    (hrem : s'.sh.remReqid = s.sh.remReqid.erase id) (hid : id ∈ deliveredIds s'.sh.log ∨ .nowait id ∈ s'.sh.log)
    (hdel : ∀ x ∈ deliveredIds s'.sh.log, x ∈ deliveredIds s.sh.log ∨ x = id) : RemStep s s' := by
  refine ⟨by rw [hrem]; exact h.erase id, fun x hx => .inl ?_, fun x hx => ?_, fun x hx => ?_⟩
  · rw [hrem] at hx
    exact List.mem_of_mem_erase hx
  · by_cases hxid : x = id
    · subst hxid
      exact .inr hid
    · exact .inl (by rw [hrem]; exact (List.mem_erase_of_ne hxid).mpr hx)
  · refine (hdel x hx).imp_right fun hxid => .inl ?_
    rw [hrem, hxid]
    exact h.not_mem_erase

theorem mem_delivered_append {log log' : List (Event n)} {id x : ReqId} (h : deliveredIds log' = deliveredIds log ++ [id])
    (hx : x ∈ deliveredIds log') : x ∈ deliveredIds log ∨ x = id := by
  rw [h] at hx
  exact (List.mem_append.mp hx).imp_right List.mem_singleton.mp

theorem rem_step {s s' : State n} {l : Label n} (hr : (context n).Reachable publicCalls s) (hstep : s.step l = some s')
    (hnodup : s.sh.remReqid.Nodup) (herase : ∀ t id c, .waitErase id c ∈ (s.api t).code → id ∈ deliveredIds s.sh.log) :
    RemStep s s' := by
  have hT := Tracked.of_reachable hr
  have hlast : ∀ {log log' : List (Event n)} {id : ReqId}, deliveredIds log' = deliveredIds log ++ [id] → id ∈ deliveredIds log' :=
    fun h => h ▸ List.mem_append_right _ (List.mem_singleton_self _)
  cases cursorStep hT.basic hstep with
  | @pass _ _ _ _ sh _ _ hp hpass hsh =>
    have hrem' : s'.sh.remReqid = sh.remReqid := by rw [hsh]
    have hlog' : s'.sh.log = sh.log := by rw [hsh]
    cases passStep_rem hpass with
    | same hrem h => exact .of_same hnodup (hrem'.trans hrem) (by rw [hlog']; exact h.delivered)
    | take _ _ hin hentry hrem hdel =>
      rw [← hlog'] at hdel
      exact .of_erase hnodup (hrem'.trans hrem) (.inl (hlast hdel)) fun x hx => mem_delivered_append hdel hx
  | vhReturn hmain hcmd hsh =>
    refine .of_same hnodup (by rw [hsh]; rfl) ?_
    rw [hsh]
    simp [deliveredIds, Shared.emit, Event.deliveredId]
  | quiet hq hcur hvh hsh => exact .of_same hnodup (by rw [hsh]) (by rw [hsh])
  | @exec t exited env i rest a hcode heff hapi hcur hvh hexec =>
    cases exec_rem hexec with
    | same _ hrem h => exact .of_same hnodup hrem h.delivered
    | insert hi hrem h =>
      subst hi
      obtain ⟨cmd, hcmd, hreq⟩ := hT.cur_of_remInsert hcode
      have hfresh : (s.api t).regs.req ∉ deliveredIds s.sh.log := fun hmem =>
        hT.not_completed_of_cur hcmd (.inr (.inl (hreq ▸ hmem)))
      refine ⟨by rw [hrem]; exact hnodup.insert, fun id hid => ?_, fun id hid => .inl ?_, fun id hid => .inl (h.delivered ▸ hid)⟩
      · rw [hrem] at hid
        rw [h.delivered]
        rcases List.mem_insert_iff.mp hid with rfl | hid
        · exact .inr hfresh
        · exact .inl hid
      · rw [hrem]
        exact List.mem_insert_of_mem hid
    | nowait _ _ hrem hlog h => exact .of_erase hnodup hrem (.inr hlog) fun x hx => .inl (h.delivered ▸ hx)
    | take _ hin hentry hrem hdel =>
      exact .of_erase hnodup hrem (.inl (hlast hdel)) fun x hx => mem_delivered_append hdel hx
    | @wait id c hi hentry hrem hdel =>
      have hasks : (s.api t).Asks id := .inl ⟨i, hcode ▸ List.mem_cons_self, by rw [hi]; rfl⟩
      have hnot : id ∉ s'.sh.internal := by
        have hlt := hT.lt_of_completed (completed_of_entry hentry)
        rcases asks_public hr hasks with hinv | ⟨-, hnot⟩
        · exact absurd hlt (by rw [hinv]; exact Nat.not_lt.mpr (seqNo_le hr))
        · exact fun hin => hnot ((grows hT.basic hstep).internal_of_lt hin hlt)
      refine ⟨by rwa [hrem], fun x hx => .inl (hrem ▸ hx), fun x hx => .inl (hrem ▸ hx), fun x hx => ?_⟩
      rcases mem_delivered_append hdel hx with hx | rfl
      · exact .inl hx
      · exact .inr (.inr hnot)
    | @erase id c hi hin hrem hdel =>
      have hmem := herase t id c (hcode ▸ hi ▸ List.mem_cons_self)
      exact .of_erase hnodup hrem (.inl (hdel ▸ hmem)) fun x hx => .inl (hdel ▸ hx)

namespace Listed

variable {s s' : State n} {l : Label n}

theorem init : Listed (State.new n) := by
  refine ⟨List.nodup_nil, nofun, nofun, fun t cmd hcur => ?_, fun t id c hmem => ?_⟩
  · cases hcur
  · cases hmem

/-- A request whose command a thread holds is listed as soon as it was put into the set. -/
theorem held_step (hr : (context n).Reachable publicCalls s) (hstep : s.step l = some s') (hC : publicCalls s l s') (h : Listed s)
    (hrs : RemStep s s') (t : Tid n) (cmd' : Command) (hcur' : (s'.api t).regs.cur = some cmd')
    (hlisted' : (s'.api t).regs.listed = true) : cmd'.msgid ∈ s'.sh.remReqid ∨ .nowait cmd'.msgid ∈ s'.sh.log := by
  have hT := Tracked.of_reachable hr
  have hT' : Tracked s' := Tracked.of_reachable (C := publicCalls) (hr.step (l := l) hstep hC)
  have hlog : ∀ {e}, e ∈ s.sh.log → e ∈ s'.sh.log := (cursorStep hT.basic hstep).mem_log
  have hold : (s.api t).regs.cur = some cmd' → (s.api t).regs.listed = true →
      cmd'.msgid ∈ s'.sh.remReqid ∨ .nowait cmd'.msgid ∈ s'.sh.log := by
    intro hcur hlisted
    rcases h.held t cmd' hcur hlisted with hin | hmem
    · rcases hrs.lost _ hin with hin | hdel | hmem
      · exact .inl hin
      · exact absurd (.inr (.inl hdel)) (hT'.not_completed_of_cur hcur')
      · exact .inr hmem
    · exact .inr (hlog hmem)
  cases threadStep hstep t with
  | same _ hregs | resumed _ _ hregs | unwound _ hregs =>
    rw [hregs] at hcur' hlisted'
    exact hold hcur' hlisted'
  | @called c _ _ hregs =>
    have hnone : (c.regs (pushedIds s.sh.log).length).cur = none := by cases c <;> rfl
    rw [hregs, hnone] at hcur'
    cases hcur'
  | vh _ _ _ hregs =>
    rw [hregs] at hcur'
    cases hcur'
  | @exec env exited i rest hl hphase hcode hexec =>
    have heff := exec_effect hexec
    have hrem := exec_rem hexec
    -- The thread keeps its command: the set has its ID, or gets it now.
    have hkeep : (s'.api t).regs.cur = (s.api t).regs.cur →
        cmd'.msgid ∈ s'.sh.remReqid ∨ .nowait cmd'.msgid ∈ s'.sh.log := by
      intro hcur
      rw [hcur] at hcur'
      cases hrem with
      | same _ _ _ hl => exact hold hcur' (hl hlisted')
      | insert _ hrem =>
        rw [hrem, (hT.basic.shaped t).req cmd' hcur']
        exact .inl List.mem_insert_self
      | nowait _ hcmd _ hmem =>
        rw [hcur'] at hcmd
        cases hcmd
        exact .inr hmem
      | take _ _ _ _ _ _ _ hl => exact hold hcur' (hl ▸ hlisted')
      | wait _ _ _ _ _ ha =>
        rw [ha] at hlisted'
        exact hold hcur' hlisted'
      | erase _ _ _ _ _ _ hl => exact hold hcur' (hl ▸ hlisted')
    generalize s'.sh = sh' at heff hkeep ⊢
    have hregs := exec_regs hexec
    generalize s'.api t = a at heff hkeep hcur' hlisted' hregs
    cases heff with
    | quiet _ heq | take _ _ heq => exact hkeep heq
    | lock => exact hkeep rfl
    | issue hi _ heq =>
      subst hi
      cases hregs with
      | same hi => cases hi
      | issue _ _ _ _ _ hl =>
        rw [hl] at hlisted'
        cases hlisted'
    | nowait hcmd hq heq =>
      rw [heq] at hcur'
      cases hcur'
      exact .inr ((hq.mem_log rfl).mpr (List.mem_append_right _ (List.mem_singleton_self _)))
    | push _ _ heq =>
      rw [heq] at hcur'
      cases hcur'

/-- A thread that is about to remove a request from the set has its result. -/
theorem erase_step (hr : (context n).Reachable publicCalls s) (hstep : s.step l = some s') (h : Listed s) (t : Tid n) (id : ReqId)
    (c : Command) (hmem : .waitErase id c ∈ (s'.api t).code) : id ∈ deliveredIds s'.sh.log := by
  rcases erase_new hstep hmem with hold | ⟨-, -, -, -, -, -, hdel⟩
  · exact ((cursorStep (Basic.of_reachable hr) hstep).log_grows.filterMap _).subset (h.erase t id c hold)
  · rw [hdel]
    exact List.mem_append_right _ (List.mem_singleton_self _)

theorem step (hr : (context n).Reachable publicCalls s) (hstep : s.step l = some s') (hC : publicCalls s l s') (h : Listed s) :
    Listed s' := by
  have hT := Tracked.of_reachable hr
  have hcs := cursorStep hT.basic hstep
  have hg := grows hT.basic hstep
  have hrs := rem_step hr hstep h.nodup h.erase
  refine ⟨hrs.nodup, fun id hid hdel hin => ?_, fun id hid => ?_, h.held_step hr hstep hC hrs, h.erase_step hr hstep⟩
  · rcases hrs.delivered id hdel with hold | hnot | hnot
    · have hlt := hT.lt_of_completed (.inr (.inl hold))
      exact h.internal id (hg.internal_of_lt hid hlt) hold ((hrs.added id hin).resolve_right fun hnew => hnew hdel)
    · exact hnot hin
    · exact hnot hid
  · have hlost : id ∈ s.sh.remReqid ∨ .nowait id ∈ s.sh.log →
        id ∈ s'.sh.remReqid ∨ id ∈ deliveredIds s'.sh.log ∨ .nowait id ∈ s'.sh.log := fun hor =>
      hor.elim (hrs.lost id) fun hmem => .inr (.inr (hcs.mem_log hmem))
    obtain ⟨t, k, c, hmem⟩ := mem_pushedIds.mp hid
    rcases new_event hcs hmem with hold | hnew
    · rcases h.pushed id (mem_pushedIds.mpr ⟨t, k, c, hold⟩) with hin | hdel | hnow
      · exact hlost (.inl hin)
      · exact .inr (.inl ((hcs.log_grows.filterMap _).subset hdel))
      · exact hlost (.inr hnow)
    · cases hnew with
      | quiet hq => cases hq
      | @push _ rest cmd hcode hcur =>
        -- A command is pushed when its ID is in the set, or was taken out with the flag.
        refine hlost ?_
        have hshape := (hT.basic.shaped t).code
        rw [hcode] at hshape
        have hheld := hshape.of_pushRequest.1
        simp only [Regs.held, hcur] at hheld
        cases hflag : cmd.nowait with
        | true => exact .inr ((Flagged.of_reachable hr).live cmd (.inl ⟨t, .inl hcur⟩) hflag)
        | false =>
          rw [hflag] at hheld
          cases hlisted : (s.api t).regs.listed with
          | true => exact h.held t cmd hcur hlisted
          | false => simp [hlisted] at hheld

theorem of_reachable (h : (context n).Reachable publicCalls s) : Listed s := by
  refine h.invariant (I := Listed) ?_ fun s₀ l s₁ hr hstep hC hs => hs.step hr hstep hC
  intro s₀ h0
  rw [h0]
  exact init

end Listed

/-- A request that no call returns is never dropped without its result. -/
theorem not_discarded_of_internal {s : State n} (hr : (context n).Reachable publicCalls s) {id : ReqId} (hid : id ∈ s.sh.internal) :
    id ∉ discardedIds s.sh.log := by
  intro hdis
  have hcap := Captures.of_reachable hr
  have hgen := hcap.nowait id ((Flagged.of_reachable hr).discarded id (mem_discardedIds.mp hdis))
  cases hcap.sub id _ hgen hid

/-- When a completed internal request is still in `rem_reqid`, its result is in the completion map. -/
theorem completion_of_internal {s : State n} (hr : (context n).Reachable publicCalls s) {id : ReqId} (hid : id ∈ s.sh.internal)
    (hdone : s.sh.Completed id) (hrem : id ∈ s.sh.remReqid) : id ∈ s.sh.comq.completionIds := by
  rcases hdone with hin | hdel | hdis
  · exact hin
  · exact absurd hrem ((Listed.of_reachable hr).internal id hid hdel)
  · exact absurd hdis (not_discarded_of_internal hr hid)

end Aveo

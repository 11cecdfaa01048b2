import Aveo.Context.Machine

/-!
# The status of a call with large arguments

`doCallAsync` splits a call whose stack image does not fit one URPC command into a write of the tail, the call, and a
read of the tail, and queues a VH command that collects the three results. That command is the request the user gets.
A sub-request that was not submitted has the ID VEO_REQUEST_ID_INVALID, and the VH command takes it for one that
succeeded.
-/

namespace Aveo

open Lib

variable {n : Nat}

/-- `_peekResult` on a sub-request in the finaliser, if there is one. -/
def finPeek (t : Tid n) (sub : Sub) (id : ReqId) (p : Shared n × Regs) : Shared n × Regs :=
  if id ≠ requestIdInvalid then
    let q := p.1.peekResult t id
    (q.1, p.2.seen q.2.1 q.2.2 sub)
  else p

/-- The finaliser of `doCallAsync`: the shared state and its variables after it retrieved the results. -/
def finaliser (sh : Shared n) (t : Tid n) (writereq callreq readreq : ReqId) : Shared n × Regs :=
  finPeek t .read readreq (finPeek t .call callreq (finPeek t .write writereq (sh, .new 0)))

/-- Whether the finaliser calls `copyout_func`, which writes the OUT buffers of the user. -/
def copiesOut (r : Regs) (copyout : Bool) : Bool := r.readstat = .ok && copyout

/-- What became of a sub-request: it was not submitted, or it waits in the completion map with its status. -/
def Shared.Outcome (sh : Shared n) (id : ReqId) : Option CommandState → Prop
  | none => id = requestIdInvalid
  | some status =>
      id ≠ requestIdInvalid ∧ id ∈ sh.remReqid ∧ ∃ c, (id, c) ∈ sh.comq.completion.entries ∧ c.status = status

/-- The status that a finaliser keeps of a sub-request. -/
def Regs.stat (r : Regs) : Sub → CommandState
  | .write => r.writestat
  | .call => r.callstat
  | .read => r.readstat

theorem Regs.stat_seen_self (r : Regs) (st : CommandState) (val : Word) (sub : Sub) : (r.seen st val sub).stat sub = st := by
  cases sub <;> rfl

theorem Regs.stat_seen_of_ne (r : Regs) (st : CommandState) (val : Word) {sub sub' : Sub} (h : sub' ≠ sub) :
    (r.seen st val sub).stat sub' = r.stat sub' := by
  cases sub <;> cases sub' <;> first | rfl | exact absurd rfl h

section Peek

variable {sh : Shared n} {t : Tid n} {id : ReqId}

/-- A finished request gives its status and leaves the two containers. -/
theorem peekResult_of_entry {c : Command} (hrem : id ∈ sh.remReqid) (hentry : (id, c) ∈ sh.comq.completion.entries) :
    sh.peekResult t id =
      ({ sh with
          comq := { sh.comq with completion := sh.comq.completion.erase id }
          remReqid := sh.remReqid.erase id
          log := sh.log ++ [.deliver t id] }, c.status, c.retval) := by
  have hpeek : sh.comq.peekCompletion id =
      some (c, { sh.comq with completion := sh.comq.completion.erase id }) := by
    rw [CommQueue.peekCompletion, BlockingMap.tryFind_eq_some.mpr ⟨hentry, rfl⟩, Option.map_some]
  rw [Shared.peekResult, if_pos hrem, hpeek]

theorem finPeek_invalid {sub : Sub} (p : Shared n × Regs) (h : id = requestIdInvalid) : finPeek t sub id p = p :=
  if_neg (not_not.mpr h)

/-- The finaliser sees the outcome of a sub-request. -/
theorem finPeek_stat_self {sub : Sub} {o : Option CommandState} {r : Regs} (h : sh.Outcome id o)
    (hr : r.stat sub = .ok) : (finPeek t sub id (sh, r)).2.stat sub = o.getD .ok := by
  cases o with
  | none =>
    rw [finPeek_invalid _ h]
    exact hr
  | some st =>
    obtain ⟨hid, hrem, c, hentry, rfl⟩ := h
    rw [finPeek, if_pos hid, peekResult_of_entry hrem hentry]
    exact r.stat_seen_self _ _ _

theorem finPeek_stat_of_ne {sub sub' : Sub} (p : Shared n × Regs) (h : sub' ≠ sub) :
    (finPeek t sub id p).2.stat sub' = p.2.stat sub' := by
  rw [finPeek]
  split
  · exact p.2.stat_seen_of_ne _ _ h
  · rfl

/-- Retrieving one sub-request does not touch the outcome of another. -/
theorem Shared.Outcome.finPeek {id' : ReqId} {o o' : Option CommandState} (h : sh.Outcome id o) (t : Tid n) (sub : Sub)
    (r : Regs) (h' : sh.Outcome id' o') (hne : id' = id → id = requestIdInvalid) :
    (Aveo.finPeek t sub id (sh, r)).1.Outcome id' o' := by
  cases o with
  | none =>
    rw [finPeek_invalid _ h]
    exact h'
  | some st =>
    obtain ⟨hid, hrem, c, hentry, rfl⟩ := h
    rw [Aveo.finPeek, if_pos hid, peekResult_of_entry hrem hentry]
    cases o' with
    | none => exact h'
    | some st' =>
      obtain ⟨hid', hrem', c', hentry', hst'⟩ := h'
      have hdiff : id' ≠ id := fun heq => hid (hne heq)
      exact ⟨hid', (List.mem_erase_of_ne hdiff).mpr hrem', c', BlockingMap.mem_entries_erase.mpr ⟨hentry', hdiff⟩, hst'⟩

end Peek

/-- The sub-requests of a large call with their outcomes. Their IDs are different unless they are invalid. -/
structure SubOutcomes (sh : Shared n) (writereq callreq readreq : ReqId) (write call read : Option CommandState) : Prop where
  write : sh.Outcome writereq write
  call : sh.Outcome callreq call
  read : sh.Outcome readreq read
  write_ne_call : callreq = writereq → writereq = requestIdInvalid
  write_ne_read : readreq = writereq → writereq = requestIdInvalid
  call_ne_read : readreq = callreq → callreq = requestIdInvalid

variable {sh : Shared n} {writereq callreq readreq : ReqId} {write call read : Option CommandState}

/-- The finaliser sees the three outcomes, and success where there was no sub-request. -/
theorem SubOutcomes.finaliser (h : SubOutcomes sh writereq callreq readreq write call read) (t : Tid n) :
    let r := (finaliser sh t writereq callreq readreq).2
    r.writestat = write.getD .ok ∧ r.callstat = call.getD .ok ∧ r.readstat = read.getD .ok := by
  have hcall := h.write.finPeek t .write (.new 0) h.call h.write_ne_call
  have hread := h.write.finPeek t .write (.new 0) h.read h.write_ne_read
  have hread' := hcall.finPeek t .call (finPeek t .write writereq (sh, .new 0)).2 hread h.call_ne_read
  refine ⟨?_, ?_, ?_⟩
  · calc (Aveo.finaliser sh t writereq callreq readreq).2.stat .write
        = (finPeek t .call callreq (finPeek t .write writereq (sh, .new 0))).2.stat .write :=
          finPeek_stat_of_ne _ (by decide)
      _ = (finPeek t .write writereq (sh, .new 0)).2.stat .write := finPeek_stat_of_ne _ (by decide)
      _ = write.getD .ok := finPeek_stat_self h.write rfl
  · calc (Aveo.finaliser sh t writereq callreq readreq).2.stat .call
        = (finPeek t .call callreq (finPeek t .write writereq (sh, .new 0))).2.stat .call :=
          finPeek_stat_of_ne _ (by decide)
      _ = call.getD .ok := finPeek_stat_self hcall (finPeek_stat_of_ne _ (by decide))
  · have hinit : (finPeek t .call callreq (finPeek t .write writereq (sh, .new 0))).2.stat .read = .ok := by
      rw [finPeek_stat_of_ne _ (by decide), finPeek_stat_of_ne _ (by decide)]
      rfl
    exact (finPeek_stat_self hread' hinit : (Aveo.finaliser sh t writereq callreq readreq).2.stat .read = _)

theorem Regs.finalStatus_ok_iff (r : Regs) :
    r.finalStatus = .ok ↔ r.writestat = .ok ∧ r.callstat = .ok ∧ r.readstat = .ok := by
  rw [Regs.finalStatus]
  by_cases hw : r.writestat = .ok
  · by_cases hc : r.callstat = .ok
    · simp [hw, hc]
    · simp [hw, hc]
  · simp [hw]

/-- What a large call has to achieve: the call and the transfers that belong to it were submitted and completed OK. -/
structure CallDone (copyin copyout : Bool) (write call read : Option CommandState) : Prop where
  call : call = some .ok
  write : copyin = true → write = some .ok
  read : copyout = true → read = some .ok

/-- The outcomes under which the finaliser reports truly: a sub-request that is missing is made up for by one that
failed, and the OUT buffers are not at stake or the call before the read succeeded. -/
structure Reported (copyin copyout : Bool) (write call read : Option CommandState) : Prop where
  status :
    (call ≠ none ∧ (copyin = true → write ≠ none) ∧ (copyout = true → read ≠ none)) ∨
      ∃ st ∈ [write, call, read], st ≠ none ∧ st ≠ some .ok
  buffers : copyout = true →
    read ≠ none ∧ (read = some .ok → call = some .ok ∧ (copyin = true → write = some .ok))

theorem getD_ok_iff (o : Option CommandState) : o.getD .ok = .ok ↔ o = none ∨ o = some .ok := by
  cases o <;> simp

/-- The status is OK if no sub-request that was submitted failed. -/
theorem status_reported_iff (copyin copyout : Bool) (write call read : Option CommandState) :
    ((write = none ∨ write = some .ok) ∧ (call = none ∨ call = some .ok) ∧ (read = none ∨ read = some .ok) →
      CallDone copyin copyout write call read) ↔
    (call ≠ none ∧ (copyin = true → write ≠ none) ∧ (copyout = true → read ≠ none)) ∨
      ∃ st ∈ [write, call, read], st ≠ none ∧ st ≠ some .ok := by
  constructor
  · intro h
    by_cases hgood : (write = none ∨ write = some .ok) ∧ (call = none ∨ call = some .ok) ∧ (read = none ∨ read = some .ok)
    · obtain ⟨hcall, hwrite, hread⟩ := h hgood
      exact .inl ⟨by simp [hcall], fun hin => by simp [hwrite hin], fun hout => by simp [hread hout]⟩
    · right
      simp only [not_and_or, not_or] at hgood
      rcases hgood with hw | hc | hr
      · exact ⟨write, by simp, hw⟩
      · exact ⟨call, by simp, hc⟩
      · exact ⟨read, by simp, hr⟩
  · rintro (⟨hcall, hwrite, hread⟩ | ⟨st, hmem, hnone, hok⟩) ⟨hw, hc, hr⟩
    · exact ⟨hc.resolve_left hcall, fun hin => hw.resolve_left (hwrite hin), fun hout => hr.resolve_left (hread hout)⟩
    · simp only [List.mem_cons, List.not_mem_nil, or_false] at hmem
      rcases hmem with rfl | rfl | rfl
      · exact absurd hw (not_or.mpr ⟨hnone, hok⟩)
      · exact absurd hc (not_or.mpr ⟨hnone, hok⟩)
      · exact absurd hr (not_or.mpr ⟨hnone, hok⟩)

/-- The OUT buffers are written if the read was not submitted or succeeded. -/
theorem buffers_reported_iff (copyin copyout : Bool) (write call read : Option CommandState) :
    ((read = none ∨ read = some .ok) ∧ copyout = true → CallDone copyin copyout write call read) ↔
    (copyout = true → read ≠ none ∧ (read = some .ok → call = some .ok ∧ (copyin = true → write = some .ok))) := by
  constructor
  · intro h hout
    refine ⟨fun hnone => ?_, fun hok => ?_⟩
    · have := (h ⟨.inl hnone, hout⟩).read hout
      rw [hnone] at this
      cases this
    · have hdone := h ⟨.inr hok, hout⟩
      exact ⟨hdone.call, hdone.write⟩
  · rintro h ⟨hread, hout⟩
    obtain ⟨hnone, hcall⟩ := h hout
    have hok := hread.resolve_left hnone
    exact ⟨(hcall hok).1, (hcall hok).2, fun _ => hok⟩

/-! ### The finaliser on the machine -/

theorem peekResult_terminated (sh : Shared n) (t : Tid n) (id : ReqId) :
    (sh.peekResult t id).1.terminated = sh.terminated := by
  rw [Shared.peekResult]
  split
  · split <;> rfl
  · rfl

/-- The part of the code for one sub-request. -/
theorem finPeek_steps {s : State n} {t : Tid n} {sub : Sub} {id : ReqId} {rest : List Instr} {r : Regs}
    (hterm : s.sh.terminated = false)
    (hapi : s.api t = ⟨.run, (if id ≠ requestIdInvalid then [.finPeek sub id] else []) ++ rest, r⟩) :
    ∃ s', (context n).Steps Machine.anyStep s s' ∧ s'.main = s.main ∧ s'.sh.terminated = false ∧
      s'.sh = (finPeek t sub id (s.sh, r)).1 ∧ s'.api t = ⟨.run, rest, (finPeek t sub id (s.sh, r)).2⟩ := by
  by_cases hid : id = requestIdInvalid
  · rw [if_neg (not_not.mpr hid), List.nil_append] at hapi
    exact ⟨s, .refl s, rfl, hterm, by rw [finPeek_invalid _ hid], by rw [finPeek_invalid _ hid, hapi]⟩
  · rw [if_pos hid] at hapi
    have hstep : (context n).step s (.api t .tau) =
        some ({ s with sh := (s.sh.peekResult t id).1 }.setApi t
          ⟨.run, rest, r.seen (s.sh.peekResult t id).2.1 (s.sh.peekResult t id).2.2 sub⟩) := by
      simp only [context, State.step, hterm, apiStep, hapi]
      rfl
    refine ⟨_, .tail (.refl s) hstep trivial, rfl, (peekResult_terminated _ _ _).trans hterm, ?_, ?_⟩
    · rw [finPeek, if_pos hid]
      rfl
    · rw [finPeek, if_pos hid]
      exact Function.update_self _ _ _

/-- The progress thread runs the finaliser of a command, and completes the command with its result. -/
theorem finaliser_steps {s : State n} {cmd : Command} {writereq callreq readreq : ReqId} (val : Word)
    (hterm : s.sh.terminated = false) (hmain : s.main = .vh cmd)
    (hapi : s.api none = ⟨.run, vhCode (.finaliser writereq callreq readreq), .new 0⟩) :
    ∃ s', (context n).Steps Machine.anyStep s s' ∧
      s'.sh = ((finaliser s.sh none writereq callreq readreq).1.emit (.vhReturn cmd.msgid)) ∧
      s'.main = .pass (.executed (vhResult cmd (finaliser s.sh none writereq callreq readreq).2 val)) := by
  rw [vhCode, List.append_assoc] at hapi
  obtain ⟨s₁, hsteps₁, hmain₁, hterm₁, hsh₁, hapi₁⟩ := finPeek_steps hterm hapi
  obtain ⟨s₂, hsteps₂, hmain₂, hterm₂, hsh₂, hapi₂⟩ := finPeek_steps hterm₁ hapi₁
  rw [← List.append_nil (if readreq ≠ requestIdInvalid then _ else _)] at hapi₂
  obtain ⟨s₃, hsteps₃, hmain₃, hterm₃, hsh₃, hapi₃⟩ := finPeek_steps hterm₂ hapi₂
  have hvh : s₃.main = .vh cmd := by rw [hmain₃, hmain₂, hmain₁, hmain]
  have hreturn : (context n).step s₃ (.main (.vhReturn val)) = some { s₃ with
      sh := s₃.sh.emit (.vhReturn cmd.msgid)
      main := .pass (.executed (vhResult cmd (s₃.api none).regs val)) } := by
    simp only [context, State.step, hterm₃, mainStep, hvh, hapi₃]
    rfl
  refine ⟨_, .tail ((hsteps₁.trans hsteps₂).trans hsteps₃) hreturn trivial, ?_, ?_⟩
  · rw [hsh₃, hsh₂, hsh₁]
    rfl
  · rw [hapi₃, hsh₂, hsh₁]
    rfl

/-- A large call is reported OK, and its OUT buffers are written, only when the call and the transfers that belong to
it succeeded: exactly under the condition `Reported` on the outcomes. -/
theorem large_call_status_iff (h : SubOutcomes sh writereq callreq readreq write call read) (t : Tid n)
    (copyin copyout : Bool) (cmd : Command) (hcmd : cmd.closure = .finaliser writereq callreq readreq) (val : Word) :
    let r := (finaliser sh t writereq callreq readreq).2
    ((vhResult cmd r val).status = .ok → CallDone copyin copyout write call read) ∧
      (copiesOut r copyout = true → CallDone copyin copyout write call read) ↔
    Reported copyin copyout write call read := by
  obtain ⟨hw, hc, hr⟩ := h.finaliser t
  have hstatus : (vhResult cmd (finaliser sh t writereq callreq readreq).2 val).status =
      (finaliser sh t writereq callreq readreq).2.finalStatus := by
    rw [vhResult, hcmd]
    rfl
  simp only [hstatus, Regs.finalStatus_ok_iff, copiesOut, Bool.and_eq_true, decide_eq_true_eq, hw, hc, hr, getD_ok_iff,
    status_reported_iff, buffers_reported_iff]
  exact ⟨fun ⟨h₁, h₂⟩ => ⟨h₁, h₂⟩, fun h => ⟨h.status, h.buffers⟩⟩

/-- The shared state after a write and a call that completed OK. -/
def bothCompleted : Shared 1 :=
  let q := CommQueue.new.pushCompletion ((Command.new 0 (.sendBuff requestIdInvalid)).setResult 0 .ok)
  { Shared.new 1 with remReqid := [1, 0], comq := q.pushCompletion ((Command.new 1 .simpleCall).setResult 7 .ok) }

theorem bothCompleted_outcomes : SubOutcomes bothCompleted 0 1 requestIdInvalid (some .ok) (some .ok) none where
  write := ⟨by decide, by decide, (Command.new 0 (.sendBuff requestIdInvalid)).setResult 0 .ok, by decide, rfl⟩
  call := ⟨by decide, by decide, (Command.new 1 .simpleCall).setResult 7 .ok, by decide, rfl⟩
  read := rfl
  write_ne_call := by decide
  write_ne_read := by decide
  call_ne_read := by decide

theorem large_call_status_copyin :
    let r := (finaliser bothCompleted none 0 1 requestIdInvalid).2
    (vhResult (.new 2 (.finaliser 0 1 requestIdInvalid)) r 0).status = .ok ∧
      ((vhResult (.new 2 (.finaliser 0 1 requestIdInvalid)) r 0).status = .ok →
        CallDone true false (some .ok) (some .ok) none) ∧
      (copiesOut r false = true → CallDone true false (some .ok) (some .ok) none) :=
  ⟨by decide, (large_call_status_iff bothCompleted_outcomes none true false (.new 2 (.finaliser 0 1 requestIdInvalid)) rfl
    0).mpr ⟨.inl (by decide), by decide⟩⟩

/-- The VE side is found to have exited at each sub-request of a large call, but not at its start; the finaliser is
queued, and the progress thread takes it. -/
def largeCallTrace : List (Label 1) :=
  List.flatten [[.call (some 0) (.largeCallAsync true true 1 1), .api (some 0) .tau, .api (some 0) .tau],
    List.flatten (List.replicate 3 [.api (some 0) .exited, .api (some 0) .tau]), List.replicate 12 (.api (some 0) .tau),
    List.replicate 6 (.main .tau)]

/-- A large call of which nothing was submitted: the finaliser copies to the OUT buffers, and the user gets OK. -/
theorem large_call_not_submitted :
    ∃ s d : State 1, (context 1).Reachable Machine.anyStep s ∧ (context 1).Steps Machine.anyStep s d ∧
      s.main = .vh (.new 0 (.finaliser requestIdInvalid requestIdInvalid requestIdInvalid)) ∧
      copiesOut (finaliser s.sh none requestIdInvalid requestIdInvalid requestIdInvalid).2 true = true ∧
      pushedIds d.sh.log = [0] ∧ .answer (some 0) 0 .ok ∈ d.sh.log := by
  have hrun : ∃ s b d : State 1, (context 1).Reachable Machine.anyStep s ∧ (context 1).Steps Machine.anyStep s b ∧
      (context 1).Steps Machine.anyStep b d ∧
      (s.main = .vh (.new 0 (.finaliser requestIdInvalid requestIdInvalid requestIdInvalid)) &&
        copiesOut (finaliser s.sh none requestIdInvalid requestIdInvalid requestIdInvalid).2 true &&
        pushedIds d.sh.log = [0] && .answer (some 0) 0 .ok ∈ d.sh.log) = true :=
    Machine.exists_steps_of_run (M := context 1) (s := State.new 1) (c := fun _ _ _ => true) (fun _ _ _ _ => trivial)
      largeCallTrace [.main (.vhReturn 0), .main .tau]
      [.call (some 0) (.callPeekResult 0), .api (some 0) .tau, .api (some 0) .tau] _ rfl (by decide +kernel)
  obtain ⟨s, b, d, hs, hsb, hbd, hp⟩ := hrun
  simp only [Bool.and_eq_true, decide_eq_true_eq] at hp
  exact ⟨s, d, hs, hsb.trans hbd, hp.1.1.1, hp.1.1.2, hp.1.2, hp.2⟩

end Aveo

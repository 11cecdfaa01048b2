import Aveo.Context.Machine

/-!
# What an instruction and a pass do to the requests

Most instructions of a call leave the request IDs where they are. The ones that do not issue an ID,
flag its command, push it, or take a result out of the completion map; and the instructions that get
`prog_mtx` start a pass. `ExecEffect` says this once, and the invariants about requests use it instead of the
instructions. `_peekResult` and the result functions of a pass are treated in the same way.
-/

namespace Aveo

open Lib

variable {n : Nat}

/-- An event about an answer, which does not change where a request is. -/
def Event.isQuiet : Event n → Bool
  | .answer _ _ _ | .syncReturn _ _ _ => true
  | _ => false

/-- Nothing happened to a request. -/
structure Quiet (sh sh' : Shared n) : Prop where
  request : sh'.comq.request = sh.comq.request
  inflight : sh'.comq.inflight = sh.comq.inflight
  completion : sh'.comq.completion = sh.comq.completion
  seqNo : sh'.seqNo = sh.seqNo
  progMtx : sh'.progMtx = sh.progMtx
  used : sh.used ⊆ sh'.used
  thrown : sh'.thrown = sh.thrown
  log : ∃ es, sh'.log = sh.log ++ es ∧ ∀ e ∈ es, e.isQuiet = true

namespace Quiet

variable {sh sh' : Shared n}

/-- A step that changes none of the fields that matter here. -/
theorem of_log_eq (hr : sh'.comq.request = sh.comq.request) (hi : sh'.comq.inflight = sh.comq.inflight)
    (hc : sh'.comq.completion = sh.comq.completion) (hs : sh'.seqNo = sh.seqNo) (hm : sh'.progMtx = sh.progMtx)
    (hu : sh.used ⊆ sh'.used) (ht : sh'.thrown = sh.thrown) (hl : sh'.log = sh.log) : Quiet sh sh' :=
  ⟨hr, hi, hc, hs, hm, hu, ht, [], by rw [hl, List.append_nil], by simp⟩

theorem refl (sh : Shared n) : Quiet sh sh := of_log_eq rfl rfl rfl rfl rfl (List.Subset.refl _) rfl rfl

theorem emit {e : Event n} (h : Quiet sh sh') (he : e.isQuiet = true) : Quiet sh (sh'.emit e) := by
  obtain ⟨es, hlog, hes⟩ := h.log
  refine ⟨h.request, h.inflight, h.completion, h.seqNo, h.progMtx, h.used, h.thrown, es ++ [e], ?_, ?_⟩
  · rw [Shared.emit, hlog, List.append_assoc]
  · intro x hx
    rcases List.mem_append.mp hx with hx | hx
    · exact hes x hx
    · rwa [List.mem_singleton.mp hx]

theorem ids (h : Quiet sh sh') : sh'.comq.ids = sh.comq.ids :=
  CommQueue.ids_eq_of_fields h.request h.inflight h.completion

/-- A projection of the log that ignores quiet events is unchanged. -/
theorem filterMap_log {α : Type} {f : Event n → Option α} (h : Quiet sh sh')
    (hf : ∀ e : Event n, e.isQuiet = true → f e = none) : sh'.log.filterMap f = sh.log.filterMap f := by
  obtain ⟨es, hlog, hes⟩ := h.log
  have hnil : es.filterMap f = [] := List.filterMap_eq_nil_iff.mpr fun e he => hf e (hes e he)
  rw [hlog, List.filterMap_append, hnil, List.append_nil]

theorem pushedIds (h : Quiet sh sh') : pushedIds sh'.log = Aveo.pushedIds sh.log :=
  h.filterMap_log fun e he => by cases e <;> simp_all [Event.isQuiet, Event.pushedId]

theorem startedIds (h : Quiet sh sh') : startedIds sh'.log = Aveo.startedIds sh.log :=
  h.filterMap_log fun e he => by cases e <;> simp_all [Event.isQuiet, Event.startedId]

theorem deliveredIds (h : Quiet sh sh') : deliveredIds sh'.log = Aveo.deliveredIds sh.log :=
  h.filterMap_log fun e he => by cases e <;> simp_all [Event.isQuiet, Event.deliveredId]

theorem discardedIds (h : Quiet sh sh') : discardedIds sh'.log = Aveo.discardedIds sh.log :=
  h.filterMap_log fun e he => by cases e <;> simp_all [Event.isQuiet, Event.discardedId]

theorem mem_log {e : Event n} (h : Quiet sh sh') (he : e.isQuiet = false) : e ∈ sh'.log ↔ e ∈ sh.log := by
  obtain ⟨es, hlog, hes⟩ := h.log
  rw [hlog, List.mem_append]
  refine ⟨fun hmem => hmem.elim id fun hin => ?_, Or.inl⟩
  rw [hes e hin] at he
  cases he

end Quiet

/-! ### Taking a result -/

/-- A completed command leaves the completion map and is delivered to a thread. -/
def Shared.take (sh : Shared n) (t : Tid n) (id : ReqId) : Shared n :=
  { sh with
    comq := { sh.comq with completion := sh.comq.completion.erase id }
    log := sh.log ++ [.deliver t id] }

/-- Nothing happened to a request, or one was delivered. -/
inductive Peeked (t : Tid n) (sh sh' : Shared n) : Prop
  | quiet (h : Quiet sh sh')
  | take {id : ReqId} {c : Command} (hentry : (id, c) ∈ sh.comq.completion.entries)
      (h : Quiet (sh.take t id) sh')

theorem Peeked.trans_quiet {t : Tid n} {sh sh₁ sh' : Shared n} (h : Peeked t sh sh₁)
    (hq : ∀ sh₀, Quiet sh₀ sh₁ → Quiet sh₀ sh') : Peeked t sh sh' := by
  cases h with
  | quiet h => exact .quiet (hq _ h)
  | take hentry h => exact .take hentry (hq _ h)

theorem peeked_peekResult (sh : Shared n) (t : Tid n) (id : ReqId) : Peeked t sh (sh.peekResult t id).1 := by
  unfold Shared.peekResult
  split
  · split
    · rename_i c q hpeek
      obtain ⟨hentry, rfl⟩ := CommQueue.peekCompletion_eq_some.mp hpeek
      exact .take hentry (.of_log_eq rfl rfl rfl rfl rfl (List.Subset.refl _) rfl rfl)
    · exact .quiet (.refl sh)
  · exact .quiet (.refl sh)

theorem peeked_peekPrev (sh : Shared n) (t : Tid n) (prev : ReqId) : Peeked t sh (sh.peekPrev t prev).1 := by
  unfold Shared.peekPrev
  split
  · exact .quiet (.refl sh)
  · exact peeked_peekResult sh t prev

theorem quiet_unpackResult (sh : Shared n) (cmd : Command) (m : Reply) :
    Quiet sh (sh.unpackResult cmd m).1 := by
  unfold Shared.unpackResult
  split
  · exact .refl sh
  · exact .of_log_eq rfl rfl rfl rfl rfl (List.Subset.refl _) rfl rfl

theorem peeked_unpack (sh : Shared n) (t : Tid n) (cmd : Command) (m : Reply) :
    Peeked t sh (sh.unpack t cmd m).1 := by
  unfold Shared.unpack
  cases cmd.closure with
  | simpleCall => exact .quiet (quiet_unpackResult sh cmd m)
  | generic => cases m <;> first | exact .quiet (.refl sh) | exact .quiet (quiet_unpackResult sh cmd _)
  | sendBuff prev => cases m <;> exact peeked_peekPrev sh t prev
  | recvBuff prev =>
    dsimp only
    split
    · exact peeked_peekPrev sh t prev
    · exact .quiet (.refl sh)
  | callVH | synchronizeFunc | emptyTransfer | finaliser => exact .quiet (.refl sh)

/-- A command with another result: what the result functions and the submit functions leave alone. -/
structure SameCommand (cmd cmd' : Command) : Prop where
  msgid : cmd'.msgid = cmd.msgid
  nowait : cmd'.nowait = cmd.nowait
  closure : cmd'.closure = cmd.closure

theorem sameCommand_unpackResult (sh : Shared n) (cmd : Command) (m : Reply) :
    SameCommand cmd (sh.unpackResult cmd m).2.1 := by
  unfold Shared.unpackResult
  split <;> exact ⟨rfl, rfl, rfl⟩

theorem sameCommand_unpack (sh : Shared n) (t : Tid n) (cmd : Command) (m : Reply) :
    SameCommand cmd (sh.unpack t cmd m).2.1 := by
  unfold Shared.unpack
  cases cmd.closure with
  | simpleCall => exact sameCommand_unpackResult sh cmd m
  | generic => cases m <;> exact ⟨rfl, rfl, rfl⟩
  | sendBuff prev => cases m <;> exact ⟨rfl, rfl, rfl⟩
  | recvBuff prev =>
    dsimp only
    split <;> exact ⟨rfl, rfl, rfl⟩
  | callVH | synchronizeFunc | emptyTransfer | finaliser => exact ⟨rfl, rfl, rfl⟩

/-! ### Instructions -/

/-- What an instruction of a call on thread `t` does to the requests. -/
inductive ExecEffect (t : Tid n) (sh : Shared n) (r : Regs) (i : Instr) : Shared n → Api → Prop
  | quiet {sh' : Shared n} {code : List Instr} {r' : Regs} (h : Quiet sh sh') (hcur : r'.cur = r.cur) :
      ExecEffect t sh r i sh' ⟨.run, code, r'⟩
  | issue {sh' : Shared n} {code : List Instr} {r' : Regs} {b : Build} {kept : Bool} (hi : i = .issue b kept)
      (h : Quiet { sh with seqNo := sh.seqNo + 1 } sh') (hcur : r'.cur = some (.new sh.seqNo (b.closure r))) :
      ExecEffect t sh r i sh' ⟨.run, code, r'⟩
  | nowait {sh' : Shared n} {code : List Instr} {r' : Regs} {cmd : Command} (hcmd : r.cur = some cmd)
      (h : Quiet (sh.emit (.nowait cmd.msgid)) sh') (hcur : r'.cur = some (cmd.setNowaitFlag true)) (hi : i = .setNowait) :
      ExecEffect t sh r i sh' ⟨.run, code, r'⟩
  | push {code : List Instr} {r' : Regs} {cmd : Command} (hi : i = .pushRequest) (hcmd : r.cur = some cmd) (hcur : r'.cur = none) :
      ExecEffect t sh r i
        { sh with comq := sh.comq.pushRequest cmd, log := sh.log ++ [.push t sh.holds cmd.msgid cmd.closure] }
        ⟨.run, code, r'⟩
  | lock {m : RecMutex (Tid n)} {k : After} {code : List Instr} (hlock : sh.progMtx.tryLock t = some m) :
      ExecEffect t sh r i { sh with progMtx := m } ⟨.inPass .poll k, code, r⟩
  | take {sh' : Shared n} {code : List Instr} {r' : Regs} {id : ReqId} {c : Command}
      (hentry : (id, c) ∈ sh.comq.completion.entries) (h : Quiet (sh.take t id) sh') (hcur : r'.cur = r.cur) :
      ExecEffect t sh r i sh' ⟨.run, code, r'⟩

theorem ExecEffect.of_peeked {t : Tid n} {sh sh' : Shared n} {r r' : Regs} {i : Instr} {code : List Instr}
    (h : Peeked t sh sh') (hcur : r'.cur = r.cur) : ExecEffect t sh r i sh' ⟨.run, code, r'⟩ := by
  cases h with
  | quiet h => exact .quiet h hcur
  | take hentry h => exact .take hentry h hcur

theorem Regs.save_cur (r : Regs) (sub : Sub) : (r.save sub).cur = r.cur := by
  cases sub <;> rfl

theorem Regs.seen_cur (r : Regs) (status : CommandState) (val : Word) (sub : Sub) :
    (r.seen status val sub).cur = r.cur := by
  cases sub <;> rfl

/-- An instruction that changes only fields that say nothing about requests. -/
theorem ExecEffect.of_rfl {t : Tid n} {sh sh' : Shared n} {r r' : Regs} {i : Instr}
    {code : List Instr} (hr : sh'.comq.request = sh.comq.request) (hi : sh'.comq.inflight = sh.comq.inflight)
    (hc : sh'.comq.completion = sh.comq.completion) (hs : sh'.seqNo = sh.seqNo) (hm : sh'.progMtx = sh.progMtx)
    (hu : sh.used ⊆ sh'.used) (ht : sh'.thrown = sh.thrown) (hl : sh'.log = sh.log) (hcur : r'.cur = r.cur) :
    ExecEffect t sh r i sh' ⟨.run, code, r'⟩ :=
  .quiet (.of_log_eq hr hi hc hs hm hu ht hl) hcur

theorem exec_effect {t : Tid n} {exited : Bool} {sh sh' : Shared n} {r : Regs} {rest : List Instr} {i : Instr}
    {env : Env} {a : Api} (h : exec t exited sh r rest i env = some (sh', a)) : ExecEffect t sh r i sh' a := by
  have hused : sh.used ⊆ sh.used := List.Subset.refl _
  cases i with
  | remInsert | clearPrev | terminate | setExit | unlockCtx =>
    cases env <;> cases h
    exact .of_rfl rfl rfl rfl rfl rfl hused rfl rfl rfl
  | isAlive skip =>
    cases env with
    | tau =>
      simp only [exec] at h
      split at h <;> cases h <;> exact .of_rfl rfl rfl rfl rfl rfl hused rfl rfl rfl
    | exited => cases h; exact .of_rfl rfl rfl rfl rfl rfl hused rfl rfl rfl
    | _ => cases h
  | issue b kept =>
    cases env with
    | tau =>
      simp only [exec] at h
      split at h
      · cases h
        exact .issue rfl (.of_log_eq rfl rfl rfl rfl rfl hused rfl rfl) rfl
      · cases h
    | _ => cases h
  | setNowait =>
    cases env with
    | tau =>
      simp only [exec, Option.map_eq_some_iff] at h
      obtain ⟨cmd, hcmd, heq⟩ := h
      cases heq
      exact .nowait hcmd (.of_log_eq rfl rfl rfl rfl rfl hused rfl rfl) rfl rfl
    | _ => cases h
  | lockSubmit | unlockSubmit | reqBlockBegin | reqBlockEnd =>
    cases env with
    | tau =>
      simp only [exec, Option.map_eq_some_iff] at h
      obtain ⟨m, -, heq⟩ := h
      cases heq
      exact .of_rfl rfl rfl rfl rfl rfl hused rfl rfl rfl
    | _ => cases h
  | pushRequest =>
    cases env with
    | tau =>
      simp only [exec, Option.map_eq_some_iff] at h
      obtain ⟨cmd, hcmd, heq⟩ := h
      cases heq
      exact .push rfl hcmd rfl
    | _ => cases h
  | newpeerSend =>
    cases env with
    | sent req =>
      simp only [exec] at h
      split at h
      · cases h
        exact .of_rfl rfl rfl rfl rfl rfl (List.subset_cons_self _ _) rfl rfl rfl
      · cases h
    | refused => cases h; exact .quiet (.refl sh) rfl
    | _ => cases h
  | newpeerWait =>
    cases env with
    | tau =>
      simp only [exec] at h
      split at h
      · cases h
        exact .of_rfl rfl rfl rfl rfl rfl hused rfl rfl rfl
      · cases h
    | timeout => cases h; exact .quiet (.refl sh) rfl
    | _ => cases h
  | progress | join | syncWait | lockCtx =>
    cases env with
    | tau =>
      simp only [exec] at h
      split at h <;> cases h <;> exact .of_rfl rfl rfl rfl rfl rfl hused rfl rfl rfl
    | _ => cases h
  | progressTry | peekTry id | waitTry id =>
    cases env with
    | tau =>
      simp only [exec] at h
      split at h
      · rename_i m hlock
        cases h
        exact .lock hlock
      · cases h
        exact .of_rfl rfl rfl rfl rfl rfl hused rfl rfl rfl
    | _ => cases h
  | notifyAll | waitNotify id =>
    cases env <;> cases h
    exact .of_rfl CommQueue.notifyAll_request CommQueue.notifyAll_inflight CommQueue.notifyAll_completion
      rfl rfl hused rfl rfl rfl
  | save sub =>
    cases env <;> cases h
    exact .of_rfl rfl rfl rfl rfl rfl hused rfl rfl (Regs.save_cur r sub)
  | peekResult id =>
    cases env <;> cases h
    exact .of_peeked ((peeked_peekResult sh t id).trans_quiet fun _ hq => hq.emit rfl) rfl
  | waitPeek id =>
    cases env with
    | tau =>
      simp only [exec] at h
      split at h
      · cases h
        exact .of_peeked (peeked_peekResult sh t id) rfl
      · cases h
        exact .of_peeked ((peeked_peekResult sh t id).trans_quiet fun _ hq => hq.emit rfl) rfl
    | _ => cases h
  | finPeek sub id =>
    cases env <;> cases h
    exact .of_peeked (peeked_peekResult sh t id) (Regs.seen_cur r _ _ sub)
  | waitCheck id =>
    cases env with
    | tau =>
      simp only [exec] at h
      split at h
      · cases h
        exact .quiet (.refl sh) rfl
      · cases h
        exact .quiet ((Quiet.refl sh).emit rfl) rfl
    | _ => cases h
  | waitCompletion id =>
    cases env with
    | tau =>
      simp only [exec, Option.map_eq_some_iff, Prod.exists] at h
      obtain ⟨c, q, hpeek, heq⟩ := h
      obtain ⟨hentry, rfl⟩ := CommQueue.peekCompletion_eq_some.mp hpeek
      cases heq
      exact .take hentry (.of_log_eq rfl rfl rfl rfl rfl hused rfl rfl) rfl
    | _ => cases h
  | waitErase id c =>
    cases env with
    | tau =>
      simp only [exec] at h
      split at h
      · cases h
        refine .quiet (Quiet.emit ?_ rfl) rfl
        exact .of_log_eq rfl rfl rfl rfl rfl hused rfl rfl
      · cases h
        exact .quiet ((Quiet.refl sh).emit rfl) rfl
    | _ => cases h
  | syncReturn =>
    cases env <;> cases h
    exact .quiet ((Quiet.refl sh).emit rfl) rfl

theorem ExecEffect.inflight {t : Tid n} {sh sh' : Shared n} {r : Regs} {i : Instr} {a : Api}
    (h : ExecEffect t sh r i sh' a) : sh'.comq.inflight = sh.comq.inflight ∧ sh.used ⊆ sh'.used := by
  cases h with
  | quiet h | issue _ h | nowait _ h | take _ h => exact ⟨h.inflight, h.used⟩
  | push | lock => exact ⟨rfl, List.Subset.refl _⟩

/-! ### Passes -/

/-- What a step of a pass on thread `t` does to the requests. -/
inductive PassEffect (execVH : Bool) (t : Tid n) (sh : Shared n) : PassPc → Shared n → PassOut → Prop
  | quiet {p : PassPc} {sh' : Shared n} {out : PassOut} (hp : p.hand = none) (hout : out.hand = none)
      (hne : out ≠ .throws) (h : Quiet sh sh') (hlog : sh'.log = sh.log) : PassEffect execVH t sh p sh' out
  | throws {req : Int} {m : Reply} (h : req ∉ sh.comq.inflight.keys) :
      PassEffect execVH t sh (.reply req m) { sh with thrown := true } .throws
  | popInFlight {req : Int} {m : Reply} {cmd : Command} (hentry : (req, cmd) ∈ sh.comq.inflight.entries) :
      PassEffect execVH t sh (.reply req m)
        { sh with comq := { sh.comq with inflight := sh.comq.inflight.erase req } } (.next (.unpack cmd m))
  | cancelInflight {req : Int} {cmd : Command} (hentry : (req, cmd) ∈ sh.comq.inflight.entries) :
      PassEffect execVH t sh .cancelInflight
        { sh with
          comq := { sh.comq with inflight := sh.comq.inflight.erase req }
          log := sh.log ++ [.cancel cmd.msgid false] }
        (.next (.cancelledInflight cmd))
  | unpack {cmd cmd' : Command} {m : Reply} {failed : Bool} {sh' : Shared n} (h : Peeked t sh sh')
      (hcmd : SameCommand cmd cmd') (hunpack : sh.unpack t cmd m = (sh', cmd', failed)) :
      PassEffect execVH t sh (.unpack cmd m) sh' (.next (.received cmd' failed))
  | complete {p p' : PassPc} {cmd cmd' : Command}
      (hp : (∃ failed, p = .received cmd failed ∧ cmd.nowait = false) ∨ p = .rejected cmd ∨ p = .executed cmd ∨
        p = .cancelledRequest cmd ∨ p = .cancelledInflight cmd)
      (hp' : p'.hand = none) (hcmd : SameCommand cmd cmd') (hres : p.result = some cmd') :
      PassEffect execVH t sh p { sh with comq := sh.comq.pushCompletion cmd' } (.next p')
  | discard {cmd : Command} {failed : Bool} {p' : PassPc} (hnowait : cmd.nowait = true) (hp' : p'.hand = none) :
      PassEffect execVH t sh (.received cmd failed) (sh.emit (.discard cmd.msgid)) (.next p')
  | popRequest {cmd : Command} {rest : List Command} (hreq : sh.comq.request = cmd :: rest) :
      PassEffect execVH t sh .tryPop { sh with comq := { sh.comq with request := rest } } (.next (.popped cmd))
  | cancelRequest {cmd : Command} {rest : List Command} (hreq : sh.comq.request = cmd :: rest) :
      PassEffect execVH t sh .cancelRequest
        { sh with comq := { sh.comq with request := rest }, log := sh.log ++ [.cancel cmd.msgid true] }
        (.next (.cancelledRequest cmd))
  | startVH {cmd : Command} (hvh : cmd.isVH = true) (hempty : sh.comq.inflight.isEmpty = true) (hexec : execVH = true) :
      PassEffect execVH t sh (.popped cmd) (sh.emit (.vhStart cmd.msgid)) (.startVH cmd)
  | submit {cmd : Command} {req : Int} (hvh : cmd.isVH = false) (hreq : sh.accepts req = true) :
      PassEffect execVH t sh (.popped cmd) ((sh.send req).emit (.submit cmd.msgid req))
        (.next (.submitted (cmd.setURPCReq req .unfinished)))
  | reject {cmd cmd' : Command} (hvh : cmd.isVH = false) (hcmd : SameCommand cmd cmd') (hstatus : cmd'.status = .error) :
      PassEffect execVH t sh (.popped cmd) (sh.emit (.reject cmd.msgid)) (.next (.rejected cmd'))
  | defer {cmd : Command} {defer : Bool} : PassEffect execVH t sh (.popped cmd) sh (.next (.putBack cmd defer))
  | pushInFlight {cmd : Command} :
      PassEffect execVH t sh (.submitted cmd) { sh with comq := sh.comq.pushInFlight cmd } (.next .poll)
  | pushRequestFront {cmd : Command} {defer : Bool} {out : PassOut} (hout : out = .ret 1 ∨ out = .next .idle) :
      PassEffect execVH t sh (.putBack cmd defer) { sh with comq := sh.comq.pushRequestFront cmd } out

theorem passStep_effect {execVH : Bool} {t : Tid n} {sh sh' : Shared n} {p : PassPc} {env : Env} {out : PassOut}
    (h : passStep execVH t sh p env = some (sh', out)) : PassEffect execVH t sh p sh' out := by
  have hused : sh.used ⊆ sh.used := List.Subset.refl _
  cases p with
  | poll =>
    cases env with
    | reply req m =>
      simp only [passStep] at h
      split at h <;> cases h
      exact .quiet rfl rfl nofun (.of_log_eq rfl rfl rfl rfl rfl hused rfl rfl) rfl
    | noSlot | tau => cases h; exact .quiet rfl rfl nofun (.refl sh) rfl
    | _ => cases h
  | reply req m =>
    cases env with
    | tau =>
      simp only [passStep] at h
      split at h
      · rename_i hnone
        cases h
        exact .throws (CommQueue.popInFlight_eq_none.mp hnone)
      · rename_i cmd q hpop
        obtain ⟨hentry, rfl⟩ := CommQueue.popInFlight_eq_some.mp hpop
        cases h
        exact .popInFlight hentry
    | _ => cases h
  | unpack cmd m =>
    cases env <;> cases h
    exact .unpack (peeked_unpack sh t cmd m) (sameCommand_unpack sh t cmd m) rfl
  | received cmd failed =>
    cases env <;> cases h
    cases hnowait : cmd.nowait with
    | true => exact .discard hnowait (by cases failed <;> rfl)
    | false => exact .complete (.inl ⟨failed, rfl, hnowait⟩) (by cases failed <;> rfl) ⟨rfl, rfl, rfl⟩ rfl
  | failed => cases env <;> cases h; exact .quiet rfl rfl nofun (.of_log_eq rfl rfl rfl rfl rfl hused rfl rfl) rfl
  | cancelRequest =>
    cases env with
    | tau =>
      simp only [passStep] at h
      split at h
      · cases h
        exact .quiet rfl rfl nofun (.refl sh) rfl
      · rename_i cmd q hpop
        obtain ⟨rest, hreq, rfl⟩ := CommQueue.tryPopRequest_eq_some hpop
        cases h
        exact .cancelRequest hreq
    | _ => cases h
  | cancelledRequest cmd => cases env <;> cases h; exact .complete (.inr (.inr (.inr (.inl rfl)))) rfl ⟨rfl, rfl, rfl⟩ rfl
  | cancelInflight =>
    cases env with
    | pick req =>
      simp only [passStep] at h
      split at h
      · cases h
      · rename_i cmd q hpop
        obtain ⟨hentry, rfl⟩ := CommQueue.popInFlight_eq_some.mp hpop
        cases h
        exact .cancelInflight hentry
    | tau =>
      simp only [passStep] at h
      split at h <;> cases h
      exact .quiet rfl rfl nofun (.refl sh) rfl
    | _ => cases h
  | cancelledInflight cmd => cases env <;> cases h; exact .complete (.inr (.inr (.inr (.inr rfl)))) rfl ⟨rfl, rfl, rfl⟩ rfl
  | tryPop =>
    cases env with
    | tau =>
      simp only [passStep] at h
      split at h
      · cases h
        exact .quiet rfl rfl nofun (.refl sh) rfl
      · rename_i cmd q hpop
        obtain ⟨rest, hreq, rfl⟩ := CommQueue.tryPopRequest_eq_some hpop
        cases h
        exact .popRequest hreq
    | _ => cases h
  | popped cmd =>
    cases env with
    | tau =>
      simp only [passStep] at h
      split at h
      · rename_i hvh
        split at h <;> cases h
        · rename_i hand
          obtain ⟨hempty, hexec⟩ := Bool.and_eq_true_iff.mp hand
          exact .startVH hvh hempty hexec
        · exact .defer
      · cases h
    | sent req =>
      simp only [passStep] at h
      split at h <;> cases h
      rename_i hand
      obtain ⟨hvh, hreq⟩ := Bool.and_eq_true_iff.mp hand
      exact .submit (by simpa using hvh) hreq
    | again =>
      simp only [passStep] at h
      split at h <;> cases h
      exact .defer
    | refused =>
      simp only [passStep] at h
      split at h <;> cases h
      rename_i hvh
      exact .reject (by simpa using hvh) ⟨rfl, rfl, rfl⟩ rfl
    | _ => cases h
  | submitted cmd => cases env <;> cases h; exact .pushInFlight
  | putBack cmd defer => cases env <;> cases h; exact .pushRequestFront (by cases defer <;> simp)
  | rejected cmd => cases env <;> cases h; exact .complete (.inr (.inl rfl)) rfl ⟨rfl, rfl, rfl⟩ rfl
  | executed cmd => cases env <;> cases h; exact .complete (.inr (.inr (.inl rfl))) rfl ⟨rfl, rfl, rfl⟩ rfl
  | idle =>
    cases env with
    | tau =>
      simp only [passStep] at h
      split at h <;> cases h
      · exact .quiet rfl rfl nofun (.refl sh) rfl
      · exact .quiet rfl rfl nofun (.of_log_eq rfl rfl rfl rfl rfl hused rfl rfl) rfl
    | dead =>
      simp only [passStep] at h
      split at h <;> cases h
      exact .quiet rfl rfl nofun (.of_log_eq rfl rfl rfl rfl rfl hused rfl rfl) rfl
    | _ => cases h

/-- Only a reply without a command throws. -/
theorem PassEffect.reply_of_throws {execVH : Bool} {t : Tid n} {sh sh' : Shared n} {p : PassPc}
    (h : PassEffect execVH t sh p sh' .throws) : ∃ req m, p = .reply req m := by
  cases h with
  | quiet _ _ hne => exact absurd rfl hne
  | throws => exact ⟨_, _, rfl⟩
  | pushRequestFront hout => rcases hout with hout | hout <;> cases hout

end Aveo

import Aveo.Progress.Placement
import Aveo.Progress.VH

/-!
# The request IDs that threads and closures hold

A call keeps request IDs in local variables: the one it will return, the last fragment of a chain, the sub-requests of a
call with large arguments. Closures capture them. What is captured was pushed before and is internal: no call returns it.
-/

namespace Aveo

open Lib

variable {n : Nat}

/-! ### What instructions do to the local variables -/

/-- The local variables that hold request IDs are unchanged. -/
structure SameIds (r r' : Regs) : Prop where
  req : r'.req = r.req
  prev : r'.prev = r.prev
  writereq : r'.writereq = r.writereq
  callreq : r'.callreq = r.callreq
  readreq : r'.readreq = r.readreq
  mark : r'.mark = r.mark

theorem SameIds.seen (r : Regs) (status : CommandState) (val : Word) (sub : Sub) : SameIds r (r.seen status val sub) := by
  cases sub <;> exact ⟨rfl, rfl, rfl, rfl, rfl, rfl⟩

/-- What an instruction does to the local variables that hold request IDs, to the code and to the internal requests. -/
inductive RegsExec (sh : Shared n) (r : Regs) (rest : List Instr) : Instr → Shared n → Api → Prop
  | same {i : Instr} {sh' : Shared n} {a : Api} (hi : i.isIssue = false) (hne : i ≠ .clearPrev) (h : SameIds r a.regs)
      (hint : sh'.internal = sh.internal) (hcode : ∀ k, i = .isAlive k → a.code = rest) : RegsExec sh r rest i sh' a
  | issue {b : Build} {kept : Bool} {sh' : Shared n} {a : Api}
      (h : SameIds { r with req := sh.seqNo, prev := sh.seqNo } a.regs)
      (hint : sh'.internal = if kept then sh.seqNo :: sh.internal else sh.internal) (hseq : sh'.seqNo = sh.seqNo + 1)
      (hcur : a.regs.cur = some (.new sh.seqNo (b.closure r))) (hcode : a.code = rest) (hlisted : a.regs.listed = false) :
      RegsExec sh r rest (.issue b kept) sh' a
  | dead {k : Nat} {sh' : Shared n} {a : Api} (h : SameIds { r with req := requestIdInvalid } a.regs)
      (hint : sh'.internal = sh.internal) (hcode : a.code = rest.drop k) : RegsExec sh r rest (.isAlive k) sh' a
  | clearPrev {sh' : Shared n} {a : Api} (h : SameIds { r with prev := requestIdInvalid } a.regs)
      (hint : sh'.internal = sh.internal) (hcode : a.code = rest) : RegsExec sh r rest .clearPrev sh' a
  | save {sub : Sub} {sh' : Shared n} {a : Api} (h : SameIds (r.save sub) a.regs) (hint : sh'.internal = sh.internal)
      (hcode : a.code = rest) : RegsExec sh r rest (.save sub) sh' a

theorem exec_regs {t : Tid n} {exited : Bool} {sh sh' : Shared n} {r : Regs} {rest : List Instr} {i : Instr} {env : Env}
    {a : Api} (h : exec t exited sh r rest i env = some (sh', a)) : RegsExec sh r rest i sh' a := by
  have hpeek : ∀ id, (sh.peekResult t id).1.internal = sh.internal := by
    intro id
    obtain ⟨q, rem, log, heq⟩ := sh.peekResult_eq t id
    rw [heq]
  cases i with
  | issue b kept =>
    cases env <;> simp only [exec] at h <;> (try split at h) <;> cases h
    exact .issue ⟨rfl, rfl, rfl, rfl, rfl, rfl⟩ rfl rfl rfl rfl rfl
  | isAlive k =>
    cases env with
    | tau =>
      simp only [exec] at h
      split at h <;> cases h
      · exact .dead ⟨rfl, rfl, rfl, rfl, rfl, rfl⟩ rfl rfl
      · exact .same rfl (fun h => by cases h) ⟨rfl, rfl, rfl, rfl, rfl, rfl⟩ rfl fun _ _ => rfl
    | exited => cases h; exact .dead ⟨rfl, rfl, rfl, rfl, rfl, rfl⟩ rfl rfl
    | _ => cases h
  | clearPrev => cases env <;> cases h; exact .clearPrev ⟨rfl, rfl, rfl, rfl, rfl, rfl⟩ rfl rfl
  | save sub => cases env <;> cases h; exact .save ⟨rfl, rfl, rfl, rfl, rfl, rfl⟩ rfl rfl
  | peekResult id => cases env <;> cases h; exact .same rfl (fun h => by cases h) ⟨rfl, rfl, rfl, rfl, rfl, rfl⟩ (hpeek id) (fun _ h => by cases h)
  | finPeek sub id => cases env <;> cases h; exact .same rfl (fun h => by cases h) (.seen r _ _ sub) (hpeek id) (fun _ h => by cases h)
  | waitPeek id =>
    cases env with
    | tau =>
      simp only [exec] at h
      split at h <;> cases h <;> exact .same rfl (fun h => by cases h) ⟨rfl, rfl, rfl, rfl, rfl, rfl⟩ (hpeek id) (fun _ h => by cases h)
    | _ => cases h
  | setNowait | pushRequest | waitCompletion | lockSubmit | unlockSubmit | reqBlockBegin | reqBlockEnd =>
    cases env with
    | tau =>
      obtain ⟨c, -, heq⟩ := Option.map_eq_some_iff.mp h
      cases heq
      exact .same rfl (fun h => by cases h) ⟨rfl, rfl, rfl, rfl, rfl, rfl⟩ rfl (fun _ h => by cases h)
    | _ => cases h
  | remInsert | terminate | setExit | unlockCtx | notifyAll | waitNotify | syncReturn =>
    cases env <;> cases h
    exact .same rfl (fun h => by cases h) ⟨rfl, rfl, rfl, rfl, rfl, rfl⟩ rfl (fun _ h => by cases h)
  | progress | join | syncWait | lockCtx | progressTry | peekTry | waitTry | waitCheck | waitErase
  | newpeerSend | newpeerWait =>
    cases env <;> simp only [exec] at h <;> (try split at h) <;> cases h <;>
      exact .same rfl (fun h => by cases h) ⟨rfl, rfl, rfl, rfl, rfl, rfl⟩ rfl (fun _ h => by cases h)

/-! ### What grows -/

/-- What every step keeps of the pushes, the internal requests and the counter. -/
structure Grows (sh sh' : Shared n) : Prop where
  pushed : pushedIds sh.log <+: pushedIds sh'.log
  internal : ∃ new, sh'.internal = new ++ sh.internal ∧ ∀ id ∈ new, id = sh.seqNo ∧ sh'.seqNo = sh.seqNo + 1
  seqNo : sh.seqNo ≤ sh'.seqNo

namespace Grows

variable {sh sh' : Shared n} {id : ReqId}

theorem mem_internal (h : Grows sh sh') (hid : id ∈ sh.internal) : id ∈ sh'.internal := by
  obtain ⟨new, heq, -⟩ := h.internal
  rw [heq]
  exact List.mem_append_right _ hid

theorem internal_of_lt (h : Grows sh sh') (hid : id ∈ sh'.internal) (hlt : id < sh.seqNo) : id ∈ sh.internal := by
  obtain ⟨new, heq, hnew⟩ := h.internal
  rw [heq] at hid
  rcases List.mem_append.mp hid with hid | hid
  · exact absurd hlt (by rw [(hnew id hid).1]; exact Nat.lt_irrefl _)
  · exact hid

theorem internal_lt (h : Grows sh sh') (hold : ∀ x ∈ sh.internal, x < sh.seqNo) (hid : id ∈ sh'.internal) :
    id < sh'.seqNo := by
  obtain ⟨new, heq, hnew⟩ := h.internal
  rw [heq] at hid
  rcases List.mem_append.mp hid with hid | hid
  · obtain ⟨rfl, hseq⟩ := hnew id hid
    rw [hseq]
    exact Nat.lt_succ_self _
  · exact (hold id hid).trans_le h.seqNo

theorem mem_pushed (h : Grows sh sh') (hid : id ∈ pushedIds sh.log) : id ∈ pushedIds sh'.log := h.pushed.subset hid

theorem take_pushed (h : Grows sh sh') {k : Nat} (hk : k ≤ (pushedIds sh.log).length) :
    (pushedIds sh'.log).take k = (pushedIds sh.log).take k := by
  obtain ⟨new, heq⟩ := h.pushed
  rw [← heq, List.take_append_of_le_length hk]

end Grows

theorem RegsExec.internal {sh sh' : Shared n} {r : Regs} {rest : List Instr} {i : Instr} {a : Api}
    (h : RegsExec sh r rest i sh' a) :
    ∃ new, sh'.internal = new ++ sh.internal ∧ ∀ id ∈ new, id = sh.seqNo ∧ sh'.seqNo = sh.seqNo + 1 := by
  cases h with
  | same _ _ _ hint | dead _ hint | clearPrev _ hint | save _ hint => exact ⟨[], hint, nofun⟩
  | @issue b kept _ _ _ hint hseq =>
    cases kept with
    | false => exact ⟨[], hint, nofun⟩
    | true => exact ⟨[sh.seqNo], hint, fun id hid => ⟨List.mem_singleton.mp hid, hseq⟩⟩

theorem grows {s s' : State n} {l : Label n} (hB : Basic s) (hstep : s.step l = some s') : Grows s.sh s'.sh := by
  have hcs := cursorStep hB hstep
  have hpushed : pushedIds s.sh.log <+: pushedIds s'.sh.log := hcs.log_grows.filterMap _
  cases hcs with
  | pass hp hpass hsh =>
    have hframe := passStep_frame hpass
    rw [hsh] at hpushed ⊢
    exact ⟨hpushed, ⟨[], hframe.internal, nofun⟩, hframe.seqNo.ge⟩
  | vhReturn hmain hcmd hsh =>
    rw [hsh] at hpushed ⊢
    exact ⟨hpushed, ⟨[], rfl, nofun⟩, Nat.le_refl _⟩
  | exec hcode heff hapi hcur hvh hexec =>
    refine ⟨hpushed, (exec_regs hexec).internal, ?_⟩
    generalize s'.sh = sh' at heff
    cases heff with
    | quiet hq | nowait _ hq | take _ hq => exact hq.seqNo.ge
    | issue _ hq => exact (Nat.le_succ _).trans hq.seqNo.ge
    | push | lock => exact Nat.le_refl _
  | quiet hq hcur hvh hsh =>
    rw [hsh] at hpushed ⊢
    exact ⟨hpushed, ⟨[], rfl, nofun⟩, Nat.le_refl _⟩

/-! ### The closure of a request -/

/-- The command of a request was built with a closure: a thread holds it, or it was pushed. -/
def State.Built (s : State n) (id : ReqId) (c : Closure) : Prop :=
  (∃ t cmd, (s.api t).regs.cur = some cmd ∧ cmd.msgid = id ∧ cmd.closure = c) ∨ ∃ t h, .push t h id c ∈ s.sh.log

theorem State.Built.lt {s : State n} (hT : Tracked s) {id : ReqId} {c : Closure} (h : s.Built id c) : id < s.sh.seqNo := by
  rcases h with ⟨t, cmd, hcur, rfl, -⟩ | ⟨t, h, hmem⟩
  · exact hT.conserved.lt_of_live (.inl ⟨t, .inl hcur⟩)
  · exact hT.lt_of_pushed (mem_pushedIds.mpr ⟨t, h, c, hmem⟩)

theorem State.Built.unique {C : Machine.Cond (State n) (Label n)} {s : State n} (hr : (context n).Reachable C s) {id : ReqId}
    {c c' : Closure} (h : s.Built id c) (h' : s.Built id c') : c = c' := by
  obtain ⟨f, hf⟩ := Kinds.of_reachable hr
  have hkind : ∀ {c}, s.Built id c → f id = c := by
    rintro c (⟨t, cmd, hcur, rfl, rfl⟩ | ⟨t, k, hmem⟩)
    · exact hf.live cmd (.inl ⟨t, .inl hcur⟩)
    · exact hf.push t k id c hmem
  exact (hkind h).symm.trans (hkind h')

/-- A thread between calls holds no command. -/
theorem Basic.cur_of_nil {s : State n} (hB : Basic s) {t : Tid n} (hcode : (s.api t).code = []) :
    (s.api t).regs.cur = none := by
  have hshape := (hB.shaped t).code
  rw [hcode] at hshape
  exact Regs.held_eq_none.mp hshape.of_nil.1

theorem Basic.cur_of_issue {s : State n} (hB : Basic s) {t : Tid n} {b : Build} {kept : Bool} {rest : List Instr}
    (hcode : (s.api t).code = .issue b kept :: rest) : (s.api t).regs.cur = none := by
  have hshape := (hB.shaped t).code
  rw [hcode] at hshape
  exact Regs.held_eq_none.mp hshape.held_of_issue

theorem Basic.cur_of_plain {s : State n} (hB : Basic s) {t : Tid n} {i : Instr} {rest : List Instr}
    (hcode : (s.api t).code = i :: rest) (hi : i.isPlain = true) : (s.api t).regs.cur = none := by
  have hshape := (hB.shaped t).code
  rw [hcode] at hshape
  exact Regs.held_eq_none.mp (hshape.held_of_plain hi)

/-- A thread that holds a command keeps it or pushes it. -/
theorem cur_step {s s' : State n} {l : Label n} (hB : Basic s) (hstep : s.step l = some s') {t : Tid n} {cmd : Command}
    (hcur : (s.api t).regs.cur = some cmd) :
    (∃ cmd', (s'.api t).regs.cur = some cmd' ∧ cmd'.msgid = cmd.msgid ∧ cmd'.closure = cmd.closure) ∨
      ∃ h, .push t h cmd.msgid cmd.closure ∈ s'.sh.log := by
  cases threadStep hstep t with
  | same _ hregs | resumed _ _ hregs | unwound _ hregs => exact .inl ⟨cmd, by rw [hregs]; exact hcur, rfl, rfl⟩
  | called _ _ _ hidle =>
    rw [hB.cur_of_nil hidle] at hcur
    cases hcur
  | vh hu _ _ _ hmain =>
    subst hu
    rw [hB.cur_of_nil (hB.calm hmain).2] at hcur
    cases hcur
  | exec hl hphase hcode hexec =>
    have heff := exec_effect hexec
    generalize s'.sh = sh' at heff ⊢
    generalize s'.api t = a at heff ⊢
    cases heff with
    | quiet _ heq | take _ _ heq => exact .inl ⟨cmd, by rw [heq]; exact hcur, rfl, rfl⟩
    | lock => exact .inl ⟨cmd, hcur, rfl, rfl⟩
    | issue hi =>
      rw [hB.cur_of_issue (hi ▸ hcode)] at hcur
      cases hcur
    | nowait hcmd _ heq =>
      rw [hcur] at hcmd
      cases hcmd
      exact .inl ⟨_, heq, rfl, rfl⟩
    | push _ hcmd =>
      rw [hcur] at hcmd
      cases hcmd
      exact .inr ⟨s.sh.holds, List.mem_append_right _ (List.mem_singleton_self _)⟩

theorem State.Built.step {s s' : State n} {l : Label n} (hB : Basic s) (hstep : s.step l = some s') {id : ReqId} {c : Closure}
    (h : s.Built id c) : s'.Built id c := by
  rcases h with ⟨t, cmd, hcur, rfl, rfl⟩ | ⟨t, k, hmem⟩
  · rcases cur_step hB hstep hcur with ⟨cmd', hcur', hid, hc⟩ | ⟨k, hmem⟩
    · exact .inl ⟨t, cmd', hcur', hid, hc⟩
    · exact .inr ⟨t, k, hmem⟩
  · exact .inr ⟨t, k, (cursorStep hB hstep).mem_log hmem⟩

/-- A command is built by an instruction that issues its ID. -/
theorem built_step {s s' : State n} {l : Label n} (hB : Basic s) (hstep : s.step l = some s') {id : ReqId} {c : Closure}
    (h : s'.Built id c) :
    s.Built id c ∨ ∃ t env b kept rest, l = .api t env ∧ ((s.api t).code = .issue b kept :: rest ∧ (s'.api t).code = rest) ∧
      id = s.sh.seqNo ∧ c = b.closure (s.api t).regs ∧
      s'.sh.internal = if kept then s.sh.seqNo :: s.sh.internal else s.sh.internal := by
  rcases h with ⟨t, cmd, hcur, rfl, rfl⟩ | ⟨t, k, hmem⟩
  · cases threadStep hstep t with
    | same _ hregs | resumed _ _ hregs | unwound _ hregs => exact .inl (.inl ⟨t, cmd, hregs ▸ hcur, rfl, rfl⟩)
    | @called c _ _ hregs =>
      have hnone : (c.regs (pushedIds s.sh.log).length).cur = none := by cases c <;> rfl
      rw [hregs, hnone] at hcur
      cases hcur
    | vh _ _ _ hregs =>
      rw [hregs] at hcur
      cases hcur
    | @exec env exited i rest hl hphase hcode hexec =>
      have heff := exec_effect hexec
      have hregs := exec_regs hexec
      generalize s'.sh = sh' at heff hregs ⊢
      generalize hapi : s'.api t = a at heff hregs hcur
      cases heff with
      | quiet _ heq | take _ _ heq => exact .inl (.inl ⟨t, cmd, heq ▸ hcur, rfl, rfl⟩)
      | lock => exact .inl (.inl ⟨t, cmd, hcur, rfl, rfl⟩)
      | @issue _ _ _ b kept hi _ heq =>
        subst hi
        rw [heq] at hcur
        cases hcur
        cases hregs with
        | same hi => cases hi
        | issue _ hint _ _ hcode' => exact .inr ⟨t, env, b, kept, rest, hl, ⟨hcode, hapi ▸ hcode'⟩, rfl, rfl, hint⟩
      | nowait hcmd _ heq =>
        rw [heq] at hcur
        cases hcur
        exact .inl (.inl ⟨t, _, hcmd, rfl, rfl⟩)
      | push _ _ heq =>
        rw [heq] at hcur
        cases hcur
  · rcases new_event (cursorStep hB hstep) hmem with hmem | hnew
    · exact .inl (.inr ⟨t, k, hmem⟩)
    · cases hnew with
      | quiet hq => cases hq
      | push hcode hcur => exact .inl (.inl ⟨t, _, hcur, rfl, rfl⟩)

/-! ### What the local variables hold -/

namespace Closure

/-- The closures of fragments. -/
def isBuff : Closure → Bool
  | .sendBuff _ | .recvBuff _ => true
  | _ => false

/-- The closures of fragments and sub-requests. -/
def isSub : Closure → Bool
  | .simpleCall | .sendBuff _ | .recvBuff _ | .emptyTransfer => true
  | _ => false

end Closure

theorem Build.isBuff_closure (b : Build) (r : Regs) : (b.closure r).isBuff = b.isBuff := by
  cases b <;> rfl

theorem Instr.closure_of_about {i : Instr} {b : Build} (h : i.about = some b) (r r' : Regs) : b.closure r = b.closure r' := by
  cases i <;> cases h <;> rfl

theorem Build.isSub_closure (b : Build) (r : Regs) : (b.closure r).isSub = b.isSub := by
  cases b <;> rfl

def Regs.slot (r : Regs) : Sub → ReqId
  | .write => r.writereq
  | .call => r.callreq
  | .read => r.readreq

theorem SameIds.slot {r r' : Regs} (h : SameIds r r') (sub : Sub) : r'.slot sub = r.slot sub := by
  cases sub
  · exact h.writereq
  · exact h.callreq
  · exact h.readreq

theorem Regs.slot_save (r : Regs) (sub sub' : Sub) : (r.save sub).slot sub' = if sub' = sub then r.req else r.slot sub' := by
  cases sub <;> cases sub' <;> rfl

/-- What a closure captures are the request in `prev` or the sub-requests that the call kept. -/
theorem Build.mem_captured {b : Build} {r : Regs} {a : ReqId} (h : a ∈ (b.closure r).captured) :
    a ≠ requestIdInvalid ∧ (b.isBuff = true ∧ a = r.prev ∨ b = .finaliser ∧ ∃ sub, a = r.slot sub) := by
  cases b with
  | sendBuff | recvBuff =>
    obtain ⟨hmem, hne⟩ := List.mem_filter.mp h
    exact ⟨of_decide_eq_true hne, .inl ⟨rfl, List.mem_singleton.mp hmem⟩⟩
  | finaliser =>
    obtain ⟨hmem, hne⟩ := List.mem_filter.mp h
    refine ⟨of_decide_eq_true hne, .inr ⟨rfl, ?_⟩⟩
    simp only [List.mem_cons, List.not_mem_nil, or_false] at hmem
    rcases hmem with rfl | rfl | rfl
    · exact ⟨.write, rfl⟩
    · exact ⟨.call, rfl⟩
    · exact ⟨.read, rfl⟩
  | _ => cases h

/-- A request ID that a thread has: none, of a request that was pushed, or of the command that it holds. -/
def State.Known (s : State n) (t : Tid n) (id : ReqId) : Prop :=
  id = requestIdInvalid ∨ id ∈ pushedIds s.sh.log ∨ ∃ cmd, (s.api t).regs.cur = some cmd ∧ cmd.msgid = id

theorem State.Known.step {s s' : State n} {l : Label n} (hB : Basic s) (hstep : s.step l = some s') {t : Tid n} {id : ReqId}
    (h : s.Known t id) : s'.Known t id := by
  rcases h with h | h | ⟨cmd, hcur, rfl⟩
  · exact .inl h
  · exact .inr (.inl ((grows hB hstep).mem_pushed h))
  · rcases cur_step hB hstep hcur with ⟨cmd', hcur', hid, -⟩ | ⟨k, hmem⟩
    · exact .inr (.inr ⟨cmd', hcur', hid⟩)
    · exact .inr (.inl (mem_pushedIds.mpr ⟨t, k, _, hmem⟩))

theorem State.Known.pushed {s : State n} {t : Tid n} {id : ReqId} (h : s.Known t id) (hcur : (s.api t).regs.cur = none) :
    id = requestIdInvalid ∨ id ∈ pushedIds s.sh.log := by
  rcases h with h | h | ⟨cmd, hcmd, -⟩
  · exact .inl h
  · exact .inr h
  · rw [hcur] at hcmd
    cases hcmd

/-- What is known of the request IDs in the local variables of a thread. -/
structure ThreadIds (s : State n) (t : Tid n) : Prop where
  req : s.Known t (s.api t).regs.req
  prev : s.Known t (s.api t).regs.prev
  slots : ∀ sub, (s.api t).regs.slot sub = requestIdInvalid ∨
    (s.api t).regs.slot sub ∈ pushedIds s.sh.log ∧ (s.api t).regs.slot sub ∈ s.sh.internal
  saves : saves (s.api t).code = true → (s.api t).regs.req = requestIdInvalid ∨ (s.api t).regs.req ∈ s.sh.internal
  about : ∀ i ∈ (s.api t).code, ∀ b, i.about = some b →
    (s.api t).regs.req = requestIdInvalid ∨ s.Built (s.api t).regs.req (b.closure (.new 0))
  exposed : exposed (s.api t).code = true → (s.api t).regs.prev = requestIdInvalid ∨
    (s.api t).regs.prev ∈ s.sh.internal ∧ ∃ c, c.isBuff = true ∧ s.Built (s.api t).regs.prev c
  mark : (s.api t).regs.mark ≤ (pushedIds s.sh.log).length ∧
    ∀ x ∈ (pushedIds s.sh.log).take (s.api t).regs.mark, x < (s.api t).regs.req

namespace ThreadIds

variable {s s' : State n} {l : Label n} {t : Tid n}

/-- A step after which the thread is left with code in which nothing new is to be done, and with the same variables. -/
theorem of_same (hB : Basic s) (hstep : s.step l = some s') (h : ThreadIds s t) (hregs : SameIds (s.api t).regs (s'.api t).regs)
    (hsaves : Aveo.saves (s'.api t).code = true → Aveo.saves (s.api t).code = true)
    (habout : ∀ i ∈ (s'.api t).code, i.about ≠ none → i ∈ (s.api t).code)
    (hexposed : Aveo.exposed (s'.api t).code = true → Aveo.exposed (s.api t).code = true) : ThreadIds s' t := by
  have hg := grows hB hstep
  refine ⟨?_, ?_, fun sub => ?_, fun hc => ?_, fun i hi b hb => ?_, fun hc => ?_, ?_⟩
  · rw [hregs.req]
    exact h.req.step hB hstep
  · rw [hregs.prev]
    exact h.prev.step hB hstep
  · rw [hregs.slot]
    exact (h.slots sub).imp_right fun hs => ⟨hg.mem_pushed hs.1, hg.mem_internal hs.2⟩
  · rw [hregs.req]
    exact (h.saves (hsaves hc)).imp_right hg.mem_internal
  · rw [hregs.req]
    exact (h.about i (habout i hi (by rw [hb]; exact nofun)) b hb).imp_right (·.step hB hstep)
  · rw [hregs.prev]
    exact (h.exposed (hexposed hc)).imp_right fun ⟨hint, c, hc, hb⟩ => ⟨hg.mem_internal hint, c, hc, hb.step hB hstep⟩
  · rw [hregs.mark, hregs.req, hg.take_pushed h.mark.1]
    exact ⟨h.mark.1.trans hg.pushed.length_le, h.mark.2⟩

/-- A thread that starts a call or a VH function. -/
theorem of_new (hle : s.sh.seqNo ≤ requestIdInvalid) (hT : Tracked s) {mark : Nat} (hmark : mark ≤ (pushedIds s.sh.log).length)
    (hregs : SameIds (.new mark) (s.api t).regs) : ThreadIds s t := by
  refine ⟨.inl hregs.req, .inl hregs.prev, fun sub => .inl ?_, fun _ => .inl hregs.req, fun _ _ _ _ => .inl hregs.req,
    fun _ => .inl hregs.prev, hregs.mark ▸ hmark, fun x hx => ?_⟩
  · rw [hregs.slot]
    cases sub <;> rfl
  · rw [hregs.req]
    exact (hT.lt_of_pushed (List.mem_of_mem_take hx)).trans_le hle

/-- An instruction issues a request. -/
theorem of_issue (hT : Tracked s) (hstep : s.step l = some s') (h : ThreadIds s t) {b : Build} {kept : Bool} {rest : List Instr}
    (hplaced : placedIssue b kept rest = true)
    (hregs : SameIds { (s.api t).regs with req := s.sh.seqNo, prev := s.sh.seqNo } (s'.api t).regs)
    (hint : s'.sh.internal = if kept then s.sh.seqNo :: s.sh.internal else s.sh.internal)
    (hcur : (s'.api t).regs.cur = some (.new s.sh.seqNo (b.closure (s.api t).regs))) (hcode : (s'.api t).code = rest) :
    ThreadIds s' t := by
  have hg := grows hT.basic hstep
  have hknown : s'.Known t s.sh.seqNo := .inr (.inr ⟨_, hcur, rfl⟩)
  have hbuilt : s'.Built s.sh.seqNo (b.closure (s.api t).regs) := .inl ⟨t, _, hcur, rfl, rfl⟩
  simp only [placedIssue, Bool.and_eq_true, Bool.or_eq_true, Bool.not_eq_true', decide_eq_true_eq] at hplaced
  obtain ⟨⟨⟨hexp, hfits⟩, hfin⟩, hkept⟩ := hplaced
  refine ⟨?_, ?_, fun sub => ?_, fun hc => .inr ?_, fun i hi b' hb' => .inr ?_, fun hc => .inr ?_, ?_⟩
  · rw [hregs.req]
    exact hknown
  · rw [hregs.prev]
    exact hknown
  · rw [hregs.slot]
    exact (h.slots sub).imp_right fun hs => ⟨hg.mem_pushed hs.1, hg.mem_internal hs.2⟩
  · rw [hcode] at hc
    rw [hregs.req, hint]
    cases kept with
    | true => exact List.mem_cons_self
    | false => simp [hc] at hkept
  · rw [hcode] at hi
    have hfit := List.all_eq_true.mp hfits i hi
    rw [Instr.fits, hb'] at hfit
    obtain rfl : b' = b := by simpa using hfit
    rw [hregs.req, Instr.closure_of_about hb' (.new 0) (s.api t).regs]
    exact hbuilt
  · rw [hcode] at hc
    rw [hregs.prev]
    rw [hc] at hexp
    obtain ⟨rfl, hbuff⟩ := hexp.resolve_left (fun h => by cases h)
    refine ⟨?_, _, (b.isBuff_closure _).trans hbuff, hbuilt⟩
    rw [hint]
    exact List.mem_cons_self
  · rw [hregs.mark, hregs.req, hg.take_pushed h.mark.1]
    exact ⟨h.mark.1.trans hg.pushed.length_le, fun x hx => hT.lt_of_pushed (List.mem_of_mem_take hx)⟩

theorem of_exec (hT : Tracked s) (hle : s.sh.seqNo ≤ requestIdInvalid) (hstep : s.step l = some s') (h : ThreadIds s t)
    {i : Instr} {rest : List Instr} (hcode : (s.api t).code = i :: rest) (hplaced : placed (i :: rest) = true)
    (hnext : i.Next (s.api t).regs rest (s'.api t).code) (hexec : RegsExec s.sh (s.api t).regs rest i s'.sh (s'.api t)) :
    ThreadIds s' t := by
  have hB := hT.basic
  have hg := grows hB hstep
  obtain ⟨hat, hrest⟩ := placed_cons hplaced
  cases hexec with
  | same hi hne hregs hint hlive =>
    refine h.of_same hB hstep hregs (fun hc => ?_) (fun j hj hne => ?_) fun hc => ?_
    · rw [hcode]
      exact hnext.saves hat hlive hi hc
    · rw [hcode]
      exact List.mem_cons_of_mem _ (hnext.mem_rest hj hne)
    · rw [hcode, ← hnext.exposed hat hlive hi hne]
      exact hc
  | issue hregs hint hseq hcur hcode' =>
    exact of_issue hT hstep h (Bool.and_eq_true_iff.mp hat).2 hregs hint hcur hcode'
  | @dead k _ _ hregs hint hcode' =>
    simp only [placedAt, Bool.and_eq_true, Bool.or_eq_true, Bool.not_eq_true'] at hat
    refine ⟨.inl hregs.req, ?_, fun sub => ?_, fun _ => .inl hregs.req, fun _ _ _ _ => .inl hregs.req, fun hc => ?_, ?_⟩
    · rw [hregs.prev]
      exact h.prev.step hB hstep
    · rw [hregs.slot]
      exact (h.slots sub).imp_right fun hs => ⟨hg.mem_pushed hs.1, hg.mem_internal hs.2⟩
    · rw [hcode'] at hc
      rw [hc] at hat
      have hexp : Aveo.exposed (s.api t).code = true := by
        rw [hcode]
        exact hat.2.resolve_left (fun h => by cases h)
      rw [hregs.prev]
      refine (h.exposed hexp).imp_right fun hcmd => ?_
      obtain ⟨hint, c, hc, hb⟩ := hcmd
      exact ⟨hg.mem_internal hint, c, hc, hb.step hB hstep⟩
    · rw [hregs.mark, hregs.req, hg.take_pushed h.mark.1]
      exact ⟨h.mark.1.trans hg.pushed.length_le, fun x hx => (hT.lt_of_pushed (List.mem_of_mem_take hx)).trans_le hle⟩
  | clearPrev hregs hint hcode' =>
    refine ⟨?_, .inl hregs.prev, fun sub => ?_, fun hc => ?_, fun i hi b hb => ?_, fun _ => .inl hregs.prev, ?_⟩
    · rw [hregs.req]
      exact h.req.step hB hstep
    · rw [hregs.slot]
      exact (h.slots sub).imp_right fun hs => ⟨hg.mem_pushed hs.1, hg.mem_internal hs.2⟩
    · rw [hcode'] at hc
      rw [hregs.req]
      exact (h.saves (hcode ▸ hc)).imp_right hg.mem_internal
    · rw [hcode'] at hi
      rw [hregs.req]
      exact (h.about i (hcode ▸ List.mem_cons_of_mem _ hi) b hb).imp_right (·.step hB hstep)
    · rw [hregs.mark, hregs.req, hg.take_pushed h.mark.1]
      exact ⟨h.mark.1.trans hg.pushed.length_le, h.mark.2⟩
  | @save sub _ _ hregs hint hcode' =>
    have hcur := hB.cur_of_plain hcode rfl
    simp only [placedAt, Bool.and_eq_true, Bool.not_eq_true'] at hat
    have hreq : (s.api t).regs.req = requestIdInvalid ∨
        (s.api t).regs.req ∈ pushedIds s.sh.log ∧ (s.api t).regs.req ∈ s.sh.internal := by
      rcases h.req.pushed hcur with hinv | hpushed
      · exact .inl hinv
      · exact (h.saves (by rw [hcode]; rfl)).imp_right fun hint => ⟨hpushed, hint⟩
    have hsame : ∀ sub, (r : Regs) → (r.save sub).req = r.req ∧ (r.save sub).prev = r.prev ∧ (r.save sub).mark = r.mark := by
      intro sub r
      cases sub <;> exact ⟨rfl, rfl, rfl⟩
    obtain ⟨hsreq, hsprev, hsmark⟩ := hsame sub (s.api t).regs
    refine ⟨?_, ?_, fun sub' => ?_, fun hc => ?_, fun i hi b hb => ?_, fun hc => ?_, ?_⟩
    · rw [hregs.req, hsreq]
      exact h.req.step hB hstep
    · rw [hregs.prev, hsprev]
      exact h.prev.step hB hstep
    · rw [hregs.slot, Regs.slot_save]
      split
      · exact hreq.imp_right fun hs => ⟨hg.mem_pushed hs.1, hg.mem_internal hs.2⟩
      · exact (h.slots sub').imp_right fun hs => ⟨hg.mem_pushed hs.1, hg.mem_internal hs.2⟩
    · rw [hcode', hat.2] at hc
      cases hc
    · rw [hcode'] at hi
      rw [hregs.req, hsreq]
      exact (h.about i (hcode ▸ List.mem_cons_of_mem _ hi) b hb).imp_right (·.step hB hstep)
    · rw [hcode', hat.1.2] at hc
      cases hc
    · rw [hregs.mark, hregs.req, hsmark, hsreq, hg.take_pushed h.mark.1]
      exact ⟨h.mark.1.trans hg.pushed.length_le, h.mark.2⟩

end ThreadIds

/-- What a user may call: the results of requests that a call returned, and no fragment that continues a chain. -/
def Call.isPublic (sh : Shared n) : Call → Bool
  | .callPeekResult id | .callWaitResult id => id = requestIdInvalid || (id ∈ pushedIds sh.log && id ∉ sh.internal)
  | .sendBuffAsync prev | .recvBuffAsync prev => prev = requestIdInvalid
  | _ => true

/-- A step that is no call of a user, or one that a user may make. -/
def Label.isPublic (sh : Shared n) : Label n → Bool
  | .call _ c => c.isPublic sh
  | _ => true

/-- No user retrieves the result of an internal request. -/
def publicCalls : Machine.Cond (State n) (Label n) := fun s l _ => ∀ t c, l = .call t c → c.isPublic s.sh = true

theorem Call.sameIds_regs {c : Call} {sh : Shared n} (h : c.isPublic sh = true) (mark : Nat) : SameIds (.new mark) (c.regs mark) := by
  cases c with
  | sendBuffAsync prev | recvBuffAsync prev =>
    have hprev : prev = requestIdInvalid := of_decide_eq_true h
    exact ⟨rfl, hprev, rfl, rfl, rfl, rfl⟩
  | _ => exact ⟨rfl, rfl, rfl, rfl, rfl, rfl⟩

theorem ThreadIds.step {s s' : State n} {l : Label n} {t : Tid n} (hr : (context n).Reachable publicCalls s)
    (hstep : s.step l = some s') (hC : publicCalls s l s') (h : ThreadIds s t) : ThreadIds s' t := by
  have hT := Tracked.of_reachable hr
  have hr' : (context n).Reachable publicCalls s' := hr.step (l := l) hstep hC
  have hT' := Tracked.of_reachable hr'
  have hle' := seqNo_le hr'
  have hsame : ∀ {r : Regs}, r = (s.api t).regs → SameIds (s.api t).regs r := by
    rintro r rfl
    exact ⟨rfl, rfl, rfl, rfl, rfl, rfl⟩
  cases threadStep hstep t with
  | same hcode hregs =>
    exact h.of_same hT.basic hstep (hsame hregs) (hcode ▸ id) (fun i hi _ => hcode ▸ hi) (hcode ▸ id)
  | exec hl hphase hcode hexec =>
    have hplaced := placed_of_reachable hr t
    rw [hcode] at hplaced
    exact h.of_exec hT (seqNo_le hr) hstep hcode hplaced (exec_code hexec) (exec_regs hexec)
  | resumed hphase hcode hregs =>
    rcases hcode with hcode | hcode <;>
      refine h.of_same hT.basic hstep (hsame hregs) (fun hc => ?_) (fun i hi hne => ?_) fun hc => ?_
    all_goals first | rw [hcode] at hc; exact hc | rw [hcode] at hi
    all_goals
      refine (List.mem_cons.mp hi).resolve_left ?_
      rintro rfl
      exact hne rfl
  | called hl hcode hregs =>
    have hmark := (grows hT.basic hstep).pushed.length_le
    exact .of_new hle' hT' hmark (hregs ▸ Call.sameIds_regs (hC t _ hl) _)
  | unwound hcode hregs =>
    obtain ⟨hexp, hsaves, habout, -⟩ := unwind_calm (s.api t).regs
    refine h.of_same hT.basic hstep (hsame hregs) (fun hc => ?_) (fun i hi hne => ?_) fun hc => ?_
    · rw [hcode, hsaves] at hc
      cases hc
    · rw [hcode] at hi
      exact absurd (of_decide_eq_true (List.all_eq_true.mp habout i hi)) hne
    · rw [hcode, hexp] at hc
      cases hc
  | vh hu hmain hcode hregs =>
    exact .of_new hle' hT' (Nat.zero_le _) (by rw [hregs]; exact ⟨rfl, rfl, rfl, rfl, rfl, rfl⟩)

/-! ### What closures capture -/

/-- What is known of the internal requests and of what closures capture. -/
structure Captures (s : State n) : Prop where
  thread : ∀ t, ThreadIds s t
  internal : ∀ id ∈ s.sh.internal, id < s.sh.seqNo
  sub : ∀ id c, s.Built id c → id ∈ s.sh.internal → c.isSub = true
  captured : ∀ id c, s.Built id c → ∀ a ∈ c.captured, a ∈ pushedIds s.sh.log ∧ a ∈ s.sh.internal
  buff : ∀ id c, s.Built id c → c.isBuff = true → ∀ a ∈ c.captured, ∃ c', c'.isBuff = true ∧ s.Built a c'
  push : ∀ t h b c, .push t h b c ∈ s.sh.log → ∀ a ∈ c.captured, Pipeline.Precedes (pushedIds s.sh.log) a b
  nowait : ∀ id, .nowait id ∈ s.sh.log → s.Built id .generic

namespace Captures

variable {s s' : State n} {l : Label n}

theorem init : Captures (State.new n) := by
  refine ⟨fun t => ?_, nofun, fun id c hb => ?_, fun id c hb => ?_, fun id c hb => ?_, nofun, nofun⟩
  · exact ⟨.inl rfl, .inl rfl, fun sub => .inl (by cases sub <;> rfl), nofun, nofun, nofun, Nat.zero_le _, nofun⟩
  all_goals rcases hb with ⟨t, cmd, hcur, -⟩ | ⟨t, h, hmem⟩ <;> contradiction

/-- What a new command captures. -/
theorem of_issue (hT : Tracked s) (h : Captures s) {t : Tid n} {b : Build} {kept : Bool} {rest : List Instr}
    (hcode : (s.api t).code = .issue b kept :: rest) {a : ReqId} (ha : a ∈ (b.closure (s.api t).regs).captured) :
    a ∈ pushedIds s.sh.log ∧ a ∈ s.sh.internal ∧ (b.isBuff = true → ∃ c, c.isBuff = true ∧ s.Built a c) := by
  obtain ⟨hne, ⟨hb, rfl⟩ | ⟨rfl, sub, rfl⟩⟩ := Build.mem_captured ha
  · have hexp : Aveo.exposed (s.api t).code = true := by
      rw [hcode]
      cases b <;> first | rfl | cases hb
    obtain ⟨hint, hbuilt⟩ := ((h.thread t).exposed hexp).resolve_left hne
    have hpushed := ((h.thread t).prev.pushed (hT.basic.cur_of_issue hcode)).resolve_left hne
    exact ⟨hpushed, hint, fun _ => hbuilt⟩
  · obtain ⟨hpushed, hint⟩ := ((h.thread t).slots sub).resolve_left hne
    exact ⟨hpushed, hint, nofun⟩

theorem step (hr : (context n).Reachable publicCalls s) (hstep : s.step l = some s') (hC : publicCalls s l s')
    (h : Captures s) : Captures s' := by
  have hT := Tracked.of_reachable hr
  have hB := hT.basic
  have hg := grows hB hstep
  refine ⟨fun t => (h.thread t).step hr hstep hC, fun id hid => hg.internal_lt h.internal hid, fun id c hb hid => ?_,
    fun id c hb a ha => ?_, fun id c hb hbuff a ha => ?_, fun t k b c hmem a ha => ?_, fun id hmem => ?_⟩
  · rcases built_step hB hstep hb with hold | ⟨t, env, b, kept, rest, -, ⟨hcode, -⟩, rfl, rfl, hint⟩
    · exact h.sub id c hold (hg.internal_of_lt hid (hold.lt hT))
    · have hplaced := placed_of_reachable hr t
      rw [hcode] at hplaced
      have hissue := (Bool.and_eq_true_iff.mp (placed_cons hplaced).1).2
      rw [Build.isSub_closure]
      cases kept with
      | true =>
        simp only [placedIssue, Bool.and_eq_true, if_true] at hissue
        exact hissue.2.1
      | false =>
        rw [hint] at hid
        exact absurd (h.internal _ hid) (Nat.lt_irrefl _)
  · rcases built_step hB hstep hb with hold | ⟨t, env, b, kept, rest, -, ⟨hcode, -⟩, rfl, rfl, -⟩
    · obtain ⟨hpushed, hint⟩ := h.captured id c hold a ha
      exact ⟨hg.mem_pushed hpushed, hg.mem_internal hint⟩
    · obtain ⟨hpushed, hint, -⟩ := h.of_issue hT hcode ha
      exact ⟨hg.mem_pushed hpushed, hg.mem_internal hint⟩
  · rcases built_step hB hstep hb with hold | ⟨t, env, b, kept, rest, -, ⟨hcode, -⟩, rfl, rfl, -⟩
    · obtain ⟨c', hc', hb'⟩ := h.buff id c hold hbuff a ha
      exact ⟨c', hc', hb'.step hB hstep⟩
    · obtain ⟨-, -, hbuilt⟩ := h.of_issue hT hcode ha
      obtain ⟨c', hc', hb'⟩ := hbuilt ((b.isBuff_closure _).symm.trans hbuff)
      exact ⟨c', hc', hb'.step hB hstep⟩
  · obtain ⟨new, hnew⟩ := hg.pushed
    rcases new_event (cursorStep hB hstep) hmem with hold | hevent
    · rw [← hnew]
      exact (h.push t k b c hold a ha).append new
    · cases hevent with
      | quiet hq => cases hq
      | @push _ rest cmd hcode hcur =>
        -- The command is pushed behind everything that was pushed before, and what it captures was.
        obtain ⟨hpushed, -⟩ := h.captured _ _ (.inl ⟨t, cmd, hcur, rfl, rfl⟩) a ha
        have hid : cmd.msgid ∈ pushedIds s'.sh.log := mem_pushedIds.mpr ⟨t, _, _, hmem⟩
        rw [← hnew] at hid ⊢
        obtain ⟨l₁, l₂, rfl⟩ := List.append_of_mem ((List.mem_append.mp hid).resolve_left (hT.not_mem_pushed hcur))
        exact ⟨pushedIds s.sh.log ++ l₁, l₂, by rw [List.append_assoc], List.mem_append_left _ hpushed⟩
  · rcases new_event (cursorStep hB hstep) hmem with hold | hevent
    · exact (h.nowait id hold).step hB hstep
    · cases hevent with
      | quiet hq => cases hq
      | @nowait t rest cmd hcode hcur =>
        have hreq := (hB.shaped t).req cmd hcur
        have habout := (h.thread t).about .setNowait (hcode ▸ List.mem_cons_self) .generic rfl
        rw [← hreq] at habout
        refine (habout.resolve_left fun hinv => ?_).step hB hstep
        exact absurd (hT.conserved.lt_of_live (.inl ⟨t, .inl hcur⟩)) (by rw [hinv]; exact Nat.not_lt.mpr (seqNo_le hr))

theorem of_reachable (h : (context n).Reachable publicCalls s) : Captures s := by
  refine h.invariant (I := Captures) ?_ fun s₀ l s₁ hr hstep hC hs => hs.step hr hstep hC
  intro s₀ h0
  rw [h0]
  exact init

end Captures

end Aveo

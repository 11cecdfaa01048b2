import Aveo.Progress.Arrival
import Aveo.Progress.Close
import Aveo.Progress.Retrieval

/-!
# Regular runs

A context on which nobody opens or closes a context, whose VH functions make no calls, and whose VE lives and answers
every request, in the order of the requests, with a message that its result function takes. No pass of such a run throws
or fails, and the progress thread does not end.
-/

namespace Aveo

open Lib

variable {n : Nat}

/-- The messages with which the result function of a command succeeds. -/
def Closure.takes : Closure → Reply → Bool
  | .simpleCall, .result _ | .simpleCall, .resStk _ => true
  | .simpleCall, _ => false
  | .generic, .ack | .generic, .result _ | .generic, .resStk _ => true
  | .generic, _ => false
  | .sendBuff _, .exception _ => false
  | .recvBuff _, m => m = .sendbuff true
  | _, _ => true

theorem Closure.exists_takes (c : Closure) : ∃ m, c.takes m = true := by
  cases c with
  | recvBuff => exact ⟨.sendbuff true, rfl⟩
  | _ => exact ⟨.result 0, rfl⟩

/-- Nobody opens or closes a context, and a VH function makes no calls. -/
def Label.regular : Label n → Bool
  | .call none _ | .call _ .openContext | .call _ .close => false
  | _ => true

/-- The VE process lives, and URPC delivers the replies in the order of the requests, each with a message that its
command takes. -/
def regular : Machine.Cond (State n) (Label n) := fun s l s' =>
  l.regular = true ∧ s'.sh.procSurvival = true ∧ inOrder s l s' ∧
    ∀ req m cmd, s'.cursor = some (.reply req m) → (req, cmd) ∈ s'.sh.comq.inflight.entries → cmd.closure.takes m = true

theorem Shared.peekPrev_state (sh : Shared n) (t : Tid n) (prev : ReqId) : (sh.peekPrev t prev).1.state = sh.state := by
  unfold Shared.peekPrev
  split
  · rfl
  · obtain ⟨q, rem, log, heq⟩ := sh.peekResult_eq t prev
    rw [heq]

theorem Shared.unpack_of_takes (sh : Shared n) (t : Tid n) {cmd : Command} {m : Reply} (h : cmd.closure.takes m = true) :
    (sh.unpack t cmd m).1.state = sh.state ∧ (sh.unpack t cmd m).2.2 = false := by
  unfold Shared.unpack
  cases hc : cmd.closure with
  | simpleCall | generic =>
    rw [hc] at h
    cases m <;> first | exact ⟨rfl, rfl⟩ | cases h
  | sendBuff prev =>
    rw [hc] at h
    cases m <;> first | exact ⟨sh.peekPrev_state t prev, rfl⟩ | cases h
  | recvBuff prev =>
    rw [hc] at h
    have hm : m = .sendbuff true := of_decide_eq_true h
    simp only [hm, if_true]
    exact ⟨sh.peekPrev_state t prev, trivial⟩
  | callVH | synchronizeFunc | emptyTransfer | finaliser => exact ⟨rfl, rfl⟩

/-- Where a pass is in a regular run. -/
def PassPc.regular : PassPc → Bool
  | .unpack cmd m => cmd.closure.takes m
  | .received _ b => !b
  | p => !p.isCancel

/-- The instructions of `close` and `openContext` that matter to other calls are left out. -/
def Instr.regular : Instr → Bool
  | .terminate | .join | .setExit | .newpeerSend | .newpeerWait => false
  | _ => true

theorem regular_fragments (b : Build) (kept : Bool) (k : Nat) : (fragments b kept k).all Instr.regular = true := by
  induction k with
  | zero => rfl
  | succ k ih => simp [fragments, ifAlive, issueAndPush, Instr.regular, ih]

theorem regular_asyncMem (b : Build) (kept : Bool) (k : Nat) : (asyncMem b kept k).all Instr.regular = true := by
  cases k with
  | zero => rfl
  | succ k => simp [asyncMem, ifAlive, issueAndPush, Instr.regular, regular_fragments]

theorem Call.regular_code {c : Call} (hopen : c ≠ .openContext) (hclose : c ≠ .close) : c.code.all Instr.regular = true := by
  cases c with
  | openContext => exact absurd rfl hopen
  | close => exact absurd rfl hclose
  | largeCallAsync copyin copyout w r =>
    simp only [Call.code, Aveo.largeCallAsync, simpleCallAsync, ifAlive, List.all_cons, List.all_append]
    cases copyin <;> cases copyout <;> simp [regular_asyncMem, issueAndPush, Instr.regular]
  | genericAsyncReq nowait => cases nowait <;> rfl
  | asyncWriteMem k | asyncReadMem k => exact regular_asyncMem _ _ k
  | _ => rfl

theorem regular_vhCode {c : Closure} {i : Instr} (h : i ∈ vhCode c) : ∃ sub id, i = .finPeek sub id := by
  have hpart : ∀ {x : ReqId} {sub : Sub}, i ∈ (if x ≠ requestIdInvalid then [Instr.finPeek sub x] else []) →
      ∃ sub id, i = .finPeek sub id := by
    intro x sub hmem
    split at hmem
    · exact ⟨_, _, List.mem_singleton.mp hmem⟩
    · cases hmem
  cases c with
  | finaliser w c r =>
    rcases List.mem_append.mp h with h | h
    · exact (List.mem_append.mp h).elim hpart hpart
    · exact hpart h
  | _ => cases h

/-- What the threads share in a regular run. -/
structure Shared.Regular (sh : Shared n) : Prop where
  running : sh.state = .running
  flag : sh.comq.terminateFlag = false
  survival : sh.procSurvival = true
  direct : sh.direct = []
  used : sh.used.length = (submissions sh.log).length
  alive : sh.terminated = false

structure State.Regular (s : State n) : Prop where
  shared : s.sh.Regular
  code : ∀ t, ∀ i ∈ (s.api t).code, i.regular = true
  vh : (s.api none).phase = .run ∧ ∀ i ∈ (s.api none).code, ∃ sub id, i = .finPeek sub id
  cursor : ∀ p, s.cursor = some p → p.regular = true
  reply : ∀ req m cmd, s.cursor = some (.reply req m) → (req, cmd) ∈ s.sh.comq.inflight.entries →
    cmd.closure.takes m = true
  main : s.main ≠ .exited

/-- What only `close`, `openContext`, a failure or a pass changes. -/
structure SameService (sh sh' : Shared n) : Prop where
  state : sh'.state = sh.state
  survival : sh'.procSurvival = sh.procSurvival
  terminated : sh'.terminated = sh.terminated
  peer : SamePeer sh sh'

theorem exec_service {t : Tid n} {exited : Bool} {sh sh' : Shared n} {r : Regs} {rest : List Instr} {i : Instr} {env : Env}
    {a : Api} (h : exec t exited sh r rest i env = some (sh', a)) (hi : i.regular = true) : SameService sh sh' := by
  have hsame : SameService sh sh := ⟨rfl, rfl, rfl, rfl, rfl, rfl⟩
  have hpeek : ∀ id, SameService sh (sh.peekResult t id).1 := by
    intro id
    obtain ⟨q, rem, log, heq⟩ := sh.peekResult_eq t id
    rw [heq]
    exact ⟨rfl, rfl, rfl, rfl, rfl, rfl⟩
  have hemit : ∀ {sh₁ : Shared n} (e : Event n), SameService sh sh₁ → SameService sh (sh₁.emit e) := fun _ hs =>
    ⟨hs.state, hs.survival, hs.terminated, hs.peer.pending, hs.peer.used, hs.peer.direct⟩
  cases i with
  | terminate | join | setExit | newpeerSend | newpeerWait => cases hi
  | peekResult id =>
    cases env <;> cases h
    exact hemit _ (hpeek id)
  | finPeek sub id =>
    cases env <;> cases h
    exact hpeek id
  | waitPeek id =>
    cases env with
    | tau =>
      simp only [exec] at h
      split at h <;> cases h
      · exact hpeek id
      · exact hemit _ (hpeek id)
    | _ => cases h
  | setNowait | pushRequest | waitCompletion | lockSubmit | unlockSubmit | reqBlockBegin | reqBlockEnd =>
    cases env with
    | tau =>
      obtain ⟨c, -, heq⟩ := Option.map_eq_some_iff.mp h
      cases heq
      exact ⟨rfl, rfl, rfl, rfl, rfl, rfl⟩
    | _ => cases h
  | remInsert | clearPrev | unlockCtx | notifyAll | waitNotify | syncReturn | save =>
    cases env <;> cases h
    exact ⟨rfl, rfl, rfl, rfl, rfl, rfl⟩
  | isAlive | issue | progress | syncWait | lockCtx | progressTry | peekTry | waitTry | waitCheck | waitErase =>
    cases env <;> simp only [exec] at h <;> (try split at h) <;> cases h <;> exact ⟨rfl, rfl, rfl, rfl, rfl, rfl⟩

theorem Shared.Regular.exec {t : Tid n} {exited : Bool} {sh sh' : Shared n} {r : Regs} {rest : List Instr} {i : Instr}
    {env : Env} {a : Api} (hsh : sh.Regular) (h : exec t exited sh r rest i env = some (sh', a)) (hi : i.regular = true) :
    sh'.Regular := by
  have hsame := exec_service h hi
  have hflag : sh'.comq.terminateFlag = sh.comq.terminateFlag := by
    cases exec_wait h with
    | same hsame => exact hsame.terminateFlag
    | notify _ heq => rw [heq, CommQueue.notifyAll_terminateFlag]
    | terminate hi' => rw [hi'] at hi; cases hi
  refine ⟨hsame.state.trans hsh.running, hflag.trans hsh.flag, hsame.survival.trans hsh.survival,
    hsame.peer.direct.trans hsh.direct, ?_, hsame.terminated.trans hsh.alive⟩
  rw [hsame.peer.used, hsh.used, (exec_effect h).submissions]

/-- A step of a pass in a regular run. -/
theorem passStep_regular {x : Bool} {t : Tid n} {sh sh' : Shared n} {p : PassPc} {env : Env} {out : PassOut}
    (h : passStep x t sh p env = some (sh', out)) (hp : p.regular = true) (hsurv : sh.procSurvival = true)
    (hsurv' : sh'.procSurvival = true)
    (hreply : ∀ req m cmd, p = .reply req m → (req, cmd) ∈ sh.comq.inflight.entries → cmd.closure.takes m = true) :
    sh'.state = sh.state ∧ sh'.terminated = sh.terminated ∧ ∀ p', out = .next p' → p'.regular = true := by
  cases p with
  | failed | cancelRequest | cancelledRequest | cancelInflight | cancelledInflight => cases hp
  | reply req m =>
    cases env with
    | tau =>
      simp only [passStep] at h
      split at h <;> cases h
      · exact ⟨rfl, rfl, fun p' hp' => by cases hp'⟩
      · rename_i cmd q hpop
        obtain ⟨hentry, rfl⟩ := CommQueue.popInFlight_eq_some.mp hpop
        refine ⟨rfl, rfl, fun p' hp' => ?_⟩
        cases hp'
        exact hreply req m cmd rfl hentry
    | _ => cases h
  | unpack cmd m =>
    cases env <;> cases h
    have htakes : cmd.closure.takes m = true := hp
    obtain ⟨hstate, hok⟩ := sh.unpack_of_takes t htakes
    obtain ⟨q, rem, log, st, heq⟩ := sh.unpack_eq t cmd m
    refine ⟨hstate, by rw [heq], fun p' hp' => ?_⟩
    cases hp'
    rw [hok]
    rfl
  | received cmd b =>
    cases env <;> cases h
    cases b with
    | true => cases hp
    | false => cases cmd.nowait <;> exact ⟨rfl, rfl, fun p' hp' => by cases hp'; rfl⟩
  | putBack cmd defer =>
    cases env <;> cases h
    cases defer <;> exact ⟨rfl, rfl, fun p' hp' => by cases hp' <;> rfl⟩
  | idle =>
    cases env with
    | tau =>
      simp only [passStep, hsurv, Bool.not_true, Bool.and_false, Bool.false_eq_true, if_false] at h
      cases h
      exact ⟨rfl, rfl, fun p' hp' => by cases hp'⟩
    | dead =>
      simp only [passStep] at h
      split at h <;> cases h
      cases hsurv'
    | _ => cases h
  | poll | tryPop | popped | submitted | rejected | executed =>
    cases env <;> simp only [passStep] at h <;> (try split at h) <;> (try split at h) <;> cases h <;>
      exact ⟨rfl, rfl, fun p' hp' => by cases hp' <;> rfl⟩

/-- The numbers handed out are those of the requests submitted. -/
theorem used_pass {x : Bool} {t : Tid n} {sh sh' : Shared n} {p : PassPc} {env : Env} {out : PassOut}
    (h : passStep x t sh p env = some (sh', out)) (hused : sh.used.length = (submissions sh.log).length) :
    sh'.used.length = (submissions sh'.log).length := by
  have heff := passStep_effect h
  have hpeer := passStep_peer h
  by_cases hmoves : out.movesPeer = false
  · rw [heff.submissions hmoves, ← hused]
    cases hpeer with
    | same hsame => rw [hsame.used]
    | reply | submit => cases hmoves
  · cases hpeer with
    | same _ hout => exact absurd hout hmoves
    | reply _ heq =>
      rw [heq]
      exact hused
    | submit _ hsame =>
      cases heff with
      | quiet hp => cases hp
      | submit => simp [Shared.emit, Shared.send, submissions, Event.submission, hused]
      | complete hp => rcases hp with ⟨_, hp, -⟩ | hp | hp | hp | hp <;> cases hp

theorem Shared.Regular.pass {x : Bool} {t : Tid n} {sh sh' : Shared n} {p : PassPc} {env : Env} {out : PassOut}
    (hsh : sh.Regular) (h : passStep x t sh p env = some (sh', out)) (hsurv : sh'.procSurvival = true)
    (hstate : sh'.state = sh.state) (hterm : sh'.terminated = sh.terminated) : sh'.Regular :=
  ⟨hstate.trans hsh.running, (passStep_wait h).terminateFlag.trans hsh.flag, hsurv,
    (passStep_frame h).direct.trans hsh.direct, used_pass h hsh.used, hterm.trans hsh.alive⟩

theorem Shared.Regular.quiet {sh sh' : Shared n} (hsh : sh.Regular) (h : SameService sh sh')
    (hflag : sh'.comq.terminateFlag = sh.comq.terminateFlag) (hlog : submissions sh'.log = submissions sh.log) :
    sh'.Regular :=
  ⟨h.state.trans hsh.running, hflag.trans hsh.flag, h.survival.trans hsh.survival, h.peer.direct.trans hsh.direct, by
    rw [h.peer.used, hlog, hsh.used], h.terminated.trans hsh.alive⟩

namespace State.Regular

variable {s s' : State n}

theorem init : (State.new n).Regular where
  shared := ⟨rfl, rfl, rfl, rfl, rfl, rfl⟩
  code _ _ hi := absurd hi List.not_mem_nil
  vh := ⟨rfl, fun _ hi => absurd hi List.not_mem_nil⟩
  cursor p hp := absurd hp (State.cursor_new_ne p)
  reply _ _ _ hp := absurd hp (State.cursor_new_ne _)
  main h := by cases h

theorem code_step (h : s.Regular) {l : Label n} (hstep : s.step l = some s') (hl : l.regular = true) (t : Tid n) :
    ∀ i ∈ (s'.api t).code, i.regular = true := by
  intro i hi
  cases Aveo.code_step hstep hi with
  | kept hi => exact h.code t i hi
  | follows _ _ _ hf => cases hf <;> rfl
  | resumed _ hi => rcases hi with rfl | rfl <;> rfl
  | @called c hcall hi =>
    have hall : c.code.all Instr.regular = true := by
      subst hcall
      refine Call.regular_code ?_ ?_ <;> rintro rfl <;> cases t <;> cases hl
    exact List.all_eq_true.mp hall i hi
  | unwound hi => rcases hi with rfl | rfl <;> rfl
  | vh _ _ hi =>
    obtain ⟨sub, id, rfl⟩ := regular_vhCode hi
    rfl

/-- A VH function makes no calls. -/
theorem vh_step (h : s.Regular) {l : Label n} (hstep : s.step l = some s') (hl : l.regular = true) :
    (s'.api none).phase = .run ∧ ∀ i ∈ (s'.api none).code, ∃ sub id, i = .finPeek sub id := by
  have hother : ∀ (sh : Shared n) {t : Tid n} {a : Api}, t ≠ none →
      ((({ s with sh := sh } : State n).setApi t a).api none).phase = .run ∧
        ∀ i ∈ ((({ s with sh := sh } : State n).setApi t a).api none).code, ∃ sub id, i = .finPeek sub id := by
    intro sh t a ht
    rw [State.setApi_api_ne _ _ (Ne.symm ht)]
    exact h.vh
  cases step_cases hstep with
  | out | execLock | execTest | execUnlock | vhReturn => exact h.vh
  | @pass p env sh out hmain hpass =>
    cases out with
    | startVH cmd =>
      rw [State.afterPass, State.setApi_api_self]
      exact ⟨rfl, fun i hi => regular_vhCode hi⟩
    | next | ret | throws => exact h.vh
  | @exec t env i rest sh a hphase hcode hexec =>
    by_cases ht : t = none
    · subst ht
      obtain ⟨sub, id, rfl⟩ := h.vh.2 i (hcode ▸ List.mem_cons_self)
      cases env <;> cases hexec
      rw [State.setApi_api_self]
      exact ⟨rfl, fun j hj => h.vh.2 j (hcode ▸ List.mem_cons_of_mem _ hj)⟩
    · exact hother sh ht
  | @apiPass t _ _ _ _ _ _ _ hphase | @unlock t _ _ _ _ hphase =>
    refine hother _ ?_
    rintro rfl
    rw [h.vh.1] at hphase
    cases hphase
  | @call t c =>
    refine hother s.sh ?_
    rintro rfl
    cases hl

theorem main_step (h : s.Regular) {l : Label n} (hstep : s.step l = some s') : s'.main ≠ .exited := by
  have hkeep : s'.main = s.main → s'.main ≠ .exited := fun heq => by rw [heq]; exact h.main
  cases l with
  | api | call =>
    refine hkeep ?_
    cases step_cases hstep <;> rfl
  | main env =>
    simp only [State.step, h.shared.alive, Bool.false_eq_true, if_false] at hstep
    unfold mainStep at hstep
    split at hstep
    · split at hstep <;> cases hstep
      · exact fun h => by cases h
      · simp only [h.shared.flag, Bool.false_eq_true, if_false]
        exact fun h => by cases h
    · split at hstep <;> cases hstep
      simp only [h.shared.flag, Bool.false_eq_true, if_false]
      exact fun h => by cases h
    · obtain ⟨m, -, rfl⟩ := Option.map_eq_some_iff.mp hstep
      exact fun h => by cases h
    · cases hstep
      dsimp only
      split <;> exact fun h => by cases h
    · rename_i hmain
      obtain ⟨⟨sh, out⟩, -, rfl⟩ := Option.map_eq_some_iff.mp hstep
      cases out with
      | next | ret | startVH => exact fun h => by cases h
      | throws => exact h.main
    · split at hstep <;> cases hstep
      exact fun h => by cases h
    · obtain ⟨m, -, rfl⟩ := Option.map_eq_some_iff.mp hstep
      exact fun h => by cases h
    · cases hstep
      simp only [h.shared.running, reduceCtorEq, if_false]
      exact fun h => by cases h
    · cases hstep

/-- A step of the pass that is going on does not throw. -/
theorem not_throws (hA : Answered s) {x : Bool} {t : Tid n} {p : PassPc} {env : Env} {sh : Shared n} {out : PassOut}
    (hp : s.cursor = some p) (h : passStep x t s.sh p env = some (sh, out)) : out ≠ .throws := by
  rintro rfl
  cases (passStep_effect h).inflight with
  | same _ _ hne => exact hne rfl
  | throws hreq => exact hreq (hA.reply _ _ hp)

theorem pass_step (h : s.Regular) (hA : Answered s) {x : Bool} {t : Tid n} {p : PassPc} {env : Env} {sh : Shared n}
    {out : PassOut} (hp : s.cursor = some p) (hpass : passStep x t s.sh p env = some (sh, out))
    (hsurv : sh.procSurvival = true) : sh.Regular ∧ out ≠ .throws ∧ ∀ p', out.passPc = some p' → p'.regular = true := by
  obtain ⟨hstate, hterm, hnext⟩ := passStep_regular hpass (h.cursor p hp) h.shared.survival hsurv
    fun req m cmd heq => h.reply req m cmd (by rw [hp, heq])
  refine ⟨h.shared.pass hpass hsurv hstate hterm, not_throws hA hp hpass, fun p' hp' => ?_⟩
  cases out with
  | next q => exact hnext p' (by cases hp'; rfl)
  | ret | startVH | throws => cases hp'

theorem shared_step (h : s.Regular) (hA : Answered s) (hB : Basic s) {l : Label n} (hstep : s.step l = some s')
    (hC : regular s l s') : s'.sh.Regular := by
  have hB' := hB.step hstep
  cases step_cases hstep with
  | out hmain hmain' hq hsh =>
    rw [hsh]
    exact h.shared.quiet ⟨rfl, rfl, rfl, rfl, rfl, rfl⟩ rfl rfl
  | execLock | execTest | execUnlock | unlock | call => exact h.shared.quiet ⟨rfl, rfl, rfl, rfl, rfl, rfl⟩ rfl rfl
  | vhReturn => exact h.shared.quiet ⟨rfl, rfl, rfl, rfl, rfl, rfl⟩ rfl (submissions_append_of_none _ rfl)
  | exec hphase hcode hexec => exact h.shared.exec hexec (h.code _ _ (hcode ▸ List.mem_cons_self))
  | @pass p env sh out hmain hpass =>
    obtain ⟨hp, -, -⟩ := cursor_mainPass hB hB' hmain
    have hsurv : sh.procSurvival = true := by
      have hs := hC.2.1
      cases out <;> exact hs
    obtain ⟨hreg, hne, -⟩ := h.pass_step hA hp hpass hsurv
    cases out with
    | next | ret | startVH => exact hreg
    | throws => exact absurd rfl hne
  | @apiPass t env p k sh sh' out a hphase hpass hout =>
    obtain ⟨hp, ⟨b, hsh⟩, -⟩ := cursor_apiPass hB hB' hphase hout
    have hsurv : sh.procSurvival = true := by
      have hs : sh'.procSurvival = true := hC.2.1
      rw [hsh] at hs
      exact hs
    obtain ⟨hreg, hne, -⟩ := h.pass_step hA hp hpass hsurv
    cases out with
    | next | ret => cases hout; exact hreg
    | startVH => cases hout
    | throws => exact absurd rfl hne

theorem cursor_step (h : s.Regular) (hA : Answered s) (hB : Basic s) {l : Label n} (hstep : s.step l = some s')
    (hC : regular s l s') : ∀ p, s'.cursor = some p → p.regular = true := by
  have hkept : CursorKept s s' → ∀ p, s'.cursor = some p → p.regular = true := by
    rintro (heq | ⟨-, heq⟩) p hp
    · exact h.cursor p (heq ▸ hp)
    · rw [heq] at hp
      cases hp
      rfl
  cases cursorStep hB hstep with
  | @pass x t p env sh out b hp hpass hsh hcur =>
    have hsurv : sh.procSurvival = true := by
      have hs := hC.2.1
      rw [hsh] at hs
      exact hs
    obtain ⟨-, hne, hnext⟩ := h.pass_step hA hp hpass hsurv
    rw [hcur.resolve_right fun hthrows => hne hthrows.1]
    exact hnext
  | vhReturn _ _ _ _ hcur =>
    intro p hp
    rw [hcur] at hp
    cases hp
    rfl
  | exec _ _ _ hcur => exact hkept hcur
  | quiet _ hcur => exact hkept hcur

theorem step (h : s.Regular) (hA : Answered s) (hB : Basic s) {l : Label n} (hstep : s.step l = some s')
    (hC : regular s l s') : s'.Regular where
  shared := h.shared_step hA hB hstep hC
  code := h.code_step hstep hC.1
  vh := h.vh_step hstep hC.1
  cursor := h.cursor_step hA hB hstep hC
  reply := hC.2.2.2
  main := h.main_step hstep

/-- In a regular run no NEWPEER request is sent and nothing fails. -/
theorem of_reachable (h : (context n).Reachable regular s) : s.Regular ∧ (context n).Reachable undisturbed s := by
  refine h.invariant (I := fun s => s.Regular ∧ (context n).Reachable undisturbed s) (fun s₀ h0 => ?_)
    fun s₀ l s₁ hr hstep hC hs => ?_
  · refine ⟨?_, .init h0⟩
    rw [h0]
    exact init
  · have hnew := hs.1.step (.of_reachable hs.2) (.of_reachable hr) hstep hC
    refine ⟨hnew, hs.2.step hstep ⟨fun _ _ _ _ r hmem => ?_, fun hfailed => ?_⟩⟩
    · rw [hs.1.shared.direct] at hmem
      cases hmem
    · cases hnew.cursor _ hfailed

end State.Regular

end Aveo

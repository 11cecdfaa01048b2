import Aveo.Progress.Results

/-!
# Submission order, the VH barrier and synchronize

VE commands are submitted in the order of the pushes, and a VH function starts when everything pushed before its command
is completed. So the finaliser of a large call finds its sub-requests finished. For `synchronize` the barrier has a gap:
`cancelAll` completes the requests of the queue before those in flight, and a thread that waits for the command of its
`synchronize` may return in between.
-/

namespace Aveo

open Lib

variable {n : Nat}

/-! ### What precedes a command that was started -/

theorem Tracked.pushed_of_started {s : State n} (h : Tracked s) {id : ReqId} (hid : id ∈ startedIds s.sh.log) :
    id ∈ pushedIds s.sh.log := by
  rw [h.ordered.pushed]
  exact List.mem_append_left _ hid

theorem precedes_of_started {C : Machine.Cond (State n) (Label n)} {s s' : State n} {l : Label n}
    (hr : (context n).Reachable C s) (hstep : s.step l = some s') {id x : ReqId} (hid : id ∈ startedIds s'.sh.log)
    (hx : Pipeline.Precedes (pushedIds s'.sh.log) x id) : Pipeline.Precedes (pushedIds s.sh.log) x id := by
  cases moves_step (Tracked.of_reachable hr) hstep with
  | stutter h =>
    have hpushed : pushedIds s'.sh.log = pushedIds s.sh.log := congrArg Pipeline.pushed h
    rwa [hpushed] at hx
  | act h => exact (pipeline_run hr).precedes_step h hid hx

/-- Whatever was pushed before a VH command whose function was started is completed. -/
theorem completed_before_vhStart {C : Machine.Cond (State n) (Label n)} {s : State n} (hr : (context n).Reachable C s) {id x : ReqId}
    (hid : .vhStart id ∈ s.sh.log) (hx : Pipeline.Precedes (pushedIds s.sh.log) x id) : s.sh.Completed x := by
  revert id x
  refine hr.invariant (I := fun s => ∀ {id x}, .vhStart id ∈ s.sh.log → Pipeline.Precedes (pushedIds s.sh.log) x id →
    s.sh.Completed x) ?_ ?_
  · intro s₀ h0 id x hid
    rw [h0] at hid
    cases hid
  · intro s l s' hr hstep _ ih id x hid hx
    have hx₀ := precedes_of_started hr hstep (mem_startedIds.mpr (.inr (.inr (.inl hid)))) hx
    refine (moves_step (Tracked.of_reachable hr) hstep).completed ?_
    by_cases hold : .vhStart id ∈ s.sh.log
    · exact ih hold hx₀
    · exact completed_of_vhStart hr hstep hid hold hx₀

/-! ### The finaliser -/

/-- The finaliser that runs captured the sub-request that is looked for. -/
theorem captured_of_finPeek {C : Machine.Cond (State n) (Label n)} {s : State n} (hr : (context n).Reachable C s) {t : Tid n}
    {sub : Sub} {id : ReqId} (h : .finPeek sub id ∈ (s.api t).code) :
    t = none ∧ ∃ cmd, s.main.vhCmd = some cmd ∧ id ∈ cmd.closure.captured := by
  revert t sub id
  refine hr.invariant (I := fun s => ∀ {t sub id}, .finPeek sub id ∈ (s.api t).code →
    t = none ∧ ∃ cmd, s.main.vhCmd = some cmd ∧ id ∈ cmd.closure.captured) ?_ ?_
  · intro s₀ h0 t sub id h
    rw [h0] at h
    cases h
  · intro s l s' hr hstep _ ih t sub id h
    cases code_step hstep h with
    | kept h =>
      obtain ⟨rfl, cmd, hcmd, hid⟩ := ih h
      refine ⟨rfl, cmd, ?_, hid⟩
      cases cursorStep (Basic.of_reachable hr) hstep with
      | @pass x t p env sh out b hp hpass hsh hcur hvh hx =>
        rcases (passStep_effect hpass).vhCmd with hnone | ⟨_, -, hexec, -⟩
        · rw [hvh, hnone]
          exact hcmd
        · rw [hx hexec] at hcmd
          cases hcmd
      | vhReturn _ _ _ _ _ _ hidle =>
        rw [hidle] at h
        cases h
      | exec _ _ _ _ hvh | quiet _ _ hvh => rw [hvh]; exact hcmd
    | follows _ _ _ hf => cases hf
    | resumed _ hj => rcases hj with hj | hj <;> cases hj
    | called _ hj =>
      rcases Call.retrieves hj rfl with rfl | rfl <;> cases List.mem_singleton.mp hj
    | unwound hj => rcases hj with hj | hj <;> cases hj
    | vh hu hmain hj =>
      refine ⟨hu, _, ?_, mem_captured_of_vhCode hj rfl⟩
      rw [hmain]
      rfl

/-- The finaliser of a large call never sees a sub-request UNFINISHED. -/
theorem finPeek_finished {s : State n} (hr : (context n).Reachable publicInOrder s) {t : Tid n} {sub : Sub} {id : ReqId}
    (h : .finPeek sub id ∈ (s.api t).code) : (s.sh.peekResult t id).2.1 ≠ .unfinished := by
  have hpub := publicInOrder_public hr
  have hcap := Captures.of_reachable hpub
  obtain ⟨-, cmd, hcmd, hid⟩ := captured_of_finPeek hr h
  obtain ⟨hpushed, hint⟩ := hcap.captured _ _ (built_of_vh hr hcmd).1 _ hid
  have hstart := vhStart_of_vh hr hcmd
  refine peekResult_of_internal hpub t hint ?_ fun c hc => finished_of_internal hr hint hc
  obtain ⟨u, h', he⟩ := push_of_built hr (built_of_vh hr hcmd).1
    ((Tracked.of_reachable hr).pushed_of_started (mem_startedIds.mpr (.inr (.inr (.inl hstart)))))
  exact completed_before_vhStart hr hstart (hcap.push u h' _ _ he _ hid)

/-! ### The barrier at a synchronize command -/

/-- `cancelAll` takes the command of a `synchronize` from the queue only when nothing is in flight and no VH function runs. -/
def calmCancel : Machine.Cond (State n) (Label n) := fun s _ s' =>
  ∀ cmd rest, s.cursor = some .cancelRequest → s.sh.comq.request = cmd :: rest → s'.cursor = some (.cancelledRequest cmd) →
    cmd.closure = .synchronizeFunc → s.sh.comq.inflight.isEmpty = true ∧ s.main.vhCmd = none

/-- A check of the condition on one step. -/
def calmCancelCheck (s s' : State n) : Bool :=
  match s.cursor, s.sh.comq.request, s'.cursor with
  | some .cancelRequest, cmd :: _, some (.cancelledRequest _) =>
      cmd.closure ≠ .synchronizeFunc || s.sh.comq.inflight.isEmpty && s.main.vhCmd = none
  | _, _, _ => true

theorem calmCancel_of_check (s : State n) (l : Label n) (s' : State n) (h : calmCancelCheck s s' = true) : calmCancel s l s' := by
  intro cmd rest hp hreq hp' hclosure
  unfold calmCancelCheck at h
  rw [hp, hreq, hp'] at h
  simpa [hclosure] using h

theorem completed_of_calm {s : State n} (hT : Tracked s) {cmd : Command} {rest : List Command} (hp : s.cursor = some .cancelRequest)
    (hreq : s.sh.comq.request = cmd :: rest) (hempty : s.sh.comq.inflight.isEmpty = true) (hvh : s.main.vhCmd = none) {x : ReqId}
    (hx : Pipeline.Precedes (pushedIds s.sh.log) x cmd.msgid) : s.sh.Completed x := by
  have hpushed : pushedIds s.sh.log = startedIds s.sh.log ++ cmd.msgid :: rest.map Command.msgid := by
    rw [hT.ordered.pushed, hp, CommQueue.requestIds, hreq]
    rfl
  rcases hT.started_iff.mp (hx.mem_of_eq hT.pushed_nodup hpushed) with hinf | (⟨p, c, hp', -, hc, -⟩ | ⟨c, hc, -⟩) | hdone
  · rw [CommQueue.inflightIds, BlockingMap.isEmpty_iff_values.mp hempty] at hinf
    cases hinf
  · rw [hp] at hp'
    cases hp'
    cases hc
  · rw [hvh] at hc
    cases hc
  · exact hdone

theorem completed_before_cancel {s : State n} (hr : (context n).Reachable calmCancel s) {id x : ReqId}
    (hid : .cancel id true ∈ s.sh.log) (hb : s.Built id .synchronizeFunc) (hx : Pipeline.Precedes (pushedIds s.sh.log) x id) :
    s.sh.Completed x := by
  revert id x
  refine hr.invariant (I := fun s => ∀ {id x}, .cancel id true ∈ s.sh.log → s.Built id .synchronizeFunc →
    Pipeline.Precedes (pushedIds s.sh.log) x id → s.sh.Completed x) ?_ ?_
  · intro s₀ h0 id x hid
    rw [h0] at hid
    cases hid
  · intro s l s' hr hstep hC ih id x hid hb hx
    have hT := Tracked.of_reachable hr
    have hx₀ := precedes_of_started hr hstep (mem_startedIds.mpr (.inr (.inr (.inr hid)))) hx
    obtain ⟨t, h, c, he⟩ := mem_pushedIds.mp hx₀.mem.2
    have hb₀ : s.Built id c := .inr ⟨t, h, he⟩
    obtain rfl := State.Built.unique (hr.step hstep hC) hb (hb₀.step hT.basic hstep)
    refine (moves_step hT hstep).completed ?_
    rcases new_event (cursorStep hT.basic hstep) hid with hold | hnew
    · exact ih hold hb₀ hx₀
    · cases hnew with
      | quiet hq => cases hq
      | @cancelRequest cmd rest hp hreq hp' =>
        have hl : s.Live cmd := .inr (.inr (.inl (by rw [hreq]; exact List.mem_cons_self)))
        have hclosure : cmd.closure = .synchronizeFunc := State.Built.unique hr (built_of_live hr hl hx₀.mem.2) hb₀
        obtain ⟨hempty, hvh⟩ := hC cmd rest hp hreq hp' hclosure
        exact completed_of_calm hT hp hreq hempty hvh hx₀

/-- When the command of a `synchronize` was executed or cancelled, whatever was pushed before it is completed. -/
theorem completed_before_sync {s : State n} (hr : (context n).Reachable calmCancel s) {id x : ReqId}
    (hb : s.Built id .synchronizeFunc) (hid : id ∈ startedIds s.sh.log) (hx : Pipeline.Precedes (pushedIds s.sh.log) x id) :
    s.sh.Completed x := by
  obtain ⟨f, hf⟩ := Kinds.of_reachable hr
  obtain ⟨t, h, he⟩ := push_of_built hr hb hx.mem.2
  have hvh : (f id).isVH = true := by
    rw [hf.push t h id _ he]
    rfl
  rcases mem_startedIds.mp hid with ⟨req, hsub⟩ | hrej | hstart | hcancel
  · rw [hf.submit id req hsub] at hvh
    cases hvh
  · rw [hf.reject id hrej] at hvh
    cases hvh
  · exact completed_before_vhStart hr hstart hx
  · exact completed_before_cancel hr hcancel hb hx

/-! ### The wait of synchronize -/

/-- The request that an instruction of `callWaitResult` waits for. -/
def Instr.awaits : Instr → Option ReqId
  | .waitTry id | .waitPeek id | .waitNotify id | .waitCheck id | .waitCompletion id | .waitErase id _ => some id
  | _ => none

theorem Instr.asks_of_awaits {i : Instr} {id : ReqId} (h : i.awaits = some id) : i.asks = some id := by
  cases i <;> first | exact h | cases h

theorem Instr.isPlain_of_awaits {i : Instr} {id : ReqId} (h : i.awaits = some id) : i.isPlain = true := by
  cases i <;> first | rfl | cases h

/-- What an instruction of `callWaitResult` leads to: another one, a pass, or the end of the call. -/
inductive AwaitsExec (sh : Shared n) (id : ReqId) (i : Instr) (rest : List Instr) (sh' : Shared n) (a : Api) : Prop
  | stays {j : Instr} (hj : j.awaits = some id) (hcode : a.code = j :: rest) (hphase : a.phase = .run)
  | passes (hcode : a.code = rest) (hphase : a.phase.waits = some id)
  | leaves (hcode : a.code = rest) (hphase : a.phase = .run)
      (h : id ∉ sh.remReqid ∨ id ∈ deliveredIds sh'.log ∨ ∃ c, i = .waitErase id c)

theorem exec_awaits {t : Tid n} {exited : Bool} {sh sh' : Shared n} {r : Regs} {rest : List Instr} {i : Instr} {env : Env}
    {a : Api} {id : ReqId} (hi : i.awaits = some id) (h : exec t exited sh r rest i env = some (sh', a)) :
    a.regs = r ∧ AwaitsExec sh id i rest sh' a := by
  cases i with
  | waitTry x =>
    cases hi
    cases env <;> simp only [exec] at h <;> (try split at h) <;> cases h
    · exact ⟨rfl, .passes rfl rfl⟩
    · exact ⟨rfl, .stays (j := .waitNotify id) rfl rfl rfl⟩
  | waitPeek x =>
    cases hi
    cases env with
    | tau =>
      simp only [exec] at h
      have hcase := peek_cases sh t id
      generalize sh.peekResult t id = r at hcase h
      split at h <;> cases h
      · exact ⟨rfl, .stays (j := .waitTry id) rfl rfl rfl⟩
      · rename_i hne
        refine ⟨rfl, .leaves rfl rfl ?_⟩
        cases hcase with
        | delivered =>
          exact .inr (.inl (mem_deliveredIds.mpr ⟨t, List.mem_append_left _ (List.mem_append_right _ (List.mem_singleton_self _))⟩))
        | unfinished => exact absurd rfl hne
        | unknown hnot => exact .inl hnot
    | _ => cases h
  | waitNotify x =>
    cases hi
    cases env <;> cases h
    exact ⟨rfl, .stays (j := .waitCheck id) rfl rfl rfl⟩
  | waitCheck x =>
    cases hi
    cases env with
    | tau =>
      simp only [exec] at h
      split at h <;> cases h
      · exact ⟨rfl, .stays (j := .waitCompletion id) rfl rfl rfl⟩
      · rename_i hnot
        exact ⟨rfl, .leaves rfl rfl (.inl hnot)⟩
    | _ => cases h
  | waitCompletion x =>
    cases hi
    cases env with
    | tau =>
      obtain ⟨p, -, heq⟩ := Option.map_eq_some_iff.mp h
      cases heq
      exact ⟨rfl, .stays (j := .waitErase id p.1) rfl rfl rfl⟩
    | _ => cases h
  | waitErase x c =>
    cases hi
    cases env <;> simp only [exec] at h <;> (try split at h) <;> cases h <;> exact ⟨rfl, .leaves rfl rfl (.inr (.inr ⟨c, rfl⟩))⟩
  | _ => cases hi

/-- Only the wait leads to the return of `synchronize`. -/
theorem Instr.Next.enterable {r : Regs} {i : Instr} {rest code : List Instr} (h : i.Next r rest code)
    (hplaced : placedAt i rest = true) (hi : i.awaits = none) (hne : i ≠ .syncWait) : Aveo.enterable code = true := by
  cases h with
  | next =>
    cases i with
    | waitTry | waitPeek | waitNotify | waitCheck | waitCompletion | waitErase => cases hi
    | syncWait => exact absurd rfl hne
    | newpeerSend =>
      obtain ⟨rest', rfl⟩ := drop_newpeerWait hplaced
      rfl
    | issue => exact (Bool.and_eq_true_iff.mp hplaced).1
    | save | isAlive => exact (Bool.and_eq_true_iff.mp (Bool.and_eq_true_iff.mp hplaced).1).1
    | _ => exact hplaced
  | dead hk =>
    subst hk
    exact (Bool.and_eq_true_iff.mp (Bool.and_eq_true_iff.mp hplaced).1).2
  | refused hk =>
    subst hk
    obtain ⟨rest', rfl⟩ := drop_newpeerWait hplaced
    exact hplaced
  | follows hf => cases hf <;> rfl

theorem Instr.Next.mem_tail {r : Regs} {i j : Instr} {rest code : List Instr} (h : i.Next r rest code) (hj : j ∈ code.tail) :
    j ∈ rest := by
  cases h with
  | next => exact List.mem_of_mem_tail hj
  | dead | refused => exact List.mem_of_mem_drop (List.mem_of_mem_tail hj)
  | follows => exact hj

theorem enterable_code (c : Call) : enterable c.code = true := by
  cases c with
  | asyncWriteMem k | asyncReadMem k => cases k <;> rfl
  | _ => rfl

/-- A thread is on its way to the return of `synchronize`: it asks for nothing but the command of the call, and gets there
when that is completed. -/
structure Syncing (s : State n) (t : Tid n) : Prop where
  tail : ∀ i ∈ (s.api t).code.tail, i.asks = none
  calm : (s.api t).phase.waits ≠ none → ∀ i ∈ (s.api t).code, i.asks = none
  awaits : ∀ i rest, (s.api t).code = i :: .syncReturn :: rest → i.asks = none ∨ i.awaits = some (s.api t).regs.req
  waits : ∀ id rest, (s.api t).phase.waits = some id → (s.api t).code = .syncReturn :: rest → id = (s.api t).regs.req
  returns : ∀ rest, (s.api t).phase.waits = none → (s.api t).code = .syncReturn :: rest →
    (s.api t).regs.req = requestIdInvalid ∨ (s.api t).regs.req = 0 ∨ s.sh.Completed (s.api t).regs.req

namespace Syncing

variable {s s' : State n} {l : Label n} {t : Tid n}

/-- No return of `synchronize` is next. -/
theorem of_enterable (hphase : (s.api t).phase.waits = none) (htail : ∀ i ∈ (s.api t).code.tail, i.asks = none)
    (hcode : enterable (s.api t).code = true)
    (hawaits : ∀ i rest, (s.api t).code = i :: .syncReturn :: rest → i.asks = none ∨ i.awaits = some (s.api t).regs.req) :
    Syncing s t := by
  refine ⟨htail, fun hne => absurd hphase hne, hawaits, fun id rest hid => ?_, fun rest _ heq => ?_⟩
  · rw [hphase] at hid
    cases hid
  · rw [heq] at hcode
    cases hcode

/-- Nothing is asked for, and no `synchronize` goes on. -/
theorem of_calm (hphase : (s.api t).phase.waits = none) (hasks : ∀ i ∈ (s.api t).code, i.asks = none)
    (habout : (s.api t).code.all (·.about = none) = true) : Syncing s t := by
  refine of_enterable hphase (fun i hi => hasks i (List.mem_of_mem_tail hi)) ?_ fun i rest heq =>
    .inl (hasks i (heq ▸ List.mem_cons_self))
  cases hcode : (s.api t).code with
  | nil => rfl
  | cons i rest =>
    have hi := List.all_eq_true.mp habout i (hcode ▸ List.mem_cons_self)
    cases i <;> first | rfl | cases hi

theorem of_syncWait {exited : Bool} {env : Env} {rest : List Instr} (hrest : ∀ j ∈ rest, j.asks = none)
    (hexec : exec t exited s.sh (s.api t).regs rest .syncWait env = some (s'.sh, s'.api t)) : Syncing s' t := by
  generalize hapi : s'.api t = a at hexec
  generalize s'.sh = sh' at hexec
  cases env with
  | tau =>
    simp only [exec] at hexec
    split at hexec <;> cases hexec
    · refine of_enterable (by rw [hapi]; rfl) ?_ (by rw [hapi]; rfl) fun i rest' heq => .inr ?_
      · rw [hapi]
        exact hrest
      · rw [hapi] at heq ⊢
        cases heq
        rfl
    · rename_i hzero
      refine ⟨fun i hi => ?_, fun hne => ?_, fun i rest' heq => .inl ?_, fun id rest' hid => ?_, fun rest' _ _ => .inr (.inl ?_)⟩
      · rw [hapi] at hi
        exact hrest i (List.mem_of_mem_tail hi)
      · rw [hapi] at hne
        exact absurd rfl hne
      · rw [hapi] at heq
        exact hrest i ((show rest = i :: .syncReturn :: rest' from heq) ▸ List.mem_cons_self)
      · rw [hapi] at hid
        cases hid
      · rw [hapi]
        exact not_not.mp hzero
  | _ => cases hexec

/-- The request of a `synchronize` that is not listed any more was delivered. -/
theorem completed_of_not_listed (hr : (context n).Reachable publicCalls s) {i : Instr} {rest : List Instr}
    (hcode : (s.api t).code = i :: .syncReturn :: rest) (hi : i.isPlain = true) (hnot : (s.api t).regs.req ∉ s.sh.remReqid) :
    (s.api t).regs.req = requestIdInvalid ∨ s.sh.Completed (s.api t).regs.req := by
  have hT := Tracked.of_reachable hr
  have hcap := Captures.of_reachable hr
  have hids := hcap.thread t
  refine (hids.req.pushed (hT.basic.cur_of_plain hcode hi)).imp_right fun hpushed => ?_
  rcases (Listed.of_reachable hr).pushed _ hpushed with hin | hdel | hnowait
  · exact absurd hin hnot
  · exact .inr (.inl hdel)
  · have hmem : Instr.syncReturn ∈ (s.api t).code := by
      rw [hcode]
      exact List.mem_cons_of_mem _ List.mem_cons_self
    rcases hids.about _ hmem _ rfl with hinv | hb
    · rw [hinv] at hpushed
      exact absurd (hT.lt_of_pushed hpushed) (Nat.not_lt.mpr (seqNo_le hr))
    · cases State.Built.unique hr hb (hcap.nowait _ hnowait)

theorem step (hr : (context n).Reachable publicCalls s) (hstep : s.step l = some s') (h : Syncing s t) : Syncing s' t := by
  have hT := Tracked.of_reachable hr
  have hmono : ∀ {x}, s.sh.Completed x → s'.sh.Completed x := (moves_step hT hstep).completed
  have hplaced := placed_of_reachable hr t
  cases threadStep hstep t with
  | same hcode hregs hphase =>
    refine ⟨?_, ?_, ?_, ?_, ?_⟩
    · rw [hcode]
      exact h.tail
    · rw [hcode, hphase]
      exact h.calm
    · rw [hcode, hregs]
      exact h.awaits
    · rw [hcode, hphase, hregs]
      exact h.waits
    · rw [hcode, hphase, hregs]
      exact fun rest hw hc => (h.returns rest hw hc).imp_right (.imp_right hmono)
  | @exec env exited i rest hl hphase hcode hexec =>
    have hrest : ∀ j ∈ rest, j.asks = none := by
      have htail := h.tail
      rwa [hcode] at htail
    have htail : ∀ j ∈ (s'.api t).code.tail, j.asks = none := fun j hj => hrest j ((exec_code hexec).mem_tail hj)
    rw [hcode] at hplaced
    cases hawait : i.awaits with
    | none =>
      have hrun : (s'.api t).phase.waits = none := by
        by_contra hne
        obtain ⟨id, hid⟩ := Option.ne_none_iff_exists'.mp hne
        rw [exec_phase hexec hid] at hawait
        cases hawait
      by_cases hsync : i = .syncWait
      · subst hsync
        exact of_syncWait hrest hexec
      · refine of_enterable hrun htail ((exec_code hexec).enterable (placed_cons hplaced).1 hawait hsync) fun j rest' heq => .inl ?_
        have hnext := exec_code hexec
        generalize (s'.api t).code = code at hnext heq
        cases hnext with
        | next => exact hrest j (heq ▸ List.mem_cons_self)
        | dead | refused => exact hrest j (List.mem_of_mem_drop (heq ▸ List.mem_cons_self))
        | follows hf =>
          obtain ⟨rfl, rfl⟩ := List.cons.inj heq
          cases hf with
          | progressTry => rfl
          | syncWait => exact absurd rfl hsync
          | peekResult => rcases h.awaits _ _ hcode with hnone | hnone <;> cases hnone
          | waitTry | waitNotify | waitCheck | waitCompletion | waitErase => cases hawait
    | some id =>
      obtain ⟨hregs, hcase⟩ := exec_awaits hawait hexec
      have hreq : ∀ {rest'}, rest = .syncReturn :: rest' → id = (s.api t).regs.req := by
        rintro rest' rfl
        rcases h.awaits i rest' hcode with hnone | hsome
        · rw [Instr.asks_of_awaits hawait] at hnone
          cases hnone
        · exact Option.some.inj (hawait.symm.trans hsome)
      cases hcase with
      | @stays j hj hcode' hphase' =>
        refine of_enterable (by rw [hphase']; rfl) htail ?_ fun i' rest' heq => .inr ?_
        · rw [hcode']
          cases j <;> first | rfl | cases hj
        · rw [hcode'] at heq
          cases heq
          rw [hregs, ← hreq rfl]
          exact hj
      | passes hcode' hphase' =>
        refine ⟨htail, fun _ => hcode' ▸ hrest, fun i' rest' heq => .inl ?_, fun id' rest' hid heq => ?_, fun rest' hnone => ?_⟩
        · rw [hcode'] at heq
          exact hrest i' (heq ▸ List.mem_cons_self)
        · rw [hphase'] at hid
          cases hid
          rw [hregs]
          exact hreq (hcode'.symm.trans heq)
        · rw [hphase'] at hnone
          cases hnone
      | leaves hcode' hphase' hwhy =>
        refine ⟨htail, fun hne => absurd (by rw [hphase']; rfl) hne, fun i' rest' heq => .inl ?_, fun id' rest' hid => ?_,
          fun rest' _ heq => ?_⟩
        · rw [hcode'] at heq
          exact hrest i' (heq ▸ List.mem_cons_self)
        · rw [hphase'] at hid
          cases hid
        · have heq' : rest = .syncReturn :: rest' := hcode'.symm.trans heq
          obtain rfl := hreq heq'
          rw [hregs]
          rw [heq'] at hcode
          rcases hwhy with hnot | hdel | ⟨c, rfl⟩
          · exact (completed_of_not_listed hr hcode (Instr.isPlain_of_awaits hawait) hnot).imp_right fun hc => .inr (hmono hc)
          · exact .inr (.inr (.inr (.inl hdel)))
          · refine .inr (.inr (hmono (.inr (.inl ((Listed.of_reachable hr).erase t _ c ?_)))))
            rw [hcode]
            exact List.mem_cons_self
  | @resumed id hphase hcode hregs hrun =>
    have hold := h.calm (by rw [hphase]; exact nofun)
    have hkey : ∀ j : Instr, j.awaits = some id → (s'.api t).code = j :: (s.api t).code → Syncing s' t := by
      intro j hj hcode
      refine of_enterable (by rw [hrun]; rfl) ?_ ?_ fun i rest heq => .inr ?_
      · rw [hcode]
        exact hold
      · rw [hcode]
        cases j <;> first | rfl | cases hj
      · rw [hcode] at heq
        obtain ⟨rfl, hrest⟩ := List.cons.inj heq
        rw [hregs, ← h.waits id rest hphase hrest]
        exact hj
    rcases hcode with hcode | hcode
    · exact hkey _ rfl hcode
    · exact hkey _ rfl hcode
  | @called c hl hcode hregs hidle hrun =>
    have hnil : ∀ i ∈ c.code, i.asks ≠ none → c.code = [i] := by
      intro i hi hne
      obtain ⟨id, hid⟩ := Option.ne_none_iff_exists'.mp hne
      rcases Call.retrieves hi (Instr.retrieves_of_asks hid) with rfl | rfl <;> rw [List.mem_singleton.mp hi] <;> rfl
    refine of_enterable (by rw [hrun]; rfl) (fun i hi => ?_) (hcode ▸ enterable_code c) fun i rest heq => .inl ?_
    · by_contra hne
      rw [hcode] at hi
      rw [hnil i (List.mem_of_mem_tail hi) hne] at hi
      cases hi
    · by_contra hne
      rw [hcode] at heq
      have hone := hnil i (heq ▸ List.mem_cons_self) hne
      rw [hone] at heq
      cases heq
  | unwound hcode hregs hrun =>
    refine of_calm (by rw [hrun]; rfl) (fun i hi => ?_) (hcode ▸ (unwind_calm _).2.2.1)
    rcases Api.mem_unwind (hcode ▸ hi) with rfl | rfl <;> rfl
  | @vh cmd hu hmain hcode hregs _ hrun =>
    exact of_calm (by rw [hrun]; rfl) (fun i hi => asks_of_mem_vhCode (hcode ▸ hi)) (hcode ▸ (vhCode_calm _).2.2.1)

theorem of_reachable (h : (context n).Reachable publicCalls s) (t : Tid n) : Syncing s t := by
  refine h.invariant (I := fun s => Syncing s t) ?_ fun s₀ l s₁ hr hstep _ hs => hs.step hr hstep
  intro s₀ h0
  rw [h0]
  exact of_calm rfl nofun rfl

end Syncing

/-! ### The return of synchronize -/

theorem peekResult_log (sh : Shared n) (t : Tid n) (id : ReqId) :
    (sh.peekResult t id).1.log = sh.log ∨ (sh.peekResult t id).1.log = sh.log ++ [.deliver t id] := by
  have hcase := peek_cases sh t id
  generalize sh.peekResult t id = r at hcase ⊢
  cases hcase with
  | delivered => exact .inr rfl
  | unfinished | unknown => exact .inl rfl

theorem peekPrev_log (sh : Shared n) (t : Tid n) (prev : ReqId) :
    (sh.peekPrev t prev).1.log = sh.log ∨ ∃ id, (sh.peekPrev t prev).1.log = sh.log ++ [.deliver t id] := by
  unfold Shared.peekPrev
  split
  · exact .inl rfl
  · exact (peekResult_log sh t prev).imp_right fun hlog => ⟨prev, hlog⟩

theorem unpack_log (sh : Shared n) (t : Tid n) (cmd : Command) (m : Reply) :
    (sh.unpack t cmd m).1.log = sh.log ∨ ∃ id, (sh.unpack t cmd m).1.log = sh.log ++ [.deliver t id] := by
  have hresult : ∀ m, (sh.unpackResult cmd m).1.log = sh.log := by
    intro m
    unfold Shared.unpackResult
    split <;> rfl
  unfold Shared.unpack
  cases cmd.closure with
  | simpleCall => exact .inl (hresult m)
  | generic =>
    cases m with
    | ack | resStk => exact .inl rfl
    | _ => exact .inl (hresult _)
  | sendBuff prev => cases m <;> exact peekPrev_log sh t prev
  | recvBuff prev =>
    dsimp only
    split
    · exact peekPrev_log sh t prev
    · exact .inl rfl
  | callVH | synchronizeFunc | emptyTransfer | finaliser => exact .inl rfl

/-- A pass answers no call. -/
theorem PassEffect.quiet_event {x : Bool} {t : Tid n} {p : PassPc} {sh sh' : Shared n} {out : PassOut}
    (h : PassEffect x t sh p sh' out) {e : Event n} (he : e ∈ sh'.log) (hq : e.isQuiet = true) : e ∈ sh.log := by
  have happend : ∀ {e' : Event n}, e'.isQuiet = false → e ∈ sh.log ++ [e'] → e ∈ sh.log := by
    intro e' hne hmem
    refine (mem_append_singleton hmem).resolve_right ?_
    rintro rfl
    rw [hne] at hq
    cases hq
  cases h with
  | quiet _ _ _ _ hlog => rwa [hlog] at he
  | @unpack cmd _ m _ _ _ _ hunpack =>
    have hlog := unpack_log sh t cmd m
    rw [hunpack] at hlog
    rcases hlog with hlog | ⟨id, hlog⟩
    · rwa [hlog] at he
    · rw [hlog] at he
      exact happend rfl he
  | throws | popInFlight | complete | popRequest | defer | pushInFlight | pushRequestFront => exact he
  | cancelInflight | discard | cancelRequest | startVH | submit | reject => exact happend rfl he

/-- Only the return of `synchronize` is recorded as one. -/
theorem exec_syncReturn {t u : Tid n} {exited : Bool} {sh sh' : Shared n} {r : Regs} {rest : List Instr} {i : Instr} {env : Env}
    {a : Api} {id : ReqId} {k : Nat} (h : exec t exited sh r rest i env = some (sh', a)) (he : .syncReturn u id k ∈ sh'.log) :
    .syncReturn u id k ∈ sh.log ∨ i = .syncReturn ∧ id = r.req ∧ k = r.mark := by
  have happend : ∀ {log : List (Event n)} {e : Event n}, .syncReturn u id k ∈ log ++ [e] → (e = .syncReturn u id k → False) →
      .syncReturn u id k ∈ log := fun hmem hne => (mem_append_singleton hmem).resolve_right fun heq => hne heq.symm
  have hpeek : ∀ {x}, .syncReturn u id k ∈ (sh.peekResult t x).1.log → .syncReturn u id k ∈ sh.log := by
    intro x hmem
    rcases peekResult_log sh t x with hlog | hlog <;> rw [hlog] at hmem
    · exact hmem
    · exact happend hmem (fun h => by cases h)
  cases i with
  | syncReturn =>
    cases env <;> cases h
    refine (mem_append_singleton he).imp_right fun heq => ?_
    cases heq
    exact ⟨rfl, rfl, rfl⟩
  | peekResult x =>
    cases env <;> cases h
    exact .inl (hpeek (happend he (fun h => by cases h)))
  | finPeek sub x =>
    cases env <;> cases h
    exact .inl (hpeek he)
  | waitPeek x =>
    cases env <;> simp only [exec] at h <;> (try split at h) <;> cases h
    · exact .inl (hpeek he)
    · exact .inl (hpeek (happend he (fun h => by cases h)))
  | waitErase | waitCheck =>
    cases env <;> simp only [exec] at h <;> (try split at h) <;> cases h <;>
      first | exact .inl he | exact .inl (happend he (fun h => by cases h))
  | setNowait | pushRequest | waitCompletion =>
    cases env with
    | tau =>
      obtain ⟨c, -, heq⟩ := Option.map_eq_some_iff.mp h
      cases heq
      exact .inl (happend he (fun h => by cases h))
    | _ => cases h
  | lockSubmit | unlockSubmit | reqBlockBegin | reqBlockEnd =>
    cases env with
    | tau =>
      obtain ⟨c, -, heq⟩ := Option.map_eq_some_iff.mp h
      cases heq
      exact .inl he
    | _ => cases h
  | remInsert | notifyAll | clearPrev | save | waitNotify | terminate | setExit | unlockCtx =>
    cases env <;> cases h
    exact .inl he
  | isAlive | issue | progress | join | syncWait | lockCtx | progressTry | peekTry | waitTry | newpeerSend | newpeerWait =>
    cases env <;> simp only [exec] at h <;> (try split at h) <;> cases h <;> exact .inl he

/-- Users retrieve only what calls returned, and `cancelAll` finds the command of a `synchronize` with nothing in flight. -/
def publicCalm : Machine.Cond (State n) (Label n) := fun s l s' => publicCalls s l s' ∧ calmCancel s l s'

/-- A `synchronize` whose command was accepted returns when everything pushed before the call is completed. -/
theorem completed_at_syncReturn {s : State n} (hr : (context n).Reachable publicCalm s) {t : Tid n} {rest : List Instr}
    (hphase : (s.api t).phase = .run) (hcode : (s.api t).code = .syncReturn :: rest) (hreq : (s.api t).regs.req ≠ requestIdInvalid) :
    ∀ x ∈ (pushedIds s.sh.log).take (s.api t).regs.mark, s.sh.Completed x := by
  intro x hx
  have hpub : (context n).Reachable publicCalls s := hr.mono fun _ _ _ h => h.1
  have hT := Tracked.of_reachable hr
  have hids := (Captures.of_reachable hpub).thread t
  have hlt := hids.mark.2 x hx
  have hdone : s.sh.Completed (s.api t).regs.req := by
    rcases (Syncing.of_reachable hpub t).returns rest (by rw [hphase]; rfl) hcode with hinv | hzero | hdone
    · exact absurd hinv hreq
    · rw [hzero] at hlt
      exact absurd hlt (Nat.not_lt_zero x)
    · exact hdone
  have hstarted := hT.started_iff.mpr (.inr (.inr hdone))
  have hbuilt := (hids.about .syncReturn (hcode ▸ List.mem_cons_self) _ rfl).resolve_left hreq
  refine completed_before_sync (hr.mono fun _ _ _ h => h.2) hbuilt hstarted ?_
  exact Pipeline.precedes_of_mem_take hx (hT.pushed_of_started hstarted) fun hmem => Nat.lt_irrefl _ (hids.mark.2 _ hmem)

theorem completed_of_syncReturn {s : State n} (hr : (context n).Reachable publicCalm s) {t : Tid n} {id : ReqId} {mark : Nat}
    (h : .syncReturn t id mark ∈ s.sh.log) :
    mark ≤ (pushedIds s.sh.log).length ∧ (id ≠ requestIdInvalid → ∀ x ∈ (pushedIds s.sh.log).take mark, s.sh.Completed x) := by
  revert t id mark
  refine hr.invariant (I := fun s => ∀ {t id mark}, .syncReturn t id mark ∈ s.sh.log → mark ≤ (pushedIds s.sh.log).length ∧
    (id ≠ requestIdInvalid → ∀ x ∈ (pushedIds s.sh.log).take mark, s.sh.Completed x)) ?_ ?_
  · intro s₀ h0 t id mark h
    rw [h0] at h
    cases h
  · intro s l s' hr hstep _ ih t id mark h
    have hT := Tracked.of_reachable hr
    have hgrows := grows hT.basic hstep
    suffices hold : mark ≤ (pushedIds s.sh.log).length ∧
        (id ≠ requestIdInvalid → ∀ x ∈ (pushedIds s.sh.log).take mark, s.sh.Completed x) by
      refine ⟨hold.1.trans hgrows.pushed.length_le, fun hid x hx => ?_⟩
      rw [hgrows.take_pushed hold.1] at hx
      exact (moves_step hT hstep).completed (hold.2 hid x hx)
    cases cursorStep hT.basic hstep with
    | pass hp hpass hsh =>
      rw [hsh] at h
      exact ih ((passStep_effect hpass).quiet_event h rfl)
    | vhReturn hmain hcmd hsh =>
      rw [hsh] at h
      exact ih ((mem_append_singleton h).resolve_right nofun)
    | quiet hq hcur hvh hsh =>
      rw [hsh] at h
      exact ih h
    | @exec u exited env i rest a hcode heff hapi hcur hvh hexec hphase =>
      rcases exec_syncReturn hexec h with hold | ⟨rfl, rfl, rfl⟩
      · exact ih hold
      · have hpub : (context n).Reachable publicCalls s := hr.mono fun _ _ _ h => h.1
        exact ⟨((Captures.of_reachable hpub).thread u).mark.1, completed_at_syncReturn hr hphase hcode⟩

/-- VE commands are submitted in the order of the pushes, and when a VH function was started whatever was pushed before its
command is completed. If users retrieve only what calls returned and replies come in the order of submission, the finaliser
never sees a sub-request UNFINISHED. If `cancelAll` takes the command of a `synchronize` only with nothing in flight,
whatever was pushed before a call of `synchronize` is completed when the call returns. -/
theorem submission_order_and_barrier {s : State n} :
    ((context n).Reachable Machine.anyStep s →
      ((submissions s.sh.log).map Prod.fst).Sublist (pushedIds s.sh.log) ∧
        ∀ id x, .vhStart id ∈ s.sh.log → Pipeline.Precedes (pushedIds s.sh.log) x id → s.sh.Completed x) ∧
    ((context n).Reachable publicInOrder s →
      ∀ t sub id rest, (s.api t).code = .finPeek sub id :: rest → (s.sh.peekResult t id).2.1 ≠ .unfinished) ∧
    ((context n).Reachable publicCalm s →
      ∀ t id mark, .syncReturn t id mark ∈ s.sh.log → id ≠ requestIdInvalid →
        ∀ x ∈ (pushedIds s.sh.log).take mark, s.sh.Completed x) := by
  refine ⟨fun hr => ⟨(Tracked.of_reachable hr).submissions_sublist, fun id x hid hx => completed_before_vhStart hr hid hx⟩,
    fun hr t sub id rest hcode => finPeek_finished hr (hcode ▸ List.mem_cons_self), fun hr t id mark h => ?_⟩
  exact (completed_of_syncReturn hr h).2

/-- A call, a `synchronize` behind it, the reply to the call, and the end of the `synchronize`. -/
def syncTrace : List (Label 1) :=
  List.flatten [[.call (some 0) .callAsync], List.replicate 11 (.api (some 0) .tau),
    [.api (some 0) (.sent 0), .api (some 0) .tau, .api (some 0) .noSlot, .api (some 0) .tau, .api (some 0) .tau],
    List.replicate 3 (.main .tau), [.call (some 0) .synchronize], List.replicate 11 (.api (some 0) .tau),
    [.main (.reply 0 (.result 5))], List.replicate 6 (.main .tau), [.main (.vhReturn 0), .main .tau],
    List.replicate 3 (.api (some 0) .tau)]

/-- A large call whose finaliser is about to look for its sub-requests. -/
def finaliserTrace : List (Label 1) :=
  List.flatten [[.main .tau, .main .spurious, .main .tau, .call (some 0) (.largeCallAsync true false 1 0)],
    List.replicate 31 (.api (some 0) .tau), List.replicate 3 (.main .tau), [.main (.sent 0)], List.replicate 3 (.main .tau),
    [.main (.sent 1), .main .tau, .main (.reply 0 .ack)], List.replicate 3 (.main .tau), [.main (.reply 1 (.result 7))],
    List.replicate 6 (.main .tau)]

theorem submission_order_and_barrier_run :
    (∃ s : State 1, (context 1).Reachable publicCalm s ∧ .vhStart 1 ∈ s.sh.log ∧ .syncReturn (some 0) 1 1 ∈ s.sh.log ∧
      Pipeline.Precedes (pushedIds s.sh.log) 0 1 ∧
      ((submissions s.sh.log).map Prod.fst).Sublist (pushedIds s.sh.log) ∧ s.sh.Completed 0) ∧
    ∃ (s : State 1) (rest : List Instr), (context 1).Reachable publicInOrder s ∧
      (s.api none).code = .finPeek .write 0 :: rest ∧ (s.sh.peekResult none 0).2.1 ≠ .unfinished := by
  constructor
  · have hrun := Machine.exists_reachable_of_runCond (M := context 1) (s := State.new 1) (C := publicCalm)
      (c := fun s l s' => publicInOrderCheck s l s' && calmCancelCheck s s')
      (fun s l s' h => ⟨(publicInOrder_of_check s l s' (Bool.and_eq_true_iff.mp h).1).1,
        calmCancel_of_check s l s' (Bool.and_eq_true_iff.mp h).2⟩) syncTrace
      (fun s => pushedIds s.sh.log = [0, 1] ∧ .vhStart 1 ∈ s.sh.log ∧ .syncReturn (some 0) 1 1 ∈ s.sh.log) rfl (by decide +kernel)
    obtain ⟨s, hr, hp⟩ := hrun
    obtain ⟨hpushed, hstart, hreturn⟩ := of_decide_eq_true hp
    obtain ⟨hany, -, hsync⟩ := submission_order_and_barrier (s := s)
    have hprec : Pipeline.Precedes (pushedIds s.sh.log) 0 1 := by
      rw [hpushed]
      exact ⟨[0], [], rfl, List.mem_cons_self⟩
    refine ⟨s, hr, hstart, hreturn, hprec, (hany hr.any).1, hsync hr _ _ _ hreturn (by decide) 0 ?_⟩
    rw [hpushed]
    exact List.mem_cons_self
  · have hrun := Machine.exists_reachable_of_runCond (M := context 1) (s := State.new 1) (C := publicInOrder)
      publicInOrder_of_check finaliserTrace (fun s => (s.api none).code.head? = some (.finPeek .write 0)) rfl (by decide +kernel)
    obtain ⟨s, hr, hp⟩ := hrun
    obtain ⟨rest, hcode⟩ := List.head?_eq_some_iff.mp (of_decide_eq_true hp)
    exact ⟨s, rest, hr, hcode, submission_order_and_barrier.2.1 hr none .write 0 rest hcode⟩

/-- A call is in flight and a pass finds the queue empty. A `synchronize` is pushed, the pass finds the VE process
terminated and cancels the command of the `synchronize` first, and its thread returns. -/
def earlyReturnTrace : List (Label 2) :=
  List.flatten [[.call (some 0) .callAsync], List.replicate 11 (.api (some 0) .tau),
    [.api (some 0) (.sent 0), .api (some 0) .tau, .api (some 0) .noSlot, .api (some 0) .tau, .api (some 0) .tau],
    List.replicate 5 (.main .tau), [.call (some 1) .synchronize], List.replicate 11 (.api (some 1) .tau), [.main .dead],
    List.replicate 3 (.main .tau), List.replicate 3 (.api (some 1) .tau)]

/-- A `synchronize` returns although its command was accepted and a request pushed before the call is in flight. -/
theorem synchronize_returns_early :
    ∃ s : State 2, (context 2).Reachable publicInOrder s ∧ .syncReturn (some 1) 1 1 ∈ s.sh.log ∧ 1 ≠ requestIdInvalid ∧
      0 ∈ (pushedIds s.sh.log).take 1 ∧ 0 ∈ s.sh.comq.inflightIds ∧ ¬ s.sh.Completed 0 := by
  have hrun := Machine.exists_reachable_of_runCond (M := context 2) (s := State.new 2) (C := publicInOrder)
    publicInOrder_of_check earlyReturnTrace (fun s => .syncReturn (some 1) 1 1 ∈ s.sh.log ∧ 1 ≠ requestIdInvalid ∧
      0 ∈ (pushedIds s.sh.log).take 1 ∧ 0 ∈ s.sh.comq.inflightIds ∧ ¬ s.sh.Completed 0) rfl (by decide +kernel)
  obtain ⟨s, hr, hp⟩ := hrun
  exact ⟨s, hr, of_decide_eq_true hp⟩

end Aveo

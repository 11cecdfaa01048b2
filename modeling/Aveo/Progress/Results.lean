import Aveo.Progress.Arrival
import Aveo.Progress.Listed

/-!
# Where results come from

A command gets its result from its result function, from its VH function, from a submit function that failed or from
`cancelAll`, and keeps it until the result is retrieved. When replies come in the order of submission and users retrieve
only what a call returned, no fragment and no sub-request has the status UNFINISHED as its result.
-/

namespace Aveo

open Lib

variable {n : Nat}

/-- A command has its result and waits for its retrieval: it is in the completion map or on the way to it. -/
def State.Result (s : State n) (id : ReqId) (c : Command) : Prop :=
  (id, c) ∈ s.sh.comq.completion.entries ∨ ∃ p, s.cursor = some p ∧ p.result = some c ∧ c.msgid = id

/-- How a command gets its result. -/
inductive NewResult (s s' : State n) (c : Command) : Prop
  | unpacked {t : Tid n} {cmd : Command} {m : Reply} {sh : Shared n} {failed : Bool} (hp : s.cursor = some (.unpack cmd m))
      (h : s.sh.unpack t cmd m = (sh, c, failed)) (hp' : s'.cursor = some (.received c failed)) (hcmd : SameCommand cmd c)
  | executed {cmd : Command} {val : Word} (hmain : s.main = .vh cmd) (hidle : (s.api none).code = [])
      (hc : c = vhResult cmd (s.api none).regs val) (hlog : s'.sh.log = s.sh.log ++ [.vhReturn cmd.msgid])
  | failed (hstatus : c.status = .error)

theorem PassPc.hand_of_result {p : PassPc} {c : Command} (h : p.result = some c) : ∃ cmd, p.hand = some cmd ∧ SameCommand cmd c := by
  cases p with
  | received | rejected | executed => cases h; exact ⟨_, rfl, .refl _⟩
  | cancelledRequest | cancelledInflight => cases h; exact ⟨_, rfl, rfl, rfl, rfl⟩
  | _ => cases h

theorem PassOut.result_of_hand {out : PassOut} (h : out.hand = none) {p : PassPc} (hp : out.passPc = some p) : p.result = none := by
  cases out with
  | next q =>
    cases hp
    cases p <;> first | rfl | cases h
  | ret | startVH | throws => cases hp

theorem Peeked.entries {t : Tid n} {sh sh' : Shared n} (h : Peeked t sh sh') {e : ReqId × Command}
    (he : e ∈ sh'.comq.completion.entries) : e ∈ sh.comq.completion.entries := by
  cases h with
  | quiet h => rwa [h.completion] at he
  | take _ h =>
    rw [h.completion] at he
    exact (BlockingMap.mem_entries_erase.mp he).1

theorem ExecEffect.entries {t : Tid n} {sh sh' : Shared n} {r : Regs} {i : Instr} {a : Api} (h : ExecEffect t sh r i sh' a)
    {e : ReqId × Command} (he : e ∈ sh'.comq.completion.entries) : e ∈ sh.comq.completion.entries := by
  cases h with
  | quiet h | issue _ h | nowait _ h => rwa [h.completion] at he
  | push | lock => exact he
  | take _ h =>
    rw [h.completion] at he
    exact (BlockingMap.mem_entries_erase.mp he).1

theorem PassEffect.entries {x : Bool} {t : Tid n} {p : PassPc} {sh sh' : Shared n} {out : PassOut} (h : PassEffect x t sh p sh' out)
    {id : ReqId} {c : Command} (he : (id, c) ∈ sh'.comq.completion.entries) :
    (id, c) ∈ sh.comq.completion.entries ∨ p.result = some c ∧ c.msgid = id := by
  cases h with
  | quiet _ _ _ hq => exact .inl (hq.completion ▸ he)
  | unpack hpeek => exact .inl (hpeek.entries he)
  | @complete _ _ cmd cmd' _ _ _ hres =>
    by_cases hkey : cmd'.msgid ∈ sh.comq.completion.keys
    · rw [CommQueue.pushCompletion, BlockingMap.insert_of_mem hkey] at he
      exact .inl he
    · rw [CommQueue.pushCompletion, BlockingMap.insert_entries hkey] at he
      rcases List.mem_cons.mp he with heq | he
      · cases heq
        exact .inr ⟨hres, rfl⟩
      · exact .inl he
  | throws | popInFlight | cancelInflight | discard | popRequest | cancelRequest | startVH | submit | reject | defer
  | pushInFlight | pushRequestFront => exact .inl he

/-- The completion map gets its entries from the hand of a pass. -/
theorem entry_step {s s' : State n} {l : Label n} (hB : Basic s) (hstep : s.step l = some s') {id : ReqId} {c : Command}
    (h : (id, c) ∈ s'.sh.comq.completion.entries) : s.Result id c := by
  cases cursorStep hB hstep with
  | @pass x t p env sh out b hp hpass hsh =>
    rw [hsh] at h
    exact ((passStep_effect hpass).entries h).imp_right fun hres => ⟨p, hp, hres⟩
  | vhReturn _ _ hsh =>
    rw [hsh] at h
    exact .inl h
  | exec _ heff => exact .inl (heff.entries h)
  | quiet hq =>
    rw [hq.completion] at h
    exact .inl h

theorem result_step {s s' : State n} {l : Label n} (hB : Basic s) (hstep : s.step l = some s') {id : ReqId} {c : Command}
    (h : s'.Result id c) : s.Result id c ∨ NewResult s s' c ∧ c.msgid = id := by
  obtain hentry | ⟨p', hp', hres, hid⟩ := h
  · exact .inl (entry_step hB hstep hentry)
  have hkept : s'.cursor = s.cursor → s.Result id c := fun hcur => .inr ⟨p', hcur ▸ hp', hres, hid⟩
  have hpoll : s'.cursor ≠ some .poll := fun hcur => by
    rw [hcur] at hp'
    cases hp'
    cases hres
  cases cursorStep hB hstep with
  | @pass x t p env sh out b hp hpass hsh hcur =>
    rcases hcur with hcur | ⟨-, hcur⟩
    swap
    · exact .inl (hkept hcur)
    have hnone : out.hand = none → False := fun hhand => by
      rw [PassOut.result_of_hand hhand (hcur ▸ hp')] at hres
      cases hres
    cases passStep_effect hpass with
    | quiet _ hout => exact (hnone hout).elim
    | complete _ hhand | discard _ hhand => exact (hnone hhand).elim
    | throws | pushInFlight => exact (hnone rfl).elim
    | pushRequestFront hout => rcases hout with rfl | rfl <;> exact (hnone rfl).elim
    | popInFlight | popRequest | submit | defer =>
      rw [hcur] at hp'
      cases hp'
      cases hres
    | startVH =>
      rw [hcur] at hp'
      cases hp'
    | cancelInflight | cancelRequest =>
      rw [hcur] at hp'
      cases hp'
      cases hres
      exact .inr ⟨.failed rfl, hid⟩
    | reject _ _ hstatus =>
      rw [hcur] at hp'
      cases hp'
      cases hres
      exact .inr ⟨.failed hstatus, hid⟩
    | unpack _ hcmd hunpack =>
      rw [hcur] at hp'
      cases hp'
      cases hres
      exact .inr ⟨.unpacked hp hunpack hcur hcmd, hid⟩
  | @vhReturn cmd cmd' hmain hcmd hsh hcur hcur' _ hidle hvh =>
    rw [hcur'] at hp'
    cases hp'
    cases hres
    obtain ⟨val, hval⟩ := hvh
    exact .inr ⟨.executed hmain hidle hval (by rw [hsh]; rfl), hid⟩
  | exec _ _ _ hcur | quiet _ hcur => exact hcur.elim (fun hcur => .inl (hkept hcur)) fun hcur => absurd hcur.2 hpoll

/-! ### The commands at hand -/

theorem Tracked.mem_pushed_of_hand {s : State n} (h : Tracked s) {cmd : Command}
    (hcmd : (∃ t, (s.api t).phase.hand = some cmd) ∨ s.main.hand = some cmd) : cmd.msgid ∈ pushedIds s.sh.log := by
  rw [← Multiset.mem_coe, h.pushed_eq]
  exact Multiset.mem_add.mpr (.inl (Tracked.mem_hands hcmd))

theorem Tracked.mem_pushed_of_cursor {s : State n} (h : Tracked s) {p : PassPc} {cmd : Command} (hp : s.cursor = some p)
    (hcmd : p.hand = some cmd) : cmd.msgid ∈ pushedIds s.sh.log := by
  refine h.mem_pushed_of_hand ((State.hand_of_cursor hp hcmd).imp_right fun hmain => ?_)
  rw [hmain]
  exact hcmd

/-- A command keeps the closures that it was pushed with. -/
theorem built_of_live {C : Machine.Cond (State n) (Label n)} {s : State n} (hr : (context n).Reachable C s) {cmd : Command}
    (hl : s.Live cmd) (hpush : cmd.msgid ∈ pushedIds s.sh.log) : s.Built cmd.msgid cmd.closure := by
  obtain ⟨f, hf⟩ := Kinds.of_reachable hr
  obtain ⟨t, h, c, he⟩ := mem_pushedIds.mp hpush
  rw [← hf.live cmd hl, hf.push t h _ c he]
  exact .inr ⟨t, h, he⟩

theorem built_of_cursor {C : Machine.Cond (State n) (Label n)} {s : State n} (hr : (context n).Reachable C s) {p : PassPc}
    {cmd : Command} (hp : s.cursor = some p) (hcmd : p.hand = some cmd) : s.Built cmd.msgid cmd.closure :=
  built_of_live hr (State.live_of_cursor hp hcmd) ((Tracked.of_reachable hr).mem_pushed_of_cursor hp hcmd)

theorem push_of_built {C : Machine.Cond (State n) (Label n)} {s : State n} (hr : (context n).Reachable C s) {id : ReqId} {c : Closure}
    (hb : s.Built id c) (hid : id ∈ pushedIds s.sh.log) : ∃ t h, .push t h id c ∈ s.sh.log := by
  obtain ⟨t, h, c', he⟩ := mem_pushedIds.mp hid
  obtain rfl := State.Built.unique hr (.inr ⟨t, h, he⟩) hb
  exact ⟨t, h, he⟩

/-- A pass starts a VH function only if it may execute one. -/
theorem PassEffect.vhCmd {x : Bool} {t : Tid n} {p : PassPc} {sh sh' : Shared n} {out : PassOut} (h : PassEffect x t sh p sh' out) :
    out.vhCmd = none ∨ ∃ cmd, out.vhCmd = some cmd ∧ x = true ∧ .vhStart cmd.msgid ∈ sh'.log := by
  cases h with
  | @startVH cmd _ _ hexec => exact .inr ⟨cmd, rfl, hexec, List.mem_append_right _ (List.mem_singleton_self _)⟩
  | quiet _ hhand =>
    cases out with
    | startVH => cases hhand
    | next | ret | throws => exact .inl rfl
  | pushRequestFront hret => rcases hret with rfl | rfl <;> exact .inl rfl
  | _ => exact .inl rfl

/-- The VH function that runs was started. -/
theorem vhStart_of_vh {C : Machine.Cond (State n) (Label n)} {s : State n} (hr : (context n).Reachable C s) {cmd : Command}
    (hcmd : s.main.vhCmd = some cmd) : .vhStart cmd.msgid ∈ s.sh.log := by
  revert cmd
  refine hr.invariant (I := fun s => ∀ {cmd}, s.main.vhCmd = some cmd → .vhStart cmd.msgid ∈ s.sh.log) ?_ ?_
  · intro s₀ h0 cmd hcmd
    rw [h0] at hcmd
    cases hcmd
  · intro s l s' hr hstep _ ih cmd hcmd
    have hcs := cursorStep (Basic.of_reachable hr) hstep
    have hold : s.main.vhCmd = some cmd → .vhStart cmd.msgid ∈ s'.sh.log := fun h => hcs.mem_log (ih h)
    cases hcs with
    | @pass x t p env sh out b hp hpass hsh hcur hvh =>
      rw [hvh] at hcmd
      rcases (passStep_effect hpass).vhCmd with hnone | ⟨cmd', hsome, -, hstart⟩
      · rw [hnone] at hcmd
        exact hold hcmd
      · rw [hsome] at hcmd
        cases hcmd
        rw [hsh]
        exact hstart
    | vhReturn hmain _ _ _ _ hvh =>
      rw [hvh] at hcmd
      cases hcmd
    | exec _ _ _ _ hvh | quiet _ _ hvh => exact hold (hvh ▸ hcmd)

theorem built_of_vh {C : Machine.Cond (State n) (Label n)} {s : State n} (hr : (context n).Reachable C s) {cmd : Command}
    (hcmd : s.main.vhCmd = some cmd) : s.Built cmd.msgid cmd.closure ∧ cmd.closure.isVH = true := by
  have hT := Tracked.of_reachable hr
  have hmain : s.main.hand = some cmd := by
    rw [Tracked.main_of_vhCmd hcmd]
    rfl
  have hl : s.Live cmd := .inr (.inl hmain)
  obtain ⟨f, hf⟩ := Kinds.of_reachable hr
  refine ⟨built_of_live hr hl (hT.mem_pushed_of_hand (.inr hmain)), ?_⟩
  rw [← hf.live cmd hl]
  exact hf.vhStart _ (vhStart_of_vh hr hcmd)

theorem State.Result.lt {s : State n} (hT : Tracked s) {id : ReqId} {c : Command} (h : s.Result id c) : id < s.sh.seqNo := by
  rcases h with hentry | ⟨p, hp, hres, rfl⟩
  · exact hT.lt_of_completed (completed_of_entry hentry)
  · obtain ⟨cmd, hcmd, hsame⟩ := PassPc.hand_of_result hres
    rw [hsame.msgid]
    exact hT.lt_of_pushed (hT.mem_pushed_of_cursor hp hcmd)

/-! ### Fragments and sub-requests -/

/-- The reply to a fragment is a good one. The result function of `sendBuffAsync` takes every message for an ACK that is not
an EXCEPTION. -/
def Closure.accepts : Closure → Reply → Bool
  | .sendBuff _, .exception _ => false
  | .sendBuff _, _ => true
  | .recvBuff _, m => m = .sendbuff true
  | _, _ => false

theorem Closure.exists_prev {c : Closure} (h : c.isBuff = true) :
    ∃ prev, (c = .sendBuff prev ∨ c = .recvBuff prev) ∧ c.captured = [prev].filter (· ≠ requestIdInvalid) := by
  cases c with
  | sendBuff prev => exact ⟨prev, .inl rfl, rfl⟩
  | recvBuff prev => exact ⟨prev, .inr rfl, rfl⟩
  | _ => cases h

theorem Closure.isVH_of_isBuff {c : Closure} (h : c.isBuff = true) : c.isVH = false := by
  cases c <;> first | rfl | cases h

/-- The result function of a fragment hands on the status of the fragment before it if the reply is good. -/
theorem unpack_status (sh : Shared n) (t : Tid n) {cmd : Command} (m : Reply) {prev : ReqId}
    (hc : cmd.closure = .sendBuff prev ∨ cmd.closure = .recvBuff prev) :
    (sh.unpack t cmd m).2.1.status = if cmd.closure.accepts m then (sh.peekPrev t prev).2.1 else .exception := by
  unfold Shared.unpack
  rcases hc with hc | hc
  · rw [hc]
    cases m <;> rfl
  · rw [hc]
    by_cases hm : m = .sendbuff true
    · simp [hm, Closure.accepts]
    · simp [hm, Closure.accepts]

/-- Users retrieve only what calls returned, and replies come in the order of submission. -/
def publicInOrder : Machine.Cond (State n) (Label n) := fun s l s' => publicCalls s l s' ∧ inOrder s l s'

/-- A check of the condition on one step. -/
def publicInOrderCheck (s : State n) (l : Label n) (s' : State n) : Bool :=
  (match l with
    | .call _ c => c.isPublic s.sh
    | _ => true) &&
  match s.cursor, s'.cursor with
  | some .poll, some (.reply req _) => s.sh.pending.head? = some req
  | _, _ => true

theorem publicInOrder_of_check (s : State n) (l : Label n) (s' : State n) (h : publicInOrderCheck s l s' = true) :
    publicInOrder s l s' := by
  obtain ⟨hpublic, horder⟩ := Bool.and_eq_true_iff.mp h
  refine ⟨?_, fun req m hp hp' => ?_⟩
  · rintro t c rfl
    exact hpublic
  · rw [hp, hp'] at horder
    exact of_decide_eq_true horder

section

variable {s : State n}

theorem publicInOrder_public (hr : (context n).Reachable publicInOrder s) : (context n).Reachable publicCalls s :=
  hr.mono fun _ _ _ h => h.1

theorem publicInOrder_inOrder (hr : (context n).Reachable publicInOrder s) : (context n).Reachable inOrder s :=
  hr.mono fun _ _ _ h => h.2

/-- Only the commands that went to the VE are answered. -/
theorem isVH_of_unpack (hr : (context n).Reachable publicInOrder s) {cmd : Command} {m : Reply}
    (hp : s.cursor = some (.unpack cmd m)) : cmd.closure.isVH = false := by
  obtain ⟨⟨req, hsub⟩, -⟩ := (Arrival.of_reachable (publicInOrder_inOrder hr)).unpack cmd m hp
  obtain ⟨f, hf⟩ := Kinds.of_reachable hr
  rw [← hf.live cmd (State.live_of_cursor hp rfl)]
  exact hf.submit _ req (mem_submissions.mp hsub)

/-- When the result function of a fragment runs, the fragment before it is completed. -/
theorem completed_of_captured (hr : (context n).Reachable publicInOrder s) {cmd : Command} {m : Reply}
    (hp : s.cursor = some (.unpack cmd m)) (hbuff : cmd.closure.isBuff = true) {a : ReqId} (ha : a ∈ cmd.closure.captured) :
    s.sh.Completed a := by
  have hcap := Captures.of_reachable (publicInOrder_public hr)
  have hbuilt := built_of_cursor hr hp rfl
  obtain ⟨t, h, he⟩ := push_of_built hr hbuilt ((Tracked.of_reachable hr).mem_pushed_of_cursor hp rfl)
  refine (completed_of_unpack (publicInOrder_inOrder hr) hp (hcap.push t h _ _ he a ha)).resolve_right ?_
  -- The fragment before it is no VH command.
  rintro ⟨v, hv, rfl⟩
  obtain ⟨hvbuilt, hvh⟩ := built_of_vh hr hv
  obtain ⟨c', hbuff', hbuilt'⟩ := hcap.buff _ _ hbuilt hbuff _ ha
  rw [State.Built.unique hr hvbuilt hbuilt', Closure.isVH_of_isBuff hbuff'] at hvh
  cases hvh

/-- `_peekResult` on a completed request that no call returns finds its result or nothing. -/
theorem peekResult_of_internal (hr : (context n).Reachable publicCalls s) (t : Tid n) {id : ReqId} (hid : id ∈ s.sh.internal)
    (hdone : s.sh.Completed id) (hfin : ∀ c, s.Result id c → c.status ≠ .unfinished) :
    (s.sh.peekResult t id).2.1 ≠ .unfinished := by
  have hpeek := peek_cases s.sh t id
  generalize s.sh.peekResult t id = r at hpeek ⊢
  cases hpeek with
  | delivered _ hentry => exact hfin _ (.inl hentry)
  | unfinished hin hnone => exact absurd (completion_of_internal hr hid hdone hin) hnone
  | unknown => exact nofun

/-- The result of a fragment or a sub-request is never UNFINISHED. -/
theorem finished_of_internal (hr : (context n).Reachable publicInOrder s) {id : ReqId} (hid : id ∈ s.sh.internal) {c : Command}
    (h : s.Result id c) : c.status ≠ .unfinished := by
  revert id c
  refine hr.invariant (I := fun s => ∀ {id}, id ∈ s.sh.internal → ∀ {c}, s.Result id c → c.status ≠ .unfinished) ?_ ?_
  · intro s₀ h0 id hid
    rw [h0] at hid
    cases hid
  · intro s l s' hr hstep hC ih id hid' c h
    have hT := Tracked.of_reachable hr
    have hpub := publicInOrder_public hr
    have hcap := Captures.of_reachable hpub
    have hgrows := grows hT.basic hstep
    rcases result_step hT.basic hstep h with hold | ⟨hnew, rfl⟩
    · exact ih (hgrows.internal_of_lt hid' (hold.lt hT)) hold
    have hsub : ∀ cmd, SameCommand cmd c → s.Built cmd.msgid cmd.closure → cmd.closure.isSub = true := by
      intro cmd hcmd hb
      rw [hcmd.msgid] at hid'
      exact hcap.sub _ _ hb (hgrows.internal_of_lt hid' (hb.lt hT))
    cases hnew with
    | failed hstatus =>
      rw [hstatus]
      exact nofun
    | @executed cmd val hmain hidle hc =>
      obtain ⟨hb, hvh⟩ := built_of_vh hr (show s.main.vhCmd = some cmd by rw [hmain]; rfl)
      have hisSub := hsub cmd (hc ▸ sameCommand_vhResult cmd _ val) hb
      rw [hc]
      cases hcl : cmd.closure with
      | emptyTransfer =>
        rw [vhResult, hcl]
        exact nofun
      | simpleCall | generic | sendBuff | recvBuff => rw [hcl] at hvh; cases hvh
      | callVH | synchronizeFunc | finaliser => rw [hcl] at hisSub; cases hisSub
    | @unpacked t cmd m sh failed hp hunpack hp' hcmd =>
      have hb := built_of_cursor hr hp rfl
      have hisSub := hsub cmd hcmd hb
      have hbuff : cmd.closure.isBuff = true → c.status ≠ .unfinished := by
        intro hbuff
        obtain ⟨prev, hprev, hcaptured⟩ := Closure.exists_prev hbuff
        have hstatus := unpack_status s.sh t m hprev
        rw [hunpack] at hstatus
        rw [hstatus]
        split
        · unfold Shared.peekPrev
          split
          · exact nofun
          · rename_i hne
            have ha : prev ∈ cmd.closure.captured := by simpa [hcaptured] using hne
            have hprevint := (hcap.captured _ _ hb _ ha).2
            exact peekResult_of_internal hpub t hprevint (completed_of_captured hr hp hbuff ha) fun c' hc' => ih hprevint hc'
        · exact nofun
      have hvh := isVH_of_unpack hr hp
      cases hcl : cmd.closure with
      | sendBuff | recvBuff => exact hbuff (by rw [hcl]; rfl)
      | simpleCall =>
        simp only [Shared.unpack, hcl, Shared.unpackResult] at hunpack
        split at hunpack <;> cases hunpack <;> exact nofun
      | emptyTransfer => rw [hcl] at hvh; cases hvh
      | generic | callVH | synchronizeFunc | finaliser => rw [hcl] at hisSub; cases hisSub

end

end Aveo

import Aveo.Progress.Pipeline

/-!
# VH commands and the commands behind them

Which commands run on the VH is fixed by the call that built them. `Kinds` follows this along a run, so that
the log tells VE and VH commands apart. A VE command that was pushed after a VH command is submitted after the
VH function has returned, unless the VH function itself makes a pass: `prog_mtx` is recursive and the
nested pass takes the next request from the queue.
-/

namespace Aveo

open Lib

variable {n : Nat}

theorem Conserved.lt_of_live {s : State n} (h : Conserved s) {cmd : Command} (hl : s.Live cmd) : cmd.msgid < s.sh.seqNo := by
  have hhand : ∀ {o : Option Command}, o = some cmd → cmd.msgid ∈ handIds o := by
    rintro o rfl
    exact Multiset.mem_singleton_self _
  suffices hmem : cmd.msgid ∈ s.ids by
    rw [h.ids] at hmem
    exact Multiset.mem_range.mp hmem
  simp only [State.ids, Multiset.mem_add]
  rcases hl with ⟨t, ht⟩ | hl | hl
  · refine .inl (.inl (State.mem_sum_ids (t := t) (Multiset.mem_add.mpr ?_)))
    exact ht.imp hhand hhand
  · exact .inl (.inr (hhand hl))
  · refine .inr ?_
    simp only [Shared.ids, CommQueue.ids, Multiset.mem_add, Multiset.mem_coe]
    exact .inl (.inl (.inl (hl.imp (List.mem_map_of_mem) (List.mem_map_of_mem))))

theorem Tracked.lt_of_pushed {s : State n} (h : Tracked s) {id : ReqId} (hid : id ∈ pushedIds s.sh.log) : id < s.sh.seqNo := by
  have hmem : id ∈ (pushedIds s.sh.log : Multiset ReqId) + s.heldIds := Multiset.mem_add.mpr (.inl hid)
  rw [h.ordered.held] at hmem
  exact Multiset.mem_range.mp hmem

theorem Tracked.lt_of_started {s : State n} (h : Tracked s) {id : ReqId} (hid : id ∈ startedIds s.sh.log) : id < s.sh.seqNo :=
  h.lt_of_pushed (by rw [h.ordered.pushed]; exact List.mem_append_left _ hid)

theorem exec_issue_seqNo {t : Tid n} {exited : Bool} {sh sh' : Shared n} {r : Regs} {rest : List Instr} {env : Env} {a : Api}
    {b : Build} {kept : Bool} (h : exec t exited sh r rest (.issue b kept) env = some (sh', a)) :
    sh'.seqNo ≤ requestIdInvalid := by
  cases env with
  | tau =>
    dsimp only [exec] at h
    split at h
    · rename_i hlt
      cases h
      exact hlt
    · cases h
  | _ => cases h

/-- No request is issued with the invalid ID. -/
theorem seqNo_le {C : Machine.Cond (State n) (Label n)} {s : State n} (h : (context n).Reachable C s) :
    s.sh.seqNo ≤ requestIdInvalid := by
  refine h.invariant (I := fun s => s.sh.seqNo ≤ requestIdInvalid) ?_ fun s₀ l s₁ hr hstep _ hs => ?_
  · intro s₀ h0
    rw [h0]
    exact Nat.zero_le _
  · cases cursorStep (Basic.of_reachable hr) hstep with
    | pass hp hpass hsh =>
      rw [hsh, show _ = _ from (passStep_frame hpass).seqNo]
      exact hs
    | vhReturn hmain hcmd hsh =>
      rw [hsh]
      exact hs
    | exec hcode heff hapi hcur hvh hexec =>
      generalize s₁.sh = sh₁ at heff hexec
      cases heff with
      | quiet hq | nowait _ hq | take _ hq => exact hq.seqNo.trans_le hs
      | push | lock => exact hs
      | issue hi =>
        subst hi
        exact exec_issue_seqNo hexec
    | quiet hq =>
      exact hq.seqNo.trans_le hs

/-! ### Which commands run on the VH -/

/-- The closures of the requests, as far as commands and the log show them. -/
structure Kinds (s : State n) (f : ReqId → Closure) : Prop where
  live : ∀ cmd, s.Live cmd → f cmd.msgid = cmd.closure
  push : ∀ t h id c, .push t h id c ∈ s.sh.log → f id = c
  submit : ∀ id req, .submit id req ∈ s.sh.log → (f id).isVH = false
  reject : ∀ id, .reject id ∈ s.sh.log → (f id).isVH = false
  vhStart : ∀ id, .vhStart id ∈ s.sh.log → (f id).isVH = true

namespace Kinds

variable {s s' : State n} {f : ReqId → Closure}

theorem init : Kinds (State.new n) fun _ => .callVH :=
  ⟨fun cmd hl => absurd hl (State.not_live_new cmd), nofun, nofun, nofun, nofun⟩

/-- Only the requests that were issued matter. -/
theorem congr (hT : Tracked s) (h : Kinds s f) {g : ReqId → Closure} (hfg : ∀ id, id < s.sh.seqNo → g id = f id) : Kinds s g := by
  have hstart : ∀ {id}, id ∈ startedIds s.sh.log → g id = f id := fun hid => hfg _ (hT.lt_of_started hid)
  refine ⟨fun cmd hl => ?_, fun t k id c hmem => ?_, fun id req hmem => ?_, fun id hmem => ?_, fun id hmem => ?_⟩
  · rw [hfg _ (hT.conserved.lt_of_live hl)]
    exact h.live cmd hl
  · rw [hfg _ (hT.lt_of_pushed (mem_pushedIds.mpr ⟨t, k, c, hmem⟩))]
    exact h.push t k id c hmem
  · rw [hstart (mem_startedIds.mpr (.inl ⟨req, hmem⟩))]
    exact h.submit id req hmem
  · rw [hstart (mem_startedIds.mpr (.inr (.inl hmem)))]
    exact h.reject id hmem
  · rw [hstart (mem_startedIds.mpr (.inr (.inr (.inl hmem))))]
    exact h.vhStart id hmem

/-- A step that builds no command. -/
theorem step_old (h : Kinds s f) (hcs : CursorStep s s')
    (hlive : ∀ cmd', s'.Live cmd' → f cmd'.msgid = cmd'.closure) : Kinds s' f := by
  have hcmd : ∀ {p cmd}, s.cursor = some p → p.hand = some cmd → f cmd.msgid = cmd.closure := fun hp hc =>
    h.live _ (State.live_of_cursor hp hc)
  refine ⟨hlive, fun t k id c hmem => ?_, fun id req hmem => ?_, fun id hmem => ?_, fun id hmem => ?_⟩
  · rcases new_event hcs hmem with hmem | hnew
    · exact h.push t k id c hmem
    · cases hnew with
      | quiet hq => cases hq
      | push hcode hcur => exact h.live _ (.inl ⟨t, .inl hcur⟩)
  · rcases new_event hcs hmem with hmem | hnew
    · exact h.submit id req hmem
    · cases hnew with
      | quiet hq => cases hq
      | submit hp hvh =>
        rw [hcmd hp rfl]
        exact hvh
  · rcases new_event hcs hmem with hmem | hnew
    · exact h.reject id hmem
    · cases hnew with
      | quiet hq => cases hq
      | reject hp hvh =>
        rw [hcmd hp rfl]
        exact hvh
  · rcases new_event hcs hmem with hmem | hnew
    · exact h.vhStart id hmem
    · cases hnew with
      | quiet hq => cases hq
      | vhStart hp hvh =>
        rw [hcmd hp rfl]
        exact hvh

/-- The closure of the command that a step builds. -/
def built (s : State n) : Label n → Option Closure
  | .api t _ =>
      match (s.api t).code with
      | .issue b _ :: _ => some (b.closure (s.api t).regs)
      | _ => none
  | _ => none

theorem step (hT : Tracked s) (h : Kinds s f) {l : Label n} (hstep : s.step l = some s') : ∃ g, Kinds s' g := by
  -- The closure of a new command is recorded under the ID that is issued.
  obtain ⟨g, hg, hnew⟩ : ∃ g, Kinds s g ∧ ∀ c, built s l = some c → g s.sh.seqNo = c := by
    cases hb : built s l with
    | none => exact ⟨f, h, nofun⟩
    | some c =>
      refine ⟨Function.update f s.sh.seqNo c, h.congr hT fun id hid => Function.update_of_ne (Nat.ne_of_lt hid) _ _, ?_⟩
      rintro c' hc
      cases hc
      exact Function.update_self _ _ _
  refine ⟨g, hg.step_old (cursorStep hT.basic hstep) fun cmd' hl => ?_⟩
  cases live_step (step_cases hstep) hl with
  | old hlive hcmd =>
    rw [hcmd.msgid, hcmd.closure]
    exact hg.live _ hlive
  | new hlabel hcode hcmd =>
    subst hcmd
    refine hnew _ ?_
    rw [hlabel, built, hcode]
    rfl
  | @flagged cmd hlive hcmd =>
    subst hcmd
    exact hg.live cmd hlive

theorem of_reachable {C : Machine.Cond (State n) (Label n)} (h : (context n).Reachable C s) : ∃ f, Kinds s f := by
  refine h.invariant (I := fun s => ∃ f, Kinds s f) ?_ fun s₀ l s₁ hr hstep _ hs => ?_
  · intro s₀ h0
    rw [h0]
    exact ⟨_, init⟩
  · obtain ⟨f, hf⟩ := hs
    exact hf.step (Tracked.of_reachable hr) hstep

end Kinds

/-- A VH function that was started has returned or runs. -/
theorem vhReturn_of_vhStart {C : Machine.Cond (State n) (Label n)} {s : State n} (h : (context n).Reachable C s) {id : ReqId}
    (hid : .vhStart id ∈ s.sh.log) : .vhReturn id ∈ s.sh.log ∨ ∃ cmd, s.main.vhCmd = some cmd ∧ cmd.msgid = id := by
  refine h.invariant (I := fun s => ∀ id, .vhStart id ∈ s.sh.log → .vhReturn id ∈ s.sh.log ∨
    ∃ cmd, s.main.vhCmd = some cmd ∧ cmd.msgid = id) ?_ (fun s l s' hr hstep _ hs id hid => ?_) id hid
  · intro s₀ h0 id hid
    rw [h0] at hid
    cases hid
  · have hcs := cursorStep (Basic.of_reachable hr) hstep
    rcases new_event hcs hid with hmem | hnew
    · rcases hs id hmem with hret | ⟨cmd, hcmd, rfl⟩
      · exact .inl (hcs.mem_log hret)
      · cases hcs with
        | @pass x t p env sh out b hp hpass hsh hcur hvh hx =>
          refine .inr ⟨cmd, ?_, rfl⟩
          cases out with
          | startVH c =>
            -- No VH function starts inside another one.
            have hexec : x = true := by
              cases passStep_effect hpass with
              | quiet _ hout => cases hout
              | startVH _ _ hexec => exact hexec
              | pushRequestFront hout => rcases hout with hout | hout <;> cases hout
            rw [hx hexec] at hcmd
            cases hcmd
          | next | ret | throws =>
            rw [hvh]
            exact hcmd
        | vhReturn hmain hsame hsh =>
          refine .inl ?_
          rw [hmain] at hcmd
          cases hcmd
          rw [hsh]
          exact List.mem_append_right _ (List.mem_singleton_self _)
        | exec _ _ _ _ hvh | quiet _ _ hvh => exact .inr ⟨cmd, hvh.trans hcmd, rfl⟩
    · cases hnew with
      | quiet hq => cases hq
      | vhStart hp hvh hmain => exact .inr ⟨_, hmain, rfl⟩

/-! ### Commands behind a VH command -/

/-- While a VH function runs, only a pass made by that function takes a request from the queue for good. -/
theorem label_of_started {s s' : State n} {l : Label n} (hB : Basic s) (hstep : s.step l = some s') {cmd : Command}
    (hmain : s.main = .vh cmd) (hne : startedIds s'.sh.log ≠ startedIds s.sh.log) : ∃ env, l = .api none env := by
  cases step_cases hstep with
  | out hout hout' hq => exact absurd hq.startedIds hne
  | execLock | execTest | execUnlock | unlock | call => exact absurd rfl hne
  | pass hm => rw [hmain] at hm; cases hm
  | vhReturn => exact absurd (startedIds_append_of_none _ rfl) hne
  | exec hphase hcode hexec => exact absurd (exec_effect hexec).order.1 hne
  | @apiPass t env p k sh sh' out a hphase hpass hout =>
    by_cases ht : t = none
    · exact ⟨env, by rw [ht]⟩
    · have hold := State.passOf_eq_none_of_main hB (by rw [hmain]; rfl) ht
      rw [State.passOf_of_busy hB (by simp [hphase]), hphase] at hold
      cases hold

/-- A VE command pushed after a VH command is submitted only after the VH function has returned, or the VH
command was cancelled, or the submission is made by a pass that the running VH function itself makes. -/
theorem submit_behind_vh {s s' : State n} {l : Label n} (hs : (context n).Reachable Machine.anyStep s)
    (hstep : s.step l = some s') {v a : ReqId} {req : Int} {t : Tid n} {h : Nat} {c : Closure}
    (hpush : .push t h v c ∈ s.sh.log) (hvh : c.isVH = true) (hbefore : Pipeline.Precedes (pushedIds s.sh.log) v a)
    (hsubmit : s'.sh.log = s.sh.log ++ [.submit a req]) :
    .vhReturn v ∈ s.sh.log ∨ .cancel v true ∈ s.sh.log ∨ ∃ env cmd, l = .api none env ∧ s.main = .vh cmd ∧ cmd.msgid = v := by
  have hT := Tracked.of_reachable hs
  obtain ⟨f, hf⟩ := Kinds.of_reachable hs
  have hkind : (f v).isVH = true := by rwa [hf.push t h v c hpush]
  have hstarted : startedIds s'.sh.log = startedIds s.sh.log ++ [a] := by rw [hsubmit, startedIds_append]; rfl
  have hv : v ∈ startedIds s.sh.log := by
    have hT' := Tracked.of_reachable (hs.step hstep trivial)
    have hnext' := hT'.ordered.pushed
    have hids : pushedIds s'.sh.log = pushedIds s.sh.log := by rw [hsubmit, pushedIds_append_of_none _ rfl]
    rw [hids, hstarted, List.append_assoc] at hnext'
    exact hbefore.mem_of_eq hT.pushed_nodup hnext'
  rcases mem_startedIds.mp hv with ⟨req', hmem⟩ | hmem | hmem | hmem
  · rw [hf.submit v req' hmem] at hkind
    cases hkind
  · rw [hf.reject v hmem] at hkind
    cases hkind
  · rcases vhReturn_of_vhStart hs hmem with hret | ⟨cmd, hcmd, hid⟩
    · exact .inl hret
    · have hmain := Tracked.main_of_vhCmd hcmd
      obtain ⟨env, hl⟩ := label_of_started hT.basic hstep hmain (by rw [hstarted]; simp)
      exact .inr (.inr ⟨env, cmd, hl, hmain, hid⟩)
  · exact .inr (.inl hmem)

/-- Thread 0 submits a VH request and, while its function runs, a VE request; then the function asks for a result
that it does not need to exist, and the nested pass takes the VE request from the queue. -/
def nestedPassTrace : List (Label 1) :=
  List.flatten [[.call (some 0) .callVHAsync], List.replicate 7 (.api (some 0) .tau), List.replicate 6 (.main .tau),
    [.call (some 0) .callAsync], List.replicate 10 (.api (some 0) .tau), [.call none (.callPeekResult 0)],
    List.replicate 3 (.api none .tau)]

theorem nestedPassTrace_run :
    ∃ s s' : State 1, (context 1).Reachable Machine.anyStep s ∧ s.step (.api none (.sent 0)) = some s' ∧
      s.sh.log = [.push (some 0) 1 0 .callVH, .vhStart 0, .push (some 0) 2 1 .simpleCall] ∧
      s'.sh.log = s.sh.log ++ [.submit 1 0] ∧ s'.main.inUserVH = true := by
  have hrun : ∃ s s' : State 1, (context 1).Reachable Machine.anyStep s ∧ (context 1).step s (.api none (.sent 0)) = some s' ∧
      (s.sh.log = [.push (some 0) 1 0 .callVH, .vhStart 0, .push (some 0) 2 1 .simpleCall] &&
        s'.sh.log = s.sh.log ++ [.submit 1 0] && s'.main.inUserVH) = true :=
    Machine.exists_step_of_run (M := context 1) (s := State.new 1) nestedPassTrace _ _ rfl (by decide +kernel)
  obtain ⟨s, s', hs, hstep, hp⟩ := hrun
  simp only [Bool.and_eq_true, decide_eq_true_eq] at hp
  exact ⟨s, s', hs, hstep, hp.1.1, hp.1.2, hp.2⟩

/-- A VE request is submitted while the VH function of a request pushed before it runs. -/
theorem submit_during_vh :
    ∃ s s' : State 1, (context 1).Reachable Machine.anyStep s ∧ s.step (.api none (.sent 0)) = some s' ∧
      .push (some 0) 1 0 .callVH ∈ s.sh.log ∧ Pipeline.Precedes (pushedIds s.sh.log) 0 1 ∧
      s'.sh.log = s.sh.log ++ [.submit 1 0] ∧ .vhReturn 0 ∉ s'.sh.log ∧ s'.main.inUserVH = true := by
  obtain ⟨s, s', hs, hstep, hlog, hsubmit, hmain⟩ := nestedPassTrace_run
  have hpushed : pushedIds s.sh.log = [0] ++ 1 :: [] := by rw [hlog]; rfl
  exact ⟨s, s', hs, hstep, by simp [hlog], ⟨[0], [], hpushed, List.mem_singleton_self 0⟩, hsubmit,
    by simp [hsubmit, hlog], hmain⟩

theorem submit_behind_vh_nested :
    ∃ s s' : State 1, (context 1).Reachable Machine.anyStep s ∧ s.step (.api none (.sent 0)) = some s' ∧
      s'.sh.log = s.sh.log ++ [.submit 1 0] ∧
      (.vhReturn 0 ∈ s.sh.log ∨ .cancel 0 true ∈ s.sh.log ∨
        ∃ env cmd, Label.api none (.sent 0) = Label.api (none : Tid 1) env ∧ s.main = .vh cmd ∧ cmd.msgid = 0) := by
  obtain ⟨s, s', hs, hstep, hlog, hsubmit, -⟩ := nestedPassTrace_run
  have hpushed : pushedIds s.sh.log = [0] ++ 1 :: [] := by rw [hlog]; rfl
  have hpush : .push (some 0) 1 0 .callVH ∈ s.sh.log := by simp [hlog]
  exact ⟨s, s', hs, hstep, hsubmit,
    submit_behind_vh hs hstep hpush rfl ⟨[0], [], hpushed, List.mem_singleton_self 0⟩ hsubmit⟩

end Aveo

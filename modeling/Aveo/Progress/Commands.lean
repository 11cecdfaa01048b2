import Aveo.Progress.Events

/-!
# Where commands come from

A command that is alive after a step was alive before it, up to its result and its URPC request, or
was built in the step, or got its flag in it. Invariants about commands follow from this without
looking at the steps again. The first of them is that a flagged command was flagged by its call.
-/

namespace Aveo

open Lib

variable {n : Nat}

/-- A command in the request queue or in flight. -/
def Shared.Live (sh : Shared n) (cmd : Command) : Prop := cmd ∈ sh.comq.request ∨ cmd ∈ sh.comq.inflight.values

/-- A command that is not completed. -/
def State.Live (s : State n) (cmd : Command) : Prop :=
  (∃ t, (s.api t).regs.cur = some cmd ∨ (s.api t).phase.hand = some cmd) ∨ s.main.hand = some cmd ∨ s.sh.Live cmd

theorem SameCommand.refl (cmd : Command) : SameCommand cmd cmd := ⟨rfl, rfl, rfl⟩

theorem Quiet.live {sh sh' : Shared n} (h : Quiet sh sh') {cmd : Command} (hl : sh'.Live cmd) : sh.Live cmd := by
  rwa [Shared.Live, h.request, h.inflight] at hl

theorem Peeked.live {t : Tid n} {sh sh' : Shared n} (h : Peeked t sh sh') {cmd : Command} (hl : sh'.Live cmd) :
    sh.Live cmd := by
  cases h with
  | quiet h => exact h.live hl
  | take hentry h => exact h.live hl

/-- The commands after a step of a pass. -/
theorem PassEffect.live {x : Bool} {t : Tid n} {p : PassPc} {sh sh' : Shared n} {out : PassOut}
    (h : PassEffect x t sh p sh' out) {cmd' : Command} (hl : out.hand = some cmd' ∨ sh'.Live cmd') :
    ∃ cmd, (p.hand = some cmd ∨ sh.Live cmd) ∧ SameCommand cmd cmd' := by
  have hold : sh.Live cmd' → ∃ cmd, (p.hand = some cmd ∨ sh.Live cmd) ∧ SameCommand cmd cmd' := fun hl =>
    ⟨cmd', .inr hl, .refl cmd'⟩
  cases h with
  | quiet hp hout _ hq =>
    rcases hl with hl | hl
    · rw [hout] at hl
      cases hl
    · exact hold (hq.live hl)
  | throws =>
    rcases hl with hl | hl
    · cases hl
    · exact hold hl
  | @popInFlight req m cmd hentry | @cancelInflight req cmd hentry =>
    refine hold ?_
    rcases hl with hl | hl | hl
    · cases hl
      exact .inr (BlockingMap.mem_values_of_entry hentry)
    · exact .inl hl
    · obtain ⟨e, he, rfl⟩ := List.mem_map.mp hl
      exact .inr (List.mem_map.mpr ⟨e, (BlockingMap.mem_entries_erase.mp he).1, rfl⟩)
  | @unpack cmd cmd₁ m failed _ hpeek hcmd =>
    rcases hl with hl | hl
    · cases hl
      exact ⟨cmd, .inl rfl, hcmd⟩
    · exact hold (hpeek.live hl)
  | complete hp hp' | discard _ hp' =>
    rcases hl with hl | hl
    · rw [PassOut.hand, hp'] at hl
      cases hl
    · exact hold hl
  | popRequest hreq | cancelRequest hreq =>
    refine hold ?_
    rcases hl with hl | hl | hl
    · cases hl
      exact .inl (hreq ▸ List.mem_cons_self)
    · exact .inl (hreq ▸ List.mem_cons_of_mem _ hl)
    · exact .inr hl
  | @startVH cmd | @defer cmd =>
    rcases hl with hl | hl
    · cases hl
      exact ⟨cmd', .inl rfl, .refl cmd'⟩
    · exact hold hl
  | @submit cmd req =>
    rcases hl with hl | hl
    · cases hl
      exact ⟨cmd, .inl rfl, rfl, rfl, rfl⟩
    · exact hold hl
  | @reject cmd cmd₁ hvh hcmd =>
    rcases hl with hl | hl
    · cases hl
      exact ⟨cmd, .inl rfl, hcmd⟩
    · exact hold hl
  | @pushInFlight cmd =>
    rcases hl with hl | hl | hl
    · cases hl
    · exact hold (.inl hl)
    · obtain ⟨e, he, rfl⟩ := List.mem_map.mp hl
      by_cases hkey : cmd.urpcReq ∈ sh.comq.inflight.keys
      · simp only [CommQueue.pushInFlight, BlockingMap.insert_of_mem hkey] at he
        exact hold (.inr (List.mem_map.mpr ⟨e, he, rfl⟩))
      · simp only [CommQueue.pushInFlight, BlockingMap.insert_entries hkey, List.mem_cons] at he
        rcases he with rfl | he
        · exact ⟨cmd, .inl rfl, .refl cmd⟩
        · exact hold (.inr (List.mem_map.mpr ⟨e, he, rfl⟩))
  | @pushRequestFront cmd defer _ hout =>
    rcases hl with hl | hl | hl
    · rcases hout with rfl | rfl <;> cases hl
    · rcases List.mem_cons.mp hl with rfl | hl
      · exact ⟨cmd', .inl rfl, .refl cmd'⟩
      · exact hold (.inl hl)
    · exact hold (.inr hl)

/-- Where a command that is alive after a step comes from. -/
inductive Origin (s : State n) (l : Label n) (s' : State n) (cmd' : Command) : Prop
  | old {cmd : Command} (h : s.Live cmd) (hcmd : SameCommand cmd cmd')
  | new {t : Tid n} {env : Env} {b : Build} {kept : Bool} {rest : List Instr} (hl : l = .api t env)
      (hcode : (s.api t).code = .issue b kept :: rest)
      (hcmd : cmd' = .new s.sh.seqNo (b.closure (s.api t).regs))
  | flagged {cmd : Command} (h : s.Live cmd) (hcmd : cmd' = cmd.setNowaitFlag true)
      (hlog : .nowait cmd.msgid ∈ s'.sh.log)

/-- The commands with a thread and in the shared state after an instruction. -/
theorem Origin.of_exec {s s' : State n} {t : Tid n} {env : Env} {i : Instr} {rest : List Instr} {sh : Shared n} {a : Api}
    (hcode : (s.api t).code = i :: rest) (h : ExecEffect t s.sh (s.api t).regs i sh a) (hsh : s'.sh = sh) {cmd' : Command}
    (hl : a.regs.cur = some cmd' ∨ a.phase.hand = some cmd' ∨ sh.Live cmd') : Origin s (.api t env) s' cmd' := by
  have hcur : (s.api t).regs.cur = some cmd' → Origin s (.api t env) s' cmd' := fun hcur =>
    .old (.inl ⟨t, .inl hcur⟩) (.refl cmd')
  have hshared : s.sh.Live cmd' → Origin s (.api t env) s' cmd' := fun hlive => .old (.inr (.inr hlive)) (.refl cmd')
  cases h with
  | quiet hq heq | take _ hq heq =>
    rcases hl with hl | hl | hl
    · exact hcur (heq ▸ hl)
    · cases hl
    · exact hshared (hq.live hl)
  | issue hi hq heq =>
    rcases hl with hl | hl | hl
    · rw [heq] at hl
      exact .new rfl (hi ▸ hcode) (Option.some.inj hl).symm
    · cases hl
    · exact hshared (hq.live hl)
  | nowait hcmd hq heq =>
    rcases hl with hl | hl | hl
    · rw [heq] at hl
      refine .flagged (.inl ⟨t, .inl hcmd⟩) (Option.some.inj hl).symm ?_
      rw [hsh, hq.mem_log rfl]
      exact List.mem_append_right _ List.mem_cons_self
    · cases hl
    · exact hshared (hq.live hl)
  | push hi hcmd heq =>
    rcases hl with hl | hl | hl | hl
    · rw [heq] at hl
      cases hl
    · cases hl
    · rcases List.mem_append.mp hl with hl | hl
      · exact hshared (.inl hl)
      · rw [List.mem_singleton] at hl
        exact hcur (hl ▸ hcmd)
    · exact hshared (.inr hl)
  | lock hlock =>
    rcases hl with hl | hl | hl
    · exact hcur hl
    · cases hl
    · exact hshared hl

theorem Api.regs_afterPass {a a' : Api} {t : Tid n} {k : After} {uncaught : Bool} {sh sh' : Shared n} {out : PassOut}
    (h : a.afterPass t k uncaught sh out = some (sh', a')) :
    a'.regs = a.regs ∧ (a'.phase.hand = out.hand ∨ a'.phase = a.phase) ∧ sh'.comq = sh.comq ∧ sh'.log = sh.log := by
  cases out with
  | next | ret => cases h; exact ⟨rfl, .inl rfl, rfl, rfl⟩
  | startVH => cases h
  | throws =>
    simp only [Api.afterPass] at h
    split at h <;> cases h
    · exact ⟨rfl, .inr rfl, rfl, rfl⟩
    · exact ⟨rfl, .inl rfl, rfl, rfl⟩

theorem live_step {s s' : State n} {l : Label n} (hstep : StepCase s l s') {cmd' : Command} (hl : s'.Live cmd') :
    Origin s l s' cmd' := by
  have hthread : ∀ {t : Tid n}, (s.api t).regs.cur = some cmd' ∨ (s.api t).phase.hand = some cmd' → Origin s l s' cmd' :=
    fun h => .old (.inl ⟨_, h⟩) (.refl cmd')
  have hshared : s.sh.Live cmd' → Origin s l s' cmd' := fun hlive => .old (.inr (.inr hlive)) (.refl cmd')
  have hset : ∀ {t : Tid n} {a : Api} {sh : Shared n}, s' = ({ s with sh := sh } : State n).setApi t a →
      (a.regs.cur = some cmd' ∨ a.phase.hand = some cmd' ∨ sh.Live cmd' → Origin s l s' cmd') →
      Origin s l s' cmd' := by
    intro t a sh heq hnew
    rw [heq] at hl
    rcases hl with ⟨u, hu⟩ | hl | hl
    · by_cases hut : u = t
      · rw [hut, State.setApi_api_self] at hu
        exact hnew (hu.imp_right .inl)
      · rw [State.setApi_api_ne _ _ hut] at hu
        exact hthread hu
    · exact .old (.inr (.inl hl)) (.refl cmd')
    · exact hnew (.inr (.inr hl))
  cases hstep with
  | out hmain hmain' hq =>
    rcases hl with ⟨t, ht⟩ | hl | hl
    · exact hthread ht
    · exact absurd ((Main.hand_of_isOut hmain').symm.trans hl) nofun
    · exact hshared (hq.live hl)
  | execLock hm | execUnlock hm =>
    rcases hl with ⟨t, ht⟩ | hl | hl
    · exact hthread ht
    · cases hl
    · exact hshared hl
  | execTest hm hm' =>
    rcases hl with ⟨t, ht⟩ | hl | hl
    · exact hthread ht
    · rcases hm' with rfl | rfl <;> cases hl
    · exact hshared hl
  | @pass p env sh out hm hpass =>
    have hnew : out.hand = some cmd' ∨ sh.Live cmd' → Origin s (.main env) (s.afterPass sh out) cmd' := by
      intro h
      obtain ⟨cmd, hcmd, hsame⟩ := (passStep_effect hpass).live h
      refine .old (hcmd.elim (fun hp => .inr (.inl ?_)) fun hs => .inr (.inr hs)) hsame
      rw [hm]
      exact hp
    cases out with
    | next | ret =>
      rcases hl with ⟨t, ht⟩ | hl | hl
      · exact hthread ht
      · exact hnew (.inl hl)
      · exact hnew (.inr hl)
    | throws =>
      rcases hl with ⟨t, ht⟩ | hl | hl
      · exact hthread ht
      · exact .old (.inr (.inl hl)) (.refl cmd')
      · exact hnew (.inr hl)
    | startVH cmd =>
      rcases hl with ⟨t, ht⟩ | hl | hl
      · by_cases htn : t = none
        · rw [htn, State.afterPass, State.setApi_api_self] at ht
          rcases ht with ht | ht <;> cases ht
        · rw [State.afterPass, State.setApi_api_ne _ _ htn] at ht
          exact hthread ht
      · exact hnew (.inl hl)
      · exact hnew (.inr hl)
  | @vhReturn cmd val hm hphase hcode =>
    rcases hl with ⟨t, ht⟩ | hl | hl
    · exact hthread ht
    · cases hl
      exact .old (.inr (.inl (by rw [hm]; rfl))) (sameCommand_vhResult cmd _ val)
    · exact hshared hl
  | @exec t env i rest sh a hphase hcode hexec =>
    refine hset rfl fun hc => ?_
    exact .of_exec hcode (exec_effect hexec) rfl hc
  | @apiPass t env p k sh sh' out a hphase hpass hout =>
    obtain ⟨hregs, hhand, hcomq, -⟩ := Api.regs_afterPass hout
    refine hset rfl fun hc => ?_
    have hnew : out.hand = some cmd' ∨ sh.Live cmd' → Origin s (.api t env) (({ s with sh := sh' } : State n).setApi t a) cmd' := by
      intro h
      obtain ⟨cmd, hcmd, hsame⟩ := (passStep_effect hpass).live h
      refine .old (hcmd.elim (fun hp => .inl ⟨t, .inr ?_⟩) fun hs => .inr (.inr hs)) hsame
      rw [hphase]
      exact hp
    rcases hc with hc | hc | hc
    · exact hthread (.inl (hregs ▸ hc))
    · rcases hhand with hhand | hhand
      · exact hnew (.inl (hhand ▸ hc))
      · exact hthread (.inr (hhand ▸ hc))
    · refine hnew (.inr ?_)
      rwa [Shared.Live, hcomq] at hc
  | @unlock t env rv k m hphase hlock =>
    refine hset rfl fun hc => ?_
    rcases hc with hc | hc | hc
    · exact hthread (.inl hc)
    · cases hc
    · exact hshared hc
  | @call t c hphase hcode hmay =>
    refine hset (t := t) (show _ = ({ s with sh := s.sh } : State n).setApi t _ from rfl) fun hc => ?_
    rcases hc with hc | hc | hc
    · have hnone : (c.regs (pushedIds s.sh.log).length).cur = none := by cases c <;> rfl
      rw [hnone] at hc
      cases hc
    · cases hc
    · exact hshared hc

theorem State.not_live_new (cmd : Command) : ¬(State.new n).Live cmd := by
  intro hl
  rcases hl with ⟨t, ht | ht⟩ | hl | hl | hl
  · cases ht
  · cases ht
  · cases hl
  · cases hl
  · cases hl

/-- The command in the hand of the pass that is going on is with the thread that makes it. -/
theorem State.hand_of_cursor {s : State n} {p : PassPc} {cmd : Command} (hp : s.cursor = some p)
    (hcmd : p.hand = some cmd) : (∃ t, (s.api t).phase.hand = some cmd) ∨ s.main = .pass p := by
  obtain ⟨t, ht⟩ := State.passOf_of_cursor hp
  have hapi : (s.api t).phase.passPc = some p → (s.api t).phase.hand = some cmd := by
    intro hph
    cases hphase : (s.api t).phase with
    | run | unlock => rw [hphase] at hph; cases hph
    | inPass p' k =>
      rw [hphase] at hph
      cases hph
      exact hcmd
  cases t with
  | some i => exact .inl ⟨_, hapi ht⟩
  | none =>
    rcases Option.or_eq_some_iff.mp ht with hmain | ⟨-, hph⟩
    · refine .inr ?_
      cases hm : s.main with
      | pass p' =>
        rw [hm] at hmain
        cases hmain
        rfl
      | _ => rw [hm] at hmain; cases hmain
    · exact .inl ⟨_, hapi hph⟩

theorem State.live_of_cursor {s : State n} {p : PassPc} {cmd : Command} (hp : s.cursor = some p)
    (hcmd : p.hand = some cmd) : s.Live cmd := by
  rcases State.hand_of_cursor hp hcmd with ⟨t, ht⟩ | hmain
  · exact .inl ⟨t, .inr ht⟩
  · exact .inr (.inl (by rw [hmain]; exact hcmd))

/-- A command in a hand is in the one of the pass that is going on, or its VH function runs. -/
theorem State.hand_cases {s : State n} (h : Basic s) {cmd : Command}
    (hcmd : (∃ t, (s.api t).phase.hand = some cmd) ∨ s.main.hand = some cmd) :
    (∃ p, s.cursor = some p ∧ p.hand = some cmd) ∨ s.main.vhCmd = some cmd := by
  rcases hcmd with ⟨t, ht⟩ | hmain
  · cases hphase : (s.api t).phase with
    | run | unlock => rw [hphase] at ht; cases ht
    | inPass p k =>
      rw [hphase] at ht
      refine .inl ⟨p, State.cursor_of_passOf h (t := t) ?_, ht⟩
      rw [State.passOf_of_busy h (by simp [hphase]), hphase]
      rfl
  · cases hm : s.main with
    | pass p =>
      rw [hm] at hmain
      refine .inl ⟨p, State.cursor_of_passOf h (t := none) ?_, hmain⟩
      simp only [State.passOf, hm, Main.passPc, Option.some_or]
    | vh c =>
      rw [hm] at hmain
      exact .inr hmain
    | _ => rw [hm] at hmain; cases hmain

/-! ### Flagged commands -/

/-- A command that does not keep its result was flagged by the call that submitted it. -/
structure Flagged (s : State n) : Prop where
  live : ∀ cmd, s.Live cmd → cmd.nowait = true → .nowait cmd.msgid ∈ s.sh.log
  discarded : ∀ id, .discard id ∈ s.sh.log → .nowait id ∈ s.sh.log

namespace Flagged

variable {s s' : State n}

theorem init : Flagged (State.new n) := ⟨fun cmd hl => absurd hl (State.not_live_new cmd), nofun⟩

theorem step (hB : Basic s) (h : Flagged s) {l : Label n} (hstep : s.step l = some s') : Flagged s' := by
  have hcs := cursorStep hB hstep
  refine ⟨fun cmd' hl hnowait => ?_, fun id hid => ?_⟩
  · cases live_step (step_cases hstep) hl with
    | old hlive hcmd =>
      rw [hcmd.msgid]
      exact hcs.mem_log (h.live _ hlive (hcmd.nowait ▸ hnowait))
    | new hl hcode hcmd =>
      subst hcmd
      cases hnowait
    | flagged hlive hcmd hlog =>
      subst hcmd
      exact hlog
  · rcases new_event hcs hid with hmem | hnew
    · exact hcs.mem_log (h.discarded id hmem)
    · cases hnew with
      | quiet hq => cases hq
      | discard hp hnowait => exact hcs.mem_log (h.live _ (State.live_of_cursor hp rfl) hnowait)

theorem of_reachable {C : Machine.Cond (State n) (Label n)} (h : (context n).Reachable C s) : Flagged s := by
  refine h.invariant (I := Flagged) ?_ fun s₀ l s₁ hr hstep _ hs => hs.step (Basic.of_reachable hr) hstep
  intro s₀ h0
  rw [h0]
  exact init

end Flagged

end Aveo

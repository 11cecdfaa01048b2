import Aveo.Progress.Conservation
import Aveo.Lib.Pipeline

/-!
# The order of requests

The request queue is an in-order pipeline. Requests leave the queue for good in the order in which they
were pushed: whoever pops a request either decides about it or puts it back in front, and passes exclude
each other, so at most one request is out of the queue undecided. A VH function starts only when nothing
is in flight, and then nothing pushed before it is unfinished. `pipeline_step` is the refinement of the
abstract pipeline by the machine of a context.
-/

namespace Aveo

open Lib

variable {n : Nat}

/-! ### Pushes and decisions -/

/-- The request that the pass going on took from the queue and has not decided about. -/
def undecidedIds (o : Option PassPc) : List ReqId := ((o.bind PassPc.undecided).map Command.msgid).toList

theorem undecidedIds_of_hand {p : PassPc} (h : p.hand = none) : undecidedIds (some p) = [] := by
  cases p <;> first | rfl | cases h

theorem undecidedIds_out_of_hand {out : PassOut} (h : out.hand = none) : undecidedIds out.passPc = [] := by
  cases out with
  | next p => exact undecidedIds_of_hand h
  | ret | startVH | throws => rfl

/-- A projection of the log after one more event. -/
theorem pushedIds_append (log : List (Event n)) (e : Event n) :
    pushedIds (log ++ [e]) = pushedIds log ++ e.pushedId.toList := by
  cases h : e.pushedId <;> simp [pushedIds, h]

theorem startedIds_append (log : List (Event n)) (e : Event n) :
    startedIds (log ++ [e]) = startedIds log ++ e.startedId.toList := by
  cases h : e.startedId <;> simp [startedIds, h]

theorem pushedIds_append_of_none (log : List (Event n)) {e : Event n} (he : e.pushedId = none) :
    pushedIds (log ++ [e]) = pushedIds log := by
  rw [pushedIds_append, he]
  exact List.append_nil _

theorem startedIds_append_of_none (log : List (Event n)) {e : Event n} (he : e.startedId = none) :
    startedIds (log ++ [e]) = startedIds log := by
  rw [startedIds_append, he]
  exact List.append_nil _

theorem Peeked.order {t : Tid n} {sh sh' : Shared n} (h : Peeked t sh sh') :
    pushedIds sh'.log = pushedIds sh.log ∧ startedIds sh'.log = startedIds sh.log ∧
      sh'.comq.requestIds = sh.comq.requestIds := by
  cases h with
  | quiet h => exact ⟨h.pushedIds, h.startedIds, congrArg (List.map Command.msgid) h.request⟩
  | @take id c hentry h =>
    refine ⟨h.pushedIds.trans ?_, h.startedIds.trans ?_, congrArg (List.map Command.msgid) h.request⟩
    · exact pushedIds_append_of_none sh.log rfl
    · exact startedIds_append_of_none sh.log rfl

/-- A step of a pass pushes nothing, and what it decides about is next in the order of pushes. -/
theorem PassEffect.order {x : Bool} {t : Tid n} {p : PassPc} {sh sh' : Shared n} {out : PassOut}
    (h : PassEffect x t sh p sh' out) :
    pushedIds sh'.log = pushedIds sh.log ∧
      startedIds sh'.log ++ (undecidedIds out.passPc ++ sh'.comq.requestIds) =
        startedIds sh.log ++ (undecidedIds (some p) ++ sh.comq.requestIds) := by
  cases h with
  | quiet hp hout _ hq =>
    refine ⟨hq.pushedIds, ?_⟩
    rw [undecidedIds_of_hand hp, undecidedIds_out_of_hand hout, hq.startedIds, CommQueue.requestIds, hq.request]
    rfl
  | throws | popInFlight | defer | pushInFlight => exact ⟨rfl, rfl⟩
  | cancelInflight =>
    exact ⟨pushedIds_append_of_none sh.log rfl, congrArg (· ++ _) (startedIds_append_of_none sh.log rfl)⟩
  | unpack hpeek hcmd =>
    obtain ⟨hpush, hstart, hreq⟩ := hpeek.order
    exact ⟨hpush, by rw [hstart, hreq]; rfl⟩
  | complete hp hp' =>
    refine ⟨rfl, ?_⟩
    have hund : undecidedIds (some p) = [] := by
      obtain ⟨failed, rfl, -⟩ | rfl | rfl | rfl | rfl := hp <;> rfl
    rw [hund, PassOut.passPc, undecidedIds_of_hand hp']
    rfl
  | discard hnowait hp' =>
    refine ⟨pushedIds_append_of_none sh.log rfl, ?_⟩
    rw [PassOut.passPc, undecidedIds_of_hand hp']
    exact congrArg (· ++ _) (startedIds_append_of_none sh.log rfl)
  | popRequest hreq =>
    refine ⟨rfl, ?_⟩
    simp only [CommQueue.requestIds, hreq, List.map_cons]
    rfl
  | @cancelRequest cmd rest hreq =>
    refine ⟨pushedIds_append_of_none sh.log rfl, ?_⟩
    rw [startedIds_append]
    simp only [CommQueue.requestIds, hreq, List.map_cons, Event.startedId, Option.toList, List.append_assoc]
    rfl
  | startVH | submit =>
    refine ⟨pushedIds_append_of_none sh.log rfl, ?_⟩
    exact (congrArg (· ++ _) (startedIds_append sh.log _)).trans (List.append_assoc _ _ _)
  | reject hvh hcmd =>
    refine ⟨pushedIds_append_of_none sh.log rfl, ?_⟩
    exact (congrArg (· ++ _) (startedIds_append sh.log _)).trans (List.append_assoc _ _ _)
  | pushRequestFront hout =>
    refine ⟨rfl, ?_⟩
    rcases hout with rfl | rfl <;> rfl

theorem undecidedIds_of_kept {s s' : State n} (h : CursorKept s s') : undecidedIds s'.cursor = undecidedIds s.cursor := by
  rcases h with h | ⟨h, h'⟩
  · rw [h]
  · rw [h, h']
    rfl

/-- An instruction decides about nothing, and what it pushes it appends to the queue. -/
theorem ExecEffect.order {t : Tid n} {sh sh' : Shared n} {r : Regs} {i : Instr} {a : Api} (h : ExecEffect t sh r i sh' a) :
    startedIds sh'.log = startedIds sh.log ∧
      ∃ ids, pushedIds sh'.log = pushedIds sh.log ++ ids ∧ sh'.comq.requestIds = sh.comq.requestIds ++ ids := by
  cases h with
  | quiet h | issue _ h =>
    refine ⟨h.startedIds, [], ?_, ?_⟩
    · rw [h.pushedIds, List.append_nil]
    · rw [List.append_nil, CommQueue.requestIds, h.request]
      rfl
  | nowait _ h | take _ h =>
    refine ⟨h.startedIds.trans (startedIds_append_of_none sh.log rfl), [], ?_, ?_⟩
    · rw [List.append_nil]
      exact h.pushedIds.trans (pushedIds_append_of_none sh.log rfl)
    · rw [List.append_nil, CommQueue.requestIds, h.request]
      rfl
  | @push code r' cmd hi hcmd hcur =>
    refine ⟨startedIds_append_of_none sh.log rfl, [cmd.msgid], pushedIds_append sh.log _, ?_⟩
    exact List.map_append
  | lock => exact ⟨rfl, [], (List.append_nil _).symm, (List.append_nil _).symm⟩

/-- An instruction that pushes a command gives it away. -/
theorem ExecEffect.held {t : Tid n} {sh sh' : Shared n} {r : Regs} {i : Instr} {rest : List Instr} {a : Api}
    (hs : Shaped r.held r.guards (i :: rest)) (h : ExecEffect t sh r i sh' a) :
    (pushedIds sh'.log : Multiset ReqId) + handIds a.regs.cur + Multiset.range sh.seqNo =
      (pushedIds sh.log : Multiset ReqId) + handIds r.cur + Multiset.range sh'.seqNo := by
  cases h with
  | quiet h hcur => rw [h.pushedIds, h.seqNo, hcur]
  | issue hi h hcur =>
    have hnone := Regs.held_eq_none.mp (hi ▸ hs).held_of_issue
    rw [h.pushedIds, h.seqNo, hcur, hnone, handIds_none, handIds_some, Multiset.range_succ, ← Multiset.singleton_add]
    simp only [Command.new]
    ac_rfl
  | nowait hcmd h hcur =>
    rw [h.pushedIds, h.seqNo, hcur, hcmd, Shared.emit, pushedIds_append_of_none sh.log rfl]
    rfl
  | take hentry h hcur =>
    rw [h.pushedIds, h.seqNo, hcur, Shared.take, pushedIds_append_of_none sh.log rfl]
  | push hi hcmd hcur =>
    rw [pushedIds_append, hcur, hcmd, handIds_none, add_zero, handIds_some, ← Multiset.coe_add]
    rfl
  | lock => rfl

/-- The request IDs with the threads that submit them. -/
def State.heldIds (s : State n) : Multiset ReqId := ∑ t : Tid n, handIds (s.api t).regs.cur

/-- Every request that was pushed has been decided about, is about to be, or is queued, in this order; and
every request ID was pushed or is with the thread that submits it. -/
structure Ordered (s : State n) : Prop where
  pushed : pushedIds s.sh.log = startedIds s.sh.log ++ (undecidedIds s.cursor ++ s.sh.comq.requestIds)
  held : (pushedIds s.sh.log : Multiset ReqId) + s.heldIds = Multiset.range s.sh.seqNo

namespace Ordered

variable {s s' : State n}

theorem init : Ordered (State.new n) := by
  refine ⟨rfl, ?_⟩
  have hapi : ∀ t : Tid n, handIds ((State.new n).api t).regs.cur = 0 := fun _ => rfl
  simp only [State.heldIds, hapi, Finset.sum_const_zero]
  rfl

theorem pushed_step (h : Ordered s) (hstep : CursorStep s s') :
    pushedIds s'.sh.log = startedIds s'.sh.log ++ (undecidedIds s'.cursor ++ s'.sh.comq.requestIds) := by
  cases hstep with
  | @pass x t p env sh out b hp hpass hsh hcur =>
    obtain ⟨hpush, hord⟩ := (passStep_effect hpass).order
    have hund : undecidedIds s'.cursor = undecidedIds out.passPc := by
      rcases hcur with hcur | ⟨rfl, hcur⟩
      · rw [hcur]
      · obtain ⟨req, m, rfl⟩ := (passStep_effect hpass).reply_of_throws
        rw [hcur, hp]
        rfl
    have hold := h.pushed
    rw [hp, ← hord] at hold
    rw [hund, hsh]
    exact hpush.trans hold
  | vhReturn hmain hcmd hsh hcur hcur' =>
    have hold := h.pushed
    rw [hcur] at hold
    rw [hcur', hsh, Shared.emit, pushedIds_append_of_none _ rfl, startedIds_append_of_none _ rfl]
    exact hold
  | exec hcode heff hapi hcur =>
    obtain ⟨hstart, ids, hpush, hreq⟩ := heff.order
    rw [undecidedIds_of_kept hcur, hstart, hpush, hreq, h.pushed]
    simp only [List.append_assoc]
  | quiet hq hcur =>
    rw [undecidedIds_of_kept hcur, hq.startedIds, hq.pushedIds, CommQueue.requestIds, hq.request]
    exact h.pushed

theorem held_setApi {sh : Shared n} {t : Tid n} {a : Api} {d d' : Multiset ReqId}
    (heq : (pushedIds sh.log : Multiset ReqId) + handIds a.regs.cur + d =
      (pushedIds s.sh.log : Multiset ReqId) + handIds (s.api t).regs.cur + d') :
    (pushedIds sh.log : Multiset ReqId) + (({ s with sh := sh } : State n).setApi t a).heldIds + d =
      (pushedIds s.sh.log : Multiset ReqId) + s.heldIds + d' := by
  have hsum := State.sum_setApi (fun a => handIds a.regs.cur) { s with sh := sh } t a
  refine add_right_cancel (b := handIds (s.api t).regs.cur) ?_
  simp only [State.heldIds] at hsum ⊢
  calc _ = (pushedIds sh.log : Multiset ReqId) + d +
        (∑ u, handIds ((({ s with sh := sh } : State n).setApi t a).api u).regs.cur + handIds (s.api t).regs.cur) := by
        ac_rfl
    _ = (pushedIds sh.log : Multiset ReqId) + handIds a.regs.cur + d + ∑ u, handIds (s.api u).regs.cur := by
        rw [hsum]; ac_rfl
    _ = _ := by rw [heq]; ac_rfl

theorem held_step (hB : Basic s) {l : Label n} (hstep : StepCase s l s') :
    (pushedIds s'.sh.log : Multiset ReqId) + s'.heldIds + Multiset.range s.sh.seqNo =
      (pushedIds s.sh.log : Multiset ReqId) + s.heldIds + Multiset.range s'.sh.seqNo := by
  cases hstep with
  | out hmain hmain' hq =>
    simp only [hq.pushedIds, hq.seqNo]
    rfl
  | execLock | execTest | execUnlock => rfl
  | @pass p env sh out hmain hpass =>
    have hpush := (passStep_effect hpass).order.1
    have hseq := (passStep_frame hpass).seqNo
    cases out with
    | next | ret | throws =>
      simp only [State.afterPass, hpush, hseq]
      rfl
    | startVH cmd =>
      have hcalm := hB.calm (by rw [hmain]; rfl)
      have hcur : (s.api none).regs.cur = none := by
        have hshape := (hB.shaped none).code
        rw [hcalm.2] at hshape
        exact Regs.held_eq_none.mp hshape.of_nil.1
      refine held_setApi (s := { s with main := .vh cmd }) ?_
      simp only [State.afterPass, State.setApi_sh, hpush, hcur, hseq]
      rfl
  | vhReturn hmain =>
    rw [Shared.emit, pushedIds_append_of_none _ rfl]
    rfl
  | @exec t env i rest sh a hphase hcode hexec =>
    have hs := (hB.shaped t).code
    rw [hcode] at hs
    exact held_setApi ((exec_effect hexec).held hs)
  | @apiPass t env p k sh sh' out a hphase hpass hout =>
    obtain ⟨hregs, -, -, hlog⟩ := Api.regs_afterPass hout
    have hpush := (passStep_effect hpass).order.1
    refine held_setApi ?_
    rw [State.setApi_sh, hregs, hlog, hpush, Api.afterPass_seqNo hout, (passStep_frame hpass).seqNo]
  | unlock => exact held_setApi rfl
  | @call t c hphase hcode hmay =>
    have hcur : (s.api t).regs.cur = none := by
      have hshape := (hB.shaped t).code
      rw [hcode] at hshape
      exact Regs.held_eq_none.mp hshape.of_nil.1
    have hnew : (c.regs (pushedIds s.sh.log).length).cur = none := by cases c <;> rfl
    exact @held_setApi _ s s.sh _ _ _ _ (by rw [hcur, hnew]; rfl)

theorem step (hB : Basic s) (h : Ordered s) {l : Label n} (hstep : s.step l = some s') : Ordered s' := by
  refine ⟨h.pushed_step (cursorStep hB hstep), ?_⟩
  have hheld := held_step hB (step_cases hstep)
  rw [h.held, add_comm] at hheld
  exact add_left_cancel hheld

theorem of_reachable {C : Machine.Cond (State n) (Label n)} (h : (context n).Reachable C s) : Ordered s := by
  refine h.invariant (I := Ordered) ?_ fun s₀ l s₁ hr hstep _ hs => hs.step (Basic.of_reachable hr) hstep
  intro s₀ h0
  rw [h0]
  exact init

end Ordered

/-! ### What has started is in flight, in a hand, or completed -/

/-- What is known of every state that a context reaches. -/
structure Tracked (s : State n) : Prop where
  basic : Basic s
  conserved : Conserved s
  ordered : Ordered s

theorem Tracked.of_reachable {C : Machine.Cond (State n) (Label n)} {s : State n} (h : (context n).Reachable C s) :
    Tracked s := ⟨.of_reachable h, .of_reachable h, .of_reachable h⟩

/-- A request that is replied, failed or cancelled: its command is in the completion map, or was there and has
been delivered, or has been dropped. -/
def Shared.Completed (sh : Shared n) (id : ReqId) : Prop :=
  id ∈ sh.comq.completionIds ∨ id ∈ deliveredIds sh.log ∨ id ∈ discardedIds sh.log

instance (sh : Shared n) (id : ReqId) : Decidable (sh.Completed id) := inferInstanceAs (Decidable (_ ∨ _))

/-- A request whose command was taken from the queue for good and is in the hand of a pass, or is the one whose
VH function runs. -/
def State.Decided (s : State n) (id : ReqId) : Prop :=
  (∃ p cmd, s.cursor = some p ∧ p.undecided = none ∧ p.hand = some cmd ∧ cmd.msgid = id) ∨
    ∃ cmd, s.main.vhCmd = some cmd ∧ cmd.msgid = id

namespace Tracked

variable {s s' : State n} {id : ReqId}

/-- The requests that were pushed, by where they are. -/
theorem pushed_eq (h : Tracked s) :
    (pushedIds s.sh.log : Multiset ReqId) =
      ∑ t : Tid n, handIds (s.api t).phase.hand + handIds s.main.hand + s.sh.ids := by
  have hids := h.conserved.ids
  rw [← h.ordered.held] at hids
  simp only [State.ids, Api.ids, Finset.sum_add_distrib] at hids
  refine add_right_cancel (b := s.heldIds) (hids.symm.trans ?_)
  rw [State.heldIds]
  ac_rfl

theorem pushed_nodup (h : Tracked s) : (pushedIds s.sh.log).Nodup := by
  have hnodup : ((pushedIds s.sh.log : Multiset ReqId) + s.heldIds).Nodup := by
    rw [h.ordered.held]
    exact Multiset.nodup_range _
  exact Multiset.coe_nodup.mp (Multiset.nodup_add.mp hnodup).1

/-- The request ID of a command in a hand. -/
theorem mem_hands {cmd : Command} (hcmd : (∃ t, (s.api t).phase.hand = some cmd) ∨ s.main.hand = some cmd) :
    cmd.msgid ∈ ∑ t : Tid n, handIds (s.api t).phase.hand + handIds s.main.hand := by
  rcases hcmd with ⟨t, ht⟩ | hmain
  · refine Multiset.mem_add.mpr (.inl (Multiset.mem_sum.mpr ⟨t, Finset.mem_univ t, ?_⟩))
    rw [ht]
    exact Multiset.mem_singleton_self _
  · refine Multiset.mem_add.mpr (.inr ?_)
    rw [hmain]
    exact Multiset.mem_singleton_self _

theorem hands_of_mem (hid : id ∈ ∑ t : Tid n, handIds (s.api t).phase.hand + handIds s.main.hand) :
    ∃ cmd, ((∃ t, (s.api t).phase.hand = some cmd) ∨ s.main.hand = some cmd) ∧ cmd.msgid = id := by
  have hmem : ∀ {o : Option Command}, id ∈ handIds o → ∃ cmd, o = some cmd ∧ cmd.msgid = id := by
    intro o ho
    cases o with
    | none => cases ho
    | some cmd => exact ⟨cmd, rfl, (Multiset.mem_singleton.mp ho).symm⟩
  rcases Multiset.mem_add.mp hid with hid | hid
  · obtain ⟨t, -, ht⟩ := Multiset.mem_sum.mp hid
    obtain ⟨cmd, hcmd, heq⟩ := hmem ht
    exact ⟨cmd, .inl ⟨t, hcmd⟩, heq⟩
  · obtain ⟨cmd, hcmd, heq⟩ := hmem hid
    exact ⟨cmd, .inr hcmd, heq⟩

theorem mem_shared_ids {sh : Shared n} :
    id ∈ sh.ids ↔ id ∈ sh.comq.requestIds ∨ id ∈ sh.comq.inflightIds ∨ sh.Completed id := by
  simp only [Shared.ids, CommQueue.ids, Shared.Completed, Multiset.mem_add, Multiset.mem_coe, or_assoc]

/-- Nothing that has started is undecided or queued. -/
theorem not_mem_of_started (h : Tracked s) (hid : id ∈ startedIds s.sh.log) :
    id ∉ undecidedIds s.cursor ∧ id ∉ s.sh.comq.requestIds := by
  have hnodup := h.pushed_nodup
  rw [h.ordered.pushed] at hnodup
  have hdisj := (List.nodup_append'.mp hnodup).2.2 hid
  exact ⟨fun hmem => hdisj (List.mem_append_left _ hmem), fun hmem => hdisj (List.mem_append_right _ hmem)⟩

theorem hands_nodup (h : Tracked s) : (∑ t : Tid n, handIds (s.api t).phase.hand + handIds s.main.hand).Nodup := by
  have hnodup : (pushedIds s.sh.log : Multiset ReqId).Nodup := Multiset.coe_nodup.mpr h.pushed_nodup
  rw [h.pushed_eq] at hnodup
  exact (Multiset.nodup_add.mp hnodup).1

/-- A request in a hand is not in the shared state. -/
theorem not_mem_shared_ids (h : Tracked s)
    (hid : id ∈ ∑ t : Tid n, handIds (s.api t).phase.hand + handIds s.main.hand) : id ∉ s.sh.ids := by
  have hnodup : (pushedIds s.sh.log : Multiset ReqId).Nodup := Multiset.coe_nodup.mpr h.pushed_nodup
  rw [h.pushed_eq] at hnodup
  exact Multiset.disjoint_left.mp (Multiset.nodup_add.mp hnodup).2.2 hid

/-- The command whose VH function runs is not completed. -/
theorem not_completed_of_vh (h : Tracked s) {cmd : Command} (hmain : s.main = .vh cmd) : ¬ s.sh.Completed cmd.msgid :=
  fun hdone => h.not_mem_shared_ids (mem_hands (.inr (by rw [hmain]; rfl))) (mem_shared_ids.mpr (.inr (.inr hdone)))

/-- A queued request is neither in flight nor completed. -/
theorem not_mem_requestIds (h : Tracked s) (hid : id ∈ s.sh.comq.inflightIds ∨ s.sh.Completed id) :
    id ∉ s.sh.comq.requestIds := by
  have hnodup : (pushedIds s.sh.log : Multiset ReqId).Nodup := Multiset.coe_nodup.mpr h.pushed_nodup
  have hids : s.sh.ids = (s.sh.comq.requestIds : Multiset ReqId) + ((s.sh.comq.inflightIds : Multiset ReqId) +
      (s.sh.comq.completionIds : Multiset ReqId) + (deliveredIds s.sh.log : Multiset ReqId) +
        (discardedIds s.sh.log : Multiset ReqId)) := by
    simp only [Shared.ids, CommQueue.ids]
    ac_rfl
  rw [h.pushed_eq, hids] at hnodup
  intro hreq
  refine Multiset.disjoint_left.mp (Multiset.nodup_add.mp (Multiset.nodup_add.mp hnodup).2.1).2.2 (show id ∈ _ from hreq) ?_
  simpa only [Multiset.mem_add, Multiset.mem_coe, Shared.Completed, or_assoc] using hid

theorem main_of_vhCmd {cmd : Command} (hcmd : s.main.vhCmd = some cmd) : s.main = .vh cmd := by
  cases hm : s.main with
  | vh c => rw [hm] at hcmd; cases hcmd; rfl
  | _ => rw [hm] at hcmd; cases hcmd

theorem mem_hands_of_decided (h : s.Decided id) :
    id ∈ ∑ t : Tid n, handIds (s.api t).phase.hand + handIds s.main.hand := by
  rcases h with ⟨p, cmd, hp, -, hcmd, rfl⟩ | ⟨cmd, hcmd, rfl⟩
  · exact mem_hands ((State.hand_of_cursor hp hcmd).imp_right fun hm => by rw [hm]; exact hcmd)
  · exact mem_hands (.inr (by rw [main_of_vhCmd hcmd]; rfl))

theorem undecided_hand {p : PassPc} {cmd : Command} (h : p.undecided = some cmd) : p.hand = some cmd := by
  cases p <;> first | exact h | cases h

theorem exists_of_undecided (hid : id ∈ undecidedIds s.cursor) :
    ∃ p cmd, s.cursor = some p ∧ p.undecided = some cmd ∧ cmd.msgid = id := by
  obtain ⟨cmd, hcmd, rfl⟩ := Option.map_eq_some_iff.mp (Option.mem_toList.mp hid)
  obtain ⟨p, hp, hund⟩ := Option.bind_eq_some_iff.mp hcmd
  exact ⟨p, cmd, hp, hund, rfl⟩

theorem not_mem_undecidedIds (h : Tracked s) (hid : s.Decided id) : id ∉ undecidedIds s.cursor := by
  intro hund
  rcases hid with ⟨p, cmd, hp, hnone, -, -⟩ | ⟨cmd, hcmd, rfl⟩
  · rw [hp, undecidedIds, Option.bind_some, hnone] at hund
    cases hund
  · -- A nested pass has its command in the hand of a call, and the one of the VH function is another.
    have hmain := main_of_vhCmd hcmd
    obtain ⟨p, c, hp, hpc, hceq⟩ := exists_of_undecided hund
    rcases State.hand_of_cursor hp (undecided_hand hpc) with ⟨t, ht⟩ | hm
    · have hdisj := (Multiset.nodup_add.mp h.hands_nodup).2.2
      refine Multiset.disjoint_left.mp hdisj (show cmd.msgid ∈ _ from ?_) ?_
      · refine Multiset.mem_sum.mpr ⟨t, Finset.mem_univ t, ?_⟩
        rw [ht, handIds_some, hceq]
        exact Multiset.mem_singleton_self _
      · rw [hmain]
        exact Multiset.mem_singleton_self _
    · rw [hmain] at hm
      cases hm

/-- What was decided about is in flight, in a hand, executed by the progress thread, or completed. -/
theorem started_iff (h : Tracked s) :
    id ∈ startedIds s.sh.log ↔ id ∈ s.sh.comq.inflightIds ∨ s.Decided id ∨ s.sh.Completed id := by
  have hpushed : id ∈ pushedIds s.sh.log ↔
      id ∈ ∑ t : Tid n, handIds (s.api t).phase.hand + handIds s.main.hand ∨ id ∈ s.sh.ids := by
    rw [← Multiset.mem_coe, h.pushed_eq, Multiset.mem_add]
  have hlist : id ∈ pushedIds s.sh.log ↔
      id ∈ startedIds s.sh.log ∨ id ∈ undecidedIds s.cursor ∨ id ∈ s.sh.comq.requestIds := by
    rw [h.ordered.pushed, List.mem_append, List.mem_append]
  constructor
  · intro hid
    obtain ⟨hund, hreq⟩ := h.not_mem_of_started hid
    rcases hpushed.mp (hlist.mpr (.inl hid)) with hhand | hshared
    · obtain ⟨cmd, hcmd, rfl⟩ := hands_of_mem hhand
      refine .inr (.inl ?_)
      rcases State.hand_cases h.basic hcmd with ⟨p, hp, hpc⟩ | hvh
      · refine .inl ⟨p, cmd, hp, ?_, hpc, rfl⟩
        by_contra hne
        obtain ⟨c, hc⟩ := Option.ne_none_iff_exists'.mp hne
        have hceq : c = cmd := Option.some.inj ((undecided_hand hc).symm.trans hpc)
        refine hund ?_
        rw [hp, undecidedIds, Option.bind_some, hc, hceq]
        exact List.mem_singleton_self _
      · exact .inr ⟨cmd, hvh, rfl⟩
    · rcases mem_shared_ids.mp hshared with hmem | hmem | hmem
      · exact absurd hmem hreq
      · exact .inl hmem
      · exact .inr (.inr hmem)
  · intro hid
    have hshared : id ∈ s.sh.comq.inflightIds ∨ s.sh.Completed id →
        id ∉ ∑ t : Tid n, handIds (s.api t).phase.hand + handIds s.main.hand := fun hid hmem =>
      h.not_mem_shared_ids hmem (mem_shared_ids.mpr (.inr hid))
    have hund : id ∉ undecidedIds s.cursor := by
      intro hmem
      obtain ⟨p, cmd, hp, hpc, rfl⟩ := exists_of_undecided hmem
      have hhand := mem_hands ((State.hand_of_cursor hp (undecided_hand hpc)).imp_right fun hm => by
        rw [hm]
        exact undecided_hand hpc)
      rcases hid with hid | hid | hid
      · exact hshared (.inl hid) hhand
      · exact h.not_mem_undecidedIds hid hmem
      · exact hshared (.inr hid) hhand
    have hreq : id ∉ s.sh.comq.requestIds := by
      intro hmem
      rcases hid with hid | hid | hid
      · exact h.not_mem_requestIds (.inl hid) hmem
      · exact h.not_mem_shared_ids (mem_hands_of_decided hid) (mem_shared_ids.mpr (.inl hmem))
      · exact h.not_mem_requestIds (.inr hid) hmem
    have hmem : id ∈ pushedIds s.sh.log := hpushed.mpr (by
      rcases hid with hid | hid | hid
      · exact .inr (mem_shared_ids.mpr (.inr (.inl hid)))
      · exact .inl (mem_hands_of_decided hid)
      · exact .inr (mem_shared_ids.mpr (.inr (.inr hid))))
    exact (hlist.mp hmem).resolve_right fun hor => hor.elim hund hreq

end Tracked

end Aveo

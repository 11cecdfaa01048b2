import Aveo.Progress.Order

/-!
# A context is an in-order pipeline

What the request queue, the maps and the passes are for: requests start in the order of their pushes, and a
VH command is a barrier. `moves_step` is the refinement: a step of a context leaves the abstract pipeline as
it is or is one act of it. The order of submissions and the barrier at a VH command follow from the abstract
pipeline.
-/

namespace Aveo

open Lib

variable {n : Nat}

/-- The abstract pipeline of a context: a request finishes when it is completed. -/
def Shared.pipeline (sh : Shared n) : Pipeline ReqId where
  pushed := pushedIds sh.log
  started := startedIds sh.log
  finished := { id | sh.Completed id }

/-- A step leaves the pipeline as it is, or is an act of it; and the start of a VH function is a barrier. -/
inductive Moves (sh sh' : Shared n) : Prop
  | stutter (h : sh'.pipeline = sh.pipeline) (hvh : ∀ id, .vhStart id ∈ sh'.log → .vhStart id ∈ sh.log)
  | act {a : Pipeline.Act ReqId} (h : sh.pipeline.Step a sh'.pipeline)
      (hvh : ∀ id, .vhStart id ∈ sh'.log → .vhStart id ∈ sh.log ∨ a = .barrier id)

/-- Only the requests and the log matter. -/
theorem Moves.congr {sh sh' sh₁ sh₁' : Shared n} (h : Moves sh sh') (hcomq : sh₁.comq = sh.comq) (hlog : sh₁.log = sh.log)
    (hcomq' : sh₁'.comq = sh'.comq) (hlog' : sh₁'.log = sh'.log) : Moves sh₁ sh₁' := by
  have hpipe : sh₁.pipeline = sh.pipeline := by simp only [Shared.pipeline, Shared.Completed, hcomq, hlog]
  have hpipe' : sh₁'.pipeline = sh'.pipeline := by simp only [Shared.pipeline, Shared.Completed, hcomq', hlog']
  cases h with
  | stutter h hvh => exact .stutter (by rw [hpipe, hpipe', h]) (by rwa [hlog, hlog'])
  | act h hvh => exact .act (by rwa [hpipe, hpipe']) (by rwa [hlog, hlog'])

theorem Shared.pipeline_ext {sh sh' : Shared n} (hpush : pushedIds sh'.log = pushedIds sh.log)
    (hstart : startedIds sh'.log = startedIds sh.log) (hdone : ∀ id, sh'.Completed id ↔ sh.Completed id) :
    sh'.pipeline = sh.pipeline := by
  simp only [Shared.pipeline, Pipeline.mk.injEq]
  exact ⟨hpush, hstart, Set.ext hdone⟩

theorem Quiet.completed {sh sh' : Shared n} (h : Quiet sh sh') (id : ReqId) : sh'.Completed id ↔ sh.Completed id := by
  rw [Shared.Completed, Shared.Completed, CommQueue.completionIds, h.completion, h.deliveredIds, h.discardedIds]
  rfl

/-- A result that is taken stays completed. -/
theorem Shared.completed_take {sh : Shared n} {t : Tid n} {id : ReqId} {c : Command}
    (hentry : (id, c) ∈ sh.comq.completion.entries) (x : ReqId) : (sh.take t id).Completed x ↔ sh.Completed x := by
  have hkey : id ∈ sh.comq.completionIds := BlockingMap.mem_keys_of_entry hentry
  have hdel : deliveredIds (sh.take t id).log = deliveredIds sh.log ++ [id] := by
    simp [deliveredIds, Shared.take, Event.deliveredId]
  have hdis : discardedIds (sh.take t id).log = discardedIds sh.log := by
    simp [discardedIds, Shared.take, Event.discardedId]
  have hcomp : x ∈ (sh.take t id).comq.completionIds ↔ x ∈ sh.comq.completionIds ∧ x ≠ id := BlockingMap.mem_keys_erase
  rw [Shared.Completed, hcomp, hdel, hdis, List.mem_append, List.mem_singleton, Shared.Completed]
  by_cases hx : x = id
  · subst hx
    simp [hkey]
  · simp [hx]

theorem Peeked.completed {t : Tid n} {sh sh' : Shared n} (h : Peeked t sh sh') (id : ReqId) :
    sh'.Completed id ↔ sh.Completed id := by
  cases h with
  | quiet h => exact h.completed id
  | take hentry h => exact (h.completed id).trans (Shared.completed_take hentry id)

theorem Quiet.moves {sh sh' : Shared n} (h : Quiet sh sh') : Moves sh sh' :=
  .stutter (Shared.pipeline_ext h.pushedIds h.startedIds h.completed) fun _ hmem => (h.mem_log rfl).mp hmem

theorem Peeked.moves {t : Tid n} {sh sh' : Shared n} (h : Peeked t sh sh') : Moves sh sh' := by
  refine .stutter (Shared.pipeline_ext h.order.1 h.order.2.1 h.completed) fun id hmem => ?_
  cases h with
  | quiet h => exact (h.mem_log rfl).mp hmem
  | take hentry h => simpa [Shared.take] using (h.mem_log rfl).mp hmem

/-- An event that is neither a push nor the start or the end of a request. -/
theorem Moves.of_event {sh sh' : Shared n} {e : Event n} (hlog : sh'.log = sh.log ++ [e]) (hpush : e.pushedId = none)
    (hstart : e.startedId = none) (hdel : e.deliveredId = none) (hdis : e.discardedId = none)
    (hcomp : sh'.comq.completion = sh.comq.completion) : Moves sh sh' := by
  refine .stutter (Shared.pipeline_ext ?_ ?_ fun id => ?_) fun id hmem => ?_
  · rw [hlog, pushedIds_append_of_none _ hpush]
  · rw [hlog, startedIds_append_of_none _ hstart]
  · simp [Shared.Completed, CommQueue.completionIds, hcomp, hlog, deliveredIds, discardedIds, hdel, hdis]
  · rw [hlog, List.mem_append, List.mem_singleton] at hmem
    refine hmem.resolve_right fun heq => ?_
    rw [← heq] at hstart
    cases hstart

/-- A step that starts the next request. -/
theorem Shared.pipeline_start {sh sh' : Shared n} {e : Event n} {id : ReqId} (hlog : sh'.log = sh.log ++ [e])
    (hstart : e.startedId = some id) (hcomp : sh'.comq.completion = sh.comq.completion) :
    sh'.pipeline = { sh.pipeline with started := sh.pipeline.started ++ [id] } := by
  have hnone : e.pushedId = none ∧ e.deliveredId = none ∧ e.discardedId = none := by
    cases e <;> first | exact ⟨rfl, rfl, rfl⟩ | cases hstart
  simp only [Shared.pipeline, Pipeline.mk.injEq]
  refine ⟨?_, ?_, Set.ext fun x => ?_⟩
  · rw [hlog, pushedIds_append_of_none _ hnone.1]
  · rw [hlog, startedIds_append, hstart]
    rfl
  · simp [Shared.Completed, CommQueue.completionIds, hcomp, hlog, deliveredIds, discardedIds, hnone.2.1, hnone.2.2]

/-- A step that completes a request. -/
theorem Moves.of_finish {sh sh' : Shared n} {id : ReqId} (hid : id ∈ startedIds sh.log)
    (hpush : pushedIds sh'.log = pushedIds sh.log) (hstart : startedIds sh'.log = startedIds sh.log)
    (hdone : ∀ x, sh'.Completed x ↔ x = id ∨ sh.Completed x)
    (hvh : ∀ x, .vhStart x ∈ sh'.log → .vhStart x ∈ sh.log) : Moves sh sh' := by
  have hpipe : sh'.pipeline = { sh.pipeline with finished := insert id sh.pipeline.finished } := by
    simp only [Shared.pipeline, Pipeline.mk.injEq]
    exact ⟨hpush, hstart, Set.ext hdone⟩
  refine .act (a := .finish id) ?_ fun x hx => .inl (hvh x hx)
  rw [hpipe]
  exact .finish hid

/-- A step that takes the next request from the queue for good, and starts no VH function. -/
theorem Moves.of_start {sh sh' : Shared n} {e : Event n} {id : ReqId} {rest : List ReqId}
    (hnext : pushedIds sh.log = startedIds sh.log ++ id :: rest) (hlog : sh'.log = sh.log ++ [e])
    (hstart : e.startedId = some id) (hne : e ≠ .vhStart id) (hcomp : sh'.comq.completion = sh.comq.completion) :
    Moves sh sh' := by
  refine .act (a := .start id) ?_ fun x hx => .inl ?_
  · rw [Shared.pipeline_start hlog hstart hcomp]
    exact .start hnext
  · rw [hlog, List.mem_append, List.mem_singleton] at hx
    refine hx.resolve_right fun heq => ?_
    rw [← heq] at hstart hne
    cases hstart
    exact hne rfl

theorem PassEffect.moves {x : Bool} {t : Tid n} {p : PassPc} {sh sh' : Shared n} {out : PassOut}
    (h : PassEffect x t sh p sh' out)
    (hnext : pushedIds sh.log = startedIds sh.log ++ (undecidedIds (some p) ++ sh.comq.requestIds))
    (hhand : ∀ cmd, p.hand = some cmd → p.undecided = none → cmd.msgid ∈ startedIds sh.log)
    (hdone : x = true → sh.comq.inflight.isEmpty = true → p.undecided ≠ none → ∀ id ∈ startedIds sh.log, sh.Completed id) :
    Moves sh sh' := by
  cases h with
  | quiet _ _ _ hq => exact hq.moves
  | throws | popInFlight | popRequest | defer | pushInFlight | pushRequestFront =>
    exact .stutter rfl fun _ hmem => hmem
  | cancelInflight => exact .of_event rfl rfl rfl rfl rfl rfl
  | unpack hpeek => exact hpeek.moves
  | @complete p p' cmd cmd' hp hp' hcmd =>
    have hpc : p.hand = some cmd ∧ p.undecided = none := by
      obtain ⟨failed, rfl, -⟩ | rfl | rfl | rfl | rfl := hp <;> exact ⟨rfl, rfl⟩
    refine .of_finish (hhand cmd hpc.1 hpc.2) rfl rfl (fun id => ?_) fun _ hmem => hmem
    simp only [Shared.Completed, CommQueue.completionIds, CommQueue.pushCompletion, BlockingMap.mem_keys_insert,
      hcmd.msgid, or_assoc]
  | @discard cmd failed p' hnowait hp' =>
    refine .of_finish (hhand cmd rfl rfl) (pushedIds_append_of_none _ rfl) (startedIds_append_of_none _ rfl)
      (fun id => ?_) fun id hmem => ?_
    · simp only [Shared.Completed, Shared.emit, deliveredIds, discardedIds, List.filterMap_append, List.filterMap_cons,
        List.filterMap_nil, Event.deliveredId, Event.discardedId, List.append_nil, List.mem_append, List.mem_singleton]
      rw [or_comm (a := id = cmd.msgid), or_assoc, or_assoc]
    · simpa [Shared.emit] using hmem
  | @cancelRequest cmd rest hreq =>
    have hids : undecidedIds (some .cancelRequest) ++ sh.comq.requestIds = cmd.msgid :: rest.map Command.msgid := by
      simp only [CommQueue.requestIds, hreq, List.map_cons]
      rfl
    rw [hids] at hnext
    exact .of_start hnext rfl rfl (fun h => by cases h) rfl
  | @startVH cmd hvh hempty hexec =>
    have hpipe : (sh.emit (.vhStart cmd.msgid)).pipeline =
        { sh.pipeline with started := sh.pipeline.started ++ [cmd.msgid] } := Shared.pipeline_start rfl rfl rfl
    refine .act (a := .barrier cmd.msgid) ?_ fun id hmem => ?_
    · rw [hpipe]
      exact .barrier hnext (hdone hexec hempty (fun h => by cases h))
    · rw [Shared.emit, List.mem_append, List.mem_singleton] at hmem
      refine hmem.imp_right fun heq => ?_
      cases heq
      rfl
  | submit => exact .of_start hnext rfl rfl (fun h => by cases h) rfl
  | reject => exact .of_start hnext rfl rfl (fun h => by cases h) rfl

theorem ExecEffect.moves {t : Tid n} {sh sh' : Shared n} {r : Regs} {i : Instr} {a : Api} (h : ExecEffect t sh r i sh' a)
    (hfresh : ∀ cmd, r.cur = some cmd → cmd.msgid ∉ pushedIds sh.log) : Moves sh sh' := by
  cases h with
  | quiet hq => exact hq.moves
  | issue hi hq => exact hq.moves.congr rfl rfl rfl rfl
  | nowait hcmd hq =>
    refine .stutter (Shared.pipeline_ext ?_ ?_ fun id => (hq.completed id).trans ?_) fun id hmem => ?_
    · exact hq.pushedIds.trans (pushedIds_append_of_none _ rfl)
    · exact hq.startedIds.trans (startedIds_append_of_none _ rfl)
    · simp [Shared.Completed, Shared.emit, deliveredIds, discardedIds, Event.deliveredId, Event.discardedId]
    · simpa [Shared.emit] using (hq.mem_log rfl).mp hmem
  | @push code r' cmd hi hcmd hcur =>
    refine .act (a := .push cmd.msgid) ?_ fun id hmem => .inl (by simpa using hmem)
    have hpipe : ({ sh with
        comq := sh.comq.pushRequest cmd
        log := sh.log ++ [.push t sh.holds cmd.msgid cmd.closure] } : Shared n).pipeline =
        { sh.pipeline with pushed := sh.pipeline.pushed ++ [cmd.msgid] } := by
      simp only [Shared.pipeline, Pipeline.mk.injEq]
      refine ⟨pushedIds_append _ _, startedIds_append_of_none _ rfl, Set.ext fun id => ?_⟩
      simp [Shared.Completed, CommQueue.completionIds, CommQueue.pushRequest, deliveredIds, discardedIds,
        Event.deliveredId, Event.discardedId]
    rw [hpipe]
    exact .push (hfresh cmd hcmd)
  | lock => exact .stutter rfl fun _ hmem => hmem
  | take hentry hq => exact (Peeked.take hentry hq).moves

/-- A request that a thread holds was not pushed. -/
theorem Tracked.not_mem_pushed {s : State n} (h : Tracked s) {t : Tid n} {cmd : Command} (hcmd : (s.api t).regs.cur = some cmd) :
    cmd.msgid ∉ pushedIds s.sh.log := by
  have hnodup : ((pushedIds s.sh.log : Multiset ReqId) + s.heldIds).Nodup := by
    rw [h.ordered.held]
    exact Multiset.nodup_range _
  intro hmem
  refine Multiset.disjoint_left.mp (Multiset.nodup_add.mp hnodup).2.2 (show cmd.msgid ∈ _ from hmem) ?_
  refine Multiset.mem_sum.mpr ⟨t, Finset.mem_univ t, ?_⟩
  rw [hcmd]
  exact Multiset.mem_singleton_self _

theorem moves_step {s s' : State n} {l : Label n} (h : Tracked s) (hstep : s.step l = some s') : Moves s.sh s'.sh := by
  cases cursorStep h.basic hstep with
  | @pass x t p env sh out b hp hpass hsh hcur hvh hx =>
    have hmoves : Moves s.sh sh := by
      refine (passStep_effect hpass).moves ?_ (fun cmd hcmd hund => ?_) fun hexec hempty hund id hid => ?_
      · rw [← hp]
        exact h.ordered.pushed
      · exact h.started_iff.mpr (.inr (.inl (.inl ⟨p, cmd, hp, hund, hcmd, rfl⟩)))
      · -- A VH function starts with nothing in flight, no other one running and nothing decided in the hand.
        rcases h.started_iff.mp hid with hmem | (⟨p', cmd, hp', hnone, -⟩ | ⟨cmd, hcmd, -⟩) | hmem
        · rw [CommQueue.inflightIds, BlockingMap.isEmpty_iff_values.mp hempty] at hmem
          cases hmem
        · rw [hp] at hp'
          cases hp'
          exact absurd hnone hund
        · rw [hx hexec] at hcmd
          cases hcmd
        · exact hmem
    rw [hsh]
    exact hmoves.congr rfl rfl rfl rfl
  | vhReturn hmain hcmd hsh =>
    rw [hsh]
    exact .of_event rfl rfl rfl rfl rfl rfl
  | exec hcode heff => exact heff.moves fun cmd hcmd => h.not_mem_pushed hcmd
  | quiet hq => exact hq.moves.congr rfl rfl rfl rfl

/-- What is completed stays so. -/
theorem Moves.completed {sh sh' : Shared n} (h : Moves sh sh') {id : ReqId} (hid : sh.Completed id) : sh'.Completed id := by
  have hfin : id ∈ sh.pipeline.finished := hid
  cases h with
  | stutter h =>
    rw [← h] at hfin
    exact hfin
  | act h =>
    suffices hmem : id ∈ sh'.pipeline.finished from hmem
    generalize sh'.pipeline = p' at h
    cases h with
    | push | start | barrier => exact hfin
    | finish => exact Set.mem_insert_of_mem _ hfin

/-- Every state that a context reaches is one of the abstract pipeline. -/
theorem pipeline_run {C : Machine.Cond (State n) (Label n)} {s : State n} (h : (context n).Reachable C s) :
    Pipeline.Run s.sh.pipeline := by
  refine h.invariant (I := fun s => Pipeline.Run s.sh.pipeline) ?_ fun s₀ l s₁ hr hstep _ hs => ?_
  · intro s₀ h0
    have hnew : (State.new n).sh.pipeline = Pipeline.empty := by
      simp only [Shared.pipeline, Pipeline.empty, Pipeline.mk.injEq]
      refine ⟨rfl, rfl, Set.eq_empty_iff_forall_notMem.mpr fun id hid => ?_⟩
      rcases hid with hmem | hmem | hmem <;> cases hmem
    rw [h0, hnew]
    exact .empty
  · cases moves_step (Tracked.of_reachable hr) hstep with
    | stutter heq => rwa [heq]
    | act hact => exact .step hs hact

/-- When a VH function starts, every request pushed before its command is completed. -/
theorem completed_of_vhStart {C : Machine.Cond (State n) (Label n)} {s s' : State n} {l : Label n}
    (h : (context n).Reachable C s) (hstep : s.step l = some s') {id x : ReqId} (hnew : .vhStart id ∈ s'.sh.log)
    (hold : .vhStart id ∉ s.sh.log) (hx : Pipeline.Precedes (pushedIds s.sh.log) x id) : s.sh.Completed x := by
  cases moves_step (Tracked.of_reachable h) hstep with
  | stutter _ hvh => exact absurd (hvh id hnew) hold
  | act hact hvh =>
    obtain rfl := (hvh id hnew).resolve_left hold
    exact (pipeline_run h).precedes_barrier hact hx

end Aveo

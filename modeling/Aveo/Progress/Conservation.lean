import Aveo.Progress.Commands
import Mathlib.Algebra.BigOperators.Group.Finset.Basic
import Mathlib.Data.Fintype.Option
import Mathlib.Data.Multiset.Range

/-!
# Requests are neither lost nor duplicated

Every request ID that was issued is with the thread that submits it, in the request queue, in the hand
of a pass, in flight, completed, or delivered; only a command flagged not to keep its result is dropped
after its reply. All places together hold each issued ID exactly once. The steps are treated by
components: an instruction and a step of a pass each move at most one ID, and the two maps take a
command because its key is free.
-/

namespace Aveo

open Lib

variable {n : Nat}

/-- The request ID of a command that may be in a hand. -/
def handIds : Option Command → Multiset ReqId
  | none => 0
  | some cmd => {cmd.msgid}

@[simp] theorem handIds_none : handIds none = 0 := rfl

@[simp] theorem handIds_some (cmd : Command) : handIds (some cmd) = {cmd.msgid} := rfl

/-- The request IDs in the queue, delivered, and dropped. -/
def Shared.ids (sh : Shared n) : Multiset ReqId :=
  sh.comq.ids + (deliveredIds sh.log : Multiset ReqId) + (discardedIds sh.log : Multiset ReqId)

theorem Quiet.shared_ids {sh sh' : Shared n} (h : Quiet sh sh') : sh'.ids = sh.ids := by
  simp only [Shared.ids, h.ids, h.deliveredIds, h.discardedIds]

theorem Shared.ids_take {sh : Shared n} {t : Tid n} {id : ReqId} {c : Command}
    (hentry : (id, c) ∈ sh.comq.completion.entries) : (sh.take t id).ids = sh.ids := by
  have hdel : deliveredIds (sh.take t id).log = deliveredIds sh.log ++ [id] := by
    simp [deliveredIds, Shared.take, Event.deliveredId]
  have hdis : discardedIds (sh.take t id).log = discardedIds sh.log := by
    simp [discardedIds, Shared.take, Event.discardedId]
  rw [Shared.ids, Shared.ids, hdel, hdis, CommQueue.ids_peekCompletion hentry, ← Multiset.coe_add,
    Multiset.coe_singleton, ← Multiset.singleton_add]
  simp only [Shared.take]
  ac_rfl

theorem Peeked.shared_ids {t : Tid n} {sh sh' : Shared n} (h : Peeked t sh sh') : sh'.ids = sh.ids := by
  cases h with
  | quiet h => exact h.shared_ids
  | take hentry h => rw [h.shared_ids, Shared.ids_take hentry]

/-- An event that neither delivers nor drops a request leaves the count to the queue. -/
theorem Shared.ids_of_log (sh : Shared n) {sh' : Shared n} {e : Event n} (hlog : sh'.log = sh.log ++ [e])
    (hdel : e.deliveredId = none) (hdis : e.discardedId = none) :
    sh'.ids = sh'.comq.ids + (deliveredIds sh.log : Multiset ReqId) + (discardedIds sh.log : Multiset ReqId) := by
  simp [Shared.ids, deliveredIds, discardedIds, hlog, hdel, hdis]

/-- A queue that changed by one request, with the log unchanged. -/
theorem Shared.ids_cons {sh : Shared n} {q : CommQueue} {id : ReqId} (h : q.ids = id ::ₘ sh.comq.ids) :
    ({ sh with comq := q } : Shared n).ids = {id} + sh.ids := by
  simp only [Shared.ids, h, ← Multiset.singleton_add, add_assoc]

theorem Shared.cons_ids (sh : Shared n) {q : CommQueue} {id : ReqId} (h : sh.comq.ids = id ::ₘ q.ids) :
    sh.ids = {id} + ({ sh with comq := q } : Shared n).ids := by
  simp only [Shared.ids, h, ← Multiset.singleton_add, add_assoc]

/-- A step of a pass keeps the request IDs in its hand and in the shared state together. -/
theorem passStep_ids {x : Bool} {t : Tid n} {sh sh' : Shared n} {p : PassPc} {out : PassOut}
    (h : PassEffect x t sh p sh' out)
    (hkey : ∀ cmd, p = .submitted cmd → cmd.urpcReq ∉ sh.comq.inflight.keys)
    (hfree : ∀ cmd, p.hand = some cmd → cmd.msgid ∉ sh.comq.completionIds) :
    handIds out.hand + sh'.ids = handIds p.hand + sh.ids := by
  cases h with
  | quiet hp hout _ h => rw [hp, hout, h.shared_ids]
  | throws => rfl
  | popInFlight hentry =>
    rw [Shared.cons_ids sh (CommQueue.ids_popInFlight hentry)]
    simp [PassOut.hand, PassPc.hand]
  | cancelInflight hentry =>
    rw [Shared.ids_of_log sh rfl rfl rfl, Shared.ids, CommQueue.ids_popInFlight hentry]
    simp only [PassOut.hand, PassPc.hand, handIds_none, handIds_some, zero_add, ← Multiset.singleton_add, add_assoc]
  | unpack h hcmd =>
    simp only [PassOut.hand, PassPc.hand, handIds_some, hcmd.msgid, h.shared_ids]
  | @complete p p' cmd cmd' hp hp' hcmd =>
    have hhand : p.hand = some cmd := by
      obtain ⟨failed, rfl, -⟩ | rfl | rfl | rfl | rfl := hp <;> rfl
    have hids := CommQueue.ids_pushCompletion (q := sh.comq) (by rw [hcmd.msgid]; exact hfree _ hhand)
    rw [hhand, PassOut.hand, hp', handIds_none, zero_add, handIds_some, ← hcmd.msgid]
    exact Shared.ids_cons hids
  | discard hnowait hp' =>
    rw [PassOut.hand, hp', handIds_none, zero_add]
    simp only [PassPc.hand, handIds_some, Shared.ids, Shared.emit, deliveredIds, discardedIds, List.filterMap_append,
      List.filterMap_cons, List.filterMap_nil, Event.deliveredId, Event.discardedId, List.append_nil,
      ← Multiset.coe_add, Multiset.coe_singleton]
    ac_rfl
  | popRequest hreq =>
    rw [Shared.cons_ids sh (CommQueue.ids_popRequest hreq)]
    simp [PassOut.hand, PassPc.hand]
  | cancelRequest hreq =>
    rw [Shared.ids_of_log sh rfl rfl rfl, Shared.ids, CommQueue.ids_popRequest hreq]
    simp only [PassOut.hand, PassPc.hand, handIds_none, handIds_some, zero_add, ← Multiset.singleton_add, add_assoc]
  | startVH hvh hempty hexec =>
    rw [Shared.ids_of_log sh rfl rfl rfl]
    rfl
  | submit hvh hreq =>
    rw [Shared.ids_of_log sh rfl rfl rfl]
    rfl
  | reject hvh hcmd =>
    rw [Shared.ids_of_log sh rfl rfl rfl]
    simp only [PassOut.hand, PassPc.hand, handIds_some, hcmd.msgid]
    rfl
  | defer => rfl
  | @pushInFlight cmd =>
    simp only [PassOut.hand, PassPc.hand, handIds_none, handIds_some, zero_add]
    exact Shared.ids_cons (CommQueue.ids_pushInFlight (hkey cmd rfl))
  | pushRequestFront hout =>
    have hnone : out.hand = none := by rcases hout with rfl | rfl <;> rfl
    rw [hnone, handIds_none, zero_add]
    exact Shared.ids_cons CommQueue.ids_pushRequestFront

/-- An instruction keeps the request IDs of its thread and of the shared state together, up to the ID
that it issues. -/
theorem exec_ids {t : Tid n} {sh sh' : Shared n} {r : Regs} {i : Instr} {rest : List Instr} {a : Api}
    (hs : Shaped r.held r.guards (i :: rest)) (h : ExecEffect t sh r i sh' a) :
    handIds a.regs.cur + handIds a.phase.hand + sh'.ids + Multiset.range sh.seqNo =
      handIds r.cur + sh.ids + Multiset.range sh'.seqNo := by
  cases h with
  | quiet h hcur => simp only [hcur, h.shared_ids, h.seqNo, Phase.hand, handIds_none, add_zero]
  | issue hi h hcur =>
    have hnone := Regs.held_eq_none.mp (hi ▸ hs).held_of_issue
    simp only [hcur, hnone, h.shared_ids, h.seqNo, Phase.hand, handIds_none, handIds_some, add_zero, zero_add,
      Multiset.range_succ, ← Multiset.singleton_add, Command.new]
    change {sh.seqNo} + sh.ids + Multiset.range sh.seqNo = sh.ids + ({sh.seqNo} + Multiset.range sh.seqNo)
    ac_rfl
  | nowait hcmd h hcur =>
    simp only [hcur, hcmd, h.shared_ids, h.seqNo, Phase.hand, handIds_none, handIds_some, add_zero]
    rw [Shared.ids_of_log sh rfl rfl rfl]
    rfl
  | push hi hcmd hcur =>
    rw [Shared.ids_of_log sh rfl rfl rfl]
    simp only [hcur, hcmd, CommQueue.ids_pushRequest, Phase.hand, handIds_none, handIds_some, zero_add, Shared.ids,
      ← Multiset.singleton_add, add_assoc]
  | lock hlock => simp only [Phase.hand, PassPc.hand, handIds_none, add_zero]; rfl
  | take hentry h hcur =>
    simp only [hcur, h.shared_ids, h.seqNo, Phase.hand, handIds_none, add_zero, Shared.ids_take hentry]
    rfl

/-! ### URPC requests in flight -/

/-- The keys of the map of commands in flight are URPC requests that were handed out, and the request of
a command that is about to enter it is not among them. -/
structure Keys (s : State n) : Prop where
  used : s.sh.comq.inflight.keys ⊆ s.sh.used
  submitted : ∀ cmd, s.cursor = some (.submitted cmd) →
    cmd.urpcReq ∈ s.sh.used ∧ cmd.urpcReq ∉ s.sh.comq.inflight.keys

namespace Keys

variable {s s' : State n}

theorem init : Keys (State.new n) := ⟨by simp [State.new, Shared.new, CommQueue.new], nofun⟩

theorem of_kept (h : Keys s) (hcur : CursorKept s s') (hinf : s'.sh.comq.inflight = s.sh.comq.inflight)
    (hused : s.sh.used ⊆ s'.sh.used) : Keys s' := by
  refine ⟨fun k hk => hused (h.used (hinf ▸ hk)), fun cmd hcmd => ?_⟩
  rcases hcur with heq | ⟨-, heq⟩
  · obtain ⟨hmem, hfree⟩ := h.submitted cmd (heq ▸ hcmd)
    exact ⟨hused hmem, hinf ▸ hfree⟩
  · rw [heq] at hcmd
    cases hcmd

/-- A step of a pass adds a key only when it puts its command in flight, and reaches that point only with
a request that was not handed out before. -/
theorem of_passEffect {x : Bool} {t : Tid n} {p : PassPc} {sh sh' : Shared n} {out : PassOut}
    (h : PassEffect x t sh p sh' out) :
    (∃ cmd, p = .submitted cmd ∧ out = .next .poll ∧ sh' = { sh with comq := sh.comq.pushInFlight cmd }) ∨
      sh'.comq.inflight.keys ⊆ sh.comq.inflight.keys ∧
        ∀ cmd, out = .next (.submitted cmd) → cmd.urpcReq ∈ sh'.used ∧ cmd.urpcReq ∉ sh.used := by
  cases h with
  | quiet hp hout _ hq =>
    refine .inr ⟨fun k hk => hq.inflight ▸ hk, ?_⟩
    rintro cmd rfl
    cases hout
  | throws => exact .inr ⟨List.Subset.refl _, nofun⟩
  | popInFlight | cancelInflight => exact .inr ⟨fun k hk => (BlockingMap.mem_keys_erase.mp hk).1, nofun⟩
  | unpack hpeek hcmd =>
    refine .inr ⟨fun k hk => ?_, nofun⟩
    cases hpeek with
    | quiet hq => exact hq.inflight ▸ hk
    | take hentry hq => exact (show _ = sh.comq.inflight from hq.inflight) ▸ hk
  | complete hp hp' =>
    refine .inr ⟨List.Subset.refl _, ?_⟩
    rintro cmd hout
    cases hout
    cases hp'
  | discard hnowait hp' =>
    refine .inr ⟨List.Subset.refl _, ?_⟩
    rintro cmd hout
    cases hout
    cases hp'
  | popRequest | cancelRequest | startVH | reject | defer => exact .inr ⟨List.Subset.refl _, nofun⟩
  | @submit cmd req hvh hreq =>
    refine .inr ⟨List.Subset.refl _, ?_⟩
    rintro cmd' hout
    cases hout
    simp only [Shared.accepts, Bool.and_eq_true, decide_eq_true_eq] at hreq
    exact ⟨List.mem_cons_self, hreq.1.1⟩
  | @pushInFlight cmd => exact .inl ⟨cmd, rfl, rfl, rfl⟩
  | pushRequestFront hout =>
    refine .inr ⟨List.Subset.refl _, ?_⟩
    rcases hout with rfl | rfl <;> exact nofun

theorem step (h : Keys s) (hstep : CursorStep s s') : Keys s' := by
  cases hstep with
  | @pass x t p env sh out b hp hpass hsh hcur =>
    have heff := passStep_effect hpass
    have hused : s.sh.used ⊆ s'.sh.used := by
      rw [hsh]
      exact (passStep_frame hpass).used
    rcases of_passEffect heff with ⟨cmd, rfl, rfl, rfl⟩ | ⟨hkeys, hsub⟩
    · obtain ⟨hmem, hfree⟩ := h.submitted cmd hp
      have hnext : s'.cursor = some .poll := hcur.resolve_right fun hthrow => nomatch hthrow.1
      refine ⟨fun k hk => ?_, fun cmd' hcmd' => ?_⟩
      · rw [hsh] at hk
        rcases BlockingMap.mem_keys_insert.mp hk with rfl | hk
        · exact hused hmem
        · exact hused (h.used hk)
      · rw [hnext] at hcmd'
        cases hcmd'
    · refine ⟨fun k hk => hused (h.used (hkeys (by rwa [hsh] at hk))), fun cmd hcmd => ?_⟩
      rcases hcur with hcur | ⟨rfl, hcur⟩
      · rw [hcur] at hcmd
        cases out with
        | next p' =>
          cases hcmd
          obtain ⟨hmem, hfresh⟩ := hsub cmd rfl
          rw [hsh]
          exact ⟨hmem, fun hk => hfresh (h.used (hkeys hk))⟩
        | ret | startVH | throws => cases hcmd
      · obtain ⟨req, m, rfl⟩ := heff.reply_of_throws
        rw [hcur, hp] at hcmd
        cases hcmd
  | vhReturn hmain hcmd hsh hcur hcur' =>
    refine ⟨?_, fun cmd hcmd => ?_⟩
    · rw [hsh]
      exact h.used
    · rw [hcur'] at hcmd
      cases hcmd
  | exec hcode heff hapi hcur =>
    exact h.of_kept hcur heff.inflight.1 heff.inflight.2
  | quiet hq hcur => exact h.of_kept hcur hq.inflight hq.used

end Keys

/-! ### The equation -/

/-- The request IDs with a thread: the command it submits and the one in the hand of its pass. -/
def Api.ids (a : Api) : Multiset ReqId := handIds a.regs.cur + handIds a.phase.hand

/-- All request IDs, wherever they are. -/
def State.ids (s : State n) : Multiset ReqId := ∑ t : Tid n, (s.api t).ids + handIds s.main.hand + s.sh.ids

/-- A sum over the threads after one of them changed. -/
theorem State.sum_setApi {α : Type} [AddCommMonoid α] (f : Api → α) (s : State n) (t : Tid n) (a : Api) :
    ∑ u, f ((s.setApi t a).api u) + f (s.api t) = ∑ u, f (s.api u) + f a := by
  have hrest : ∑ u ∈ Finset.univ.erase t, f ((s.setApi t a).api u) = ∑ u ∈ Finset.univ.erase t, f (s.api u) :=
    Finset.sum_congr rfl fun u hu => by rw [State.setApi_api_ne s a (Finset.ne_of_mem_erase hu)]
  rw [← Finset.add_sum_erase Finset.univ (fun u => f ((s.setApi t a).api u)) (Finset.mem_univ t),
    ← Finset.add_sum_erase Finset.univ (fun u => f (s.api u)) (Finset.mem_univ t), hrest, State.setApi_api_self]
  ac_rfl

/-- A step of a thread that keeps its own request IDs and those of the shared state together keeps all. -/
theorem State.ids_setApi {s : State n} {sh : Shared n} {t : Tid n} {a : Api} {d d' : Multiset ReqId}
    (h : a.ids + sh.ids + d = (s.api t).ids + s.sh.ids + d') :
    (({ s with sh := sh } : State n).setApi t a).ids + d = s.ids + d' := by
  have hsum := State.sum_setApi Api.ids { s with sh := sh } t a
  refine add_right_cancel (b := (s.api t).ids) ?_
  simp only [State.ids, State.setApi_sh, State.setApi_main] at hsum ⊢
  calc _ = (∑ u, ((({ s with sh := sh } : State n).setApi t a).api u).ids + (s.api t).ids) + handIds s.main.hand +
        (sh.ids + d) := by ac_rfl
    _ = (∑ u, (s.api u).ids) + handIds s.main.hand + (a.ids + sh.ids + d) := by rw [hsum]; ac_rfl
    _ = _ := by rw [h]; ac_rfl

theorem State.ids_setApi_eq {s : State n} {t : Tid n} {a : Api} (h : a.ids = (s.api t).ids) :
    (s.setApi t a).ids = s.ids := by
  have hset := @State.ids_setApi _ s s.sh t a 0 0 (congrArg (· + s.sh.ids + 0) h)
  simpa only [add_zero] using hset

theorem Shared.mem_ids_of_completion {sh : Shared n} {id : ReqId} (h : id ∈ sh.comq.completionIds) : id ∈ sh.ids := by
  simp only [Shared.ids, CommQueue.ids, Multiset.mem_add, Multiset.mem_coe]
  exact .inl (.inl (.inr h))

/-- A request ID with a thread or in the hand of the progress thread is not completed. -/
theorem State.not_mem_completion {s : State n} (hnodup : s.ids.Nodup) {id : ReqId}
    (hid : id ∈ ∑ t : Tid n, (s.api t).ids + handIds s.main.hand) : id ∉ s.sh.comq.completionIds := by
  intro hmem
  obtain ⟨-, -, hdisj⟩ := Multiset.nodup_add.mp hnodup
  exact Multiset.disjoint_left.mp hdisj hid (Shared.mem_ids_of_completion hmem)

theorem State.mem_sum_ids {s : State n} {t : Tid n} {id : ReqId} (h : id ∈ (s.api t).ids) :
    id ∈ ∑ u : Tid n, (s.api u).ids :=
  Multiset.mem_sum.mpr ⟨t, Finset.mem_univ t, h⟩

/-- A thread in no call has no request ID. -/
theorem Api.ids_of_idle {a : Api} (hs : a.Shaped) (hphase : a.phase = .run) (hcode : a.code = []) : a.ids = 0 := by
  have hcur : a.regs.cur = none := by
    have hshape := hs.code
    rw [hcode] at hshape
    exact Regs.held_eq_none.mp hshape.of_nil.1
  simp [Api.ids, hcur, hphase, Phase.hand]

theorem Api.ids_start (c : Call) (mark : Nat) : (⟨.run, c.code, c.regs mark⟩ : Api).ids = 0 := by
  have hcur : (c.regs mark).cur = none := by cases c <;> rfl
  simp [Api.ids, hcur, Phase.hand]

/-- A call keeps the command it submits over a step of its pass. -/
theorem Api.ids_afterPass {a a' : Api} {t : Tid n} {k : After} {uncaught : Bool} {sh sh' : Shared n} {out : PassOut}
    (hs : a.Shaped) (hphase : a.phase ≠ .run) (hout : out = .throws → a.phase.hand = none)
    (h : a.afterPass t k uncaught sh out = some (sh', a')) : a'.ids + sh'.ids = handIds out.hand + sh.ids := by
  have hcur := hs.pass hphase
  cases out with
  | next p => cases h; simp only [Api.ids, hcur, handIds_none, zero_add]; rfl
  | ret rv => cases h; simp only [Api.ids, hcur, handIds_none, zero_add]; rfl
  | startVH cmd => cases h
  | throws =>
    simp only [Api.afterPass] at h
    split at h <;> cases h
    · simp only [Api.ids, hcur, hout rfl, handIds_none, add_zero]
      rfl
    · simp only [Api.ids, hcur, handIds_none, zero_add]
      rfl

theorem Api.afterPass_seqNo {a a' : Api} {t : Tid n} {k : After} {uncaught : Bool} {sh sh' : Shared n} {out : PassOut}
    (h : a.afterPass t k uncaught sh out = some (sh', a')) : sh'.seqNo = sh.seqNo := by
  cases out with
  | next | ret => cases h; rfl
  | startVH => cases h
  | throws =>
    simp only [Api.afterPass] at h
    split at h <;> cases h <;> rfl

/-- The request IDs that exist are the ones that were issued, each of them once. -/
structure Conserved (s : State n) : Prop where
  ids : s.ids = Multiset.range s.sh.seqNo
  keys : Keys s

namespace Conserved

variable {s s' : State n}

theorem init : Conserved (State.new n) := by
  refine ⟨?_, Keys.init⟩
  have hapi : ∀ t : Tid n, ((State.new n).api t).ids = 0 := fun _ => rfl
  simp only [State.ids, hapi, Finset.sum_const_zero, zero_add]
  rfl

theorem nodup (h : Conserved s) : s.ids.Nodup := by
  rw [h.ids]
  exact Multiset.nodup_range _

/-- The part of the equation that a step of a pass keeps. -/
theorem passStep (h : Conserved s) {x : Bool} {t : Tid n} {p : PassPc} {env : Env} {sh : Shared n} {out : PassOut}
    (hcur : s.cursor = some p) (hp : ∀ cmd, p.hand = some cmd → cmd.msgid ∈ ∑ u : Tid n, (s.api u).ids + handIds s.main.hand)
    (hpass : passStep x t s.sh p env = some (sh, out)) : handIds out.hand + sh.ids = handIds p.hand + s.sh.ids := by
  refine passStep_ids (passStep_effect hpass) ?_ fun cmd hcmd => State.not_mem_completion h.nodup (hp cmd hcmd)
  rintro cmd rfl
  exact (h.keys.submitted cmd hcur).2

theorem ids_step (hB : Basic s) (h : Conserved s) {l : Label n} (hstep : StepCase s l s') :
    s'.ids + Multiset.range s.sh.seqNo = s.ids + Multiset.range s'.sh.seqNo := by
  have hmain : ∀ {sh : Shared n} {main : Main}, sh.seqNo = s.sh.seqNo →
      handIds main.hand + sh.ids = handIds s.main.hand + s.sh.ids →
      ({ s with sh := sh, main := main } : State n).ids + Multiset.range s.sh.seqNo = s.ids + Multiset.range sh.seqNo := by
    intro sh main hseq heq
    simp only [State.ids, add_assoc, hseq, heq]
  have hidle : s.main.isVH = false → (s.api none).ids = 0 := fun hvh =>
    Api.ids_of_idle (hB.shaped none) (hB.calm hvh).1 (hB.calm hvh).2
  cases hstep with
  | out hout hout' hq =>
    refine hmain hq.seqNo ?_
    rw [Main.hand_of_isOut hout, Main.hand_of_isOut hout', hq.shared_ids]
  | execLock hm hlock | execUnlock hm hlock =>
    refine hmain rfl ?_
    rw [hm]
    rfl
  | execTest hm hm' =>
    refine hmain rfl ?_
    rw [hm]
    rcases hm' with rfl | rfl <;> rfl
  | @pass p env sh out hm hpass =>
    have hvh : s.main.isVH = false := by rw [hm]; rfl
    have hcur : s.cursor = some p := State.cursor_of_passOf hB (by rw [passOf_none_main hB hvh, hm]; rfl)
    have hseq := (passStep_frame hpass).seqNo
    have hids := h.passStep hcur (fun cmd hcmd => by
      rw [hm, Main.hand, hcmd]
      exact Multiset.mem_add.mpr (.inr (Multiset.mem_singleton_self _))) hpass
    have hhand : handIds s.main.hand = handIds p.hand := by rw [hm]; rfl
    cases out with
    | next p' => exact hmain hseq (by rw [hhand, ← hids]; rfl)
    | ret rv => exact hmain hseq (by rw [hhand, ← hids]; rfl)
    | startVH cmd =>
      have hzero : ({ phase := .run, code := vhCode cmd.closure, regs := .new 0 } : Api).ids = (s.api none).ids :=
        (hidle hvh).symm
      rw [State.afterPass, State.ids_setApi_eq (s := { s with sh := sh, main := .vh cmd }) hzero]
      exact hmain hseq (by rw [hhand, ← hids]; rfl)
    | throws =>
      obtain ⟨req, m, rfl⟩ := (passStep_effect hpass).reply_of_throws
      have heq : ({ s with sh := { sh with terminated := true }, main := s.main } : State n).ids +
          Multiset.range s.sh.seqNo = s.ids + Multiset.range sh.seqNo := by
        refine hmain hseq ?_
        rw [hhand, ← hids]
        rfl
      exact heq
  | vhReturn hm hphase hcode =>
    refine hmain rfl ?_
    rw [hm, Shared.ids_of_log s.sh rfl rfl rfl]
    simp only [Main.hand, PassPc.hand, handIds_some, (sameCommand_vhResult _ _ _).msgid]
    rfl
  | @exec t env i rest sh a hphase hcode hexec =>
    refine State.ids_setApi ?_
    have hs := (hB.shaped t).code
    rw [hcode] at hs
    have hhand : (s.api t).phase.hand = none := by rw [hphase]; rfl
    rw [Api.ids, Api.ids, exec_ids hs (exec_effect hexec), hhand, handIds_none, add_zero]
    rfl
  | @apiPass t env p k sh sh' out a hphase hpass hout =>
    have hbusy : ¬((s.api t).phase = .run ∧ (s.api t).code = []) := by simp [hphase]
    have hcur : s.cursor = some p := by
      refine State.cursor_of_passOf hB (t := t) ?_
      rw [State.passOf_of_busy hB hbusy, hphase]
      rfl
    have hnone := (hB.shaped t).pass (by rw [hphase]; exact fun h => by cases h)
    have hapi : (s.api t).ids = handIds p.hand := by
      rw [Api.ids, hnone, hphase, handIds_none, zero_add]
      rfl
    have hids := h.passStep hcur (fun cmd hcmd => by
      refine Multiset.mem_add.mpr (.inl (State.mem_sum_ids (t := t) ?_))
      rw [hapi, hcmd]
      exact Multiset.mem_singleton_self _) hpass
    have hafter := Api.ids_afterPass (hB.shaped t) (by rw [hphase]; exact fun h => by cases h) (fun hthrow => by
      subst hthrow
      obtain ⟨req, m, rfl⟩ := (passStep_effect hpass).reply_of_throws
      rw [hphase]
      rfl) hout
    have hseq : sh'.seqNo = s.sh.seqNo := by
      rw [← (passStep_frame hpass).seqNo]
      exact Api.afterPass_seqNo hout
    have hset := @State.ids_setApi _ s _ t _ (Multiset.range s.sh.seqNo) (Multiset.range s.sh.seqNo)
      (congrArg (· + Multiset.range s.sh.seqNo) (hafter.trans (hids.trans (congrArg (· + s.sh.ids) hapi.symm))))
    rw [hset]
    exact congrArg (fun k => s.ids + Multiset.range k) hseq.symm
  | @unlock t env rv k m hphase hlock =>
    refine State.ids_setApi ?_
    simp only [Api.ids, hphase, Phase.hand]
    rfl
  | @call t c hphase hcode hmay =>
    rw [State.ids_setApi_eq]
    · rfl
    · rw [Api.ids_start, Api.ids_of_idle (hB.shaped t) hphase hcode]

theorem step (hB : Basic s) (h : Conserved s) {l : Label n} (hstep : s.step l = some s') : Conserved s' := by
  refine ⟨?_, h.keys.step (cursorStep hB hstep)⟩
  have hids := ids_step hB h (step_cases hstep)
  rw [h.ids, add_comm] at hids
  exact add_left_cancel hids

theorem of_reachable {C : Machine.Cond (State n) (Label n)} (h : (context n).Reachable C s) : Conserved s := by
  refine h.invariant (I := Conserved) ?_ fun s₀ l s₁ hr hstep _ hs => hs.step (Basic.of_reachable hr) hstep
  intro s₀ h0
  rw [h0]
  exact init

end Conserved

/-! ### Places -/

/-- The places where a request can be. The hand of a pass is the one of `progressExec`, which also holds the
command of a running VH function, or the one of a pass that a call makes. -/
inductive Place (n : Nat)
  | submitter (t : Tid n)
  | request
  | progressHand
  | callHand (t : Tid n)
  | inflight
  | completion
  | delivered
  deriving DecidableEq

def State.occupants (s : State n) : Place n → Multiset ReqId
  | .submitter t => handIds (s.api t).regs.cur
  | .request => s.sh.comq.requestIds
  | .progressHand => handIds s.main.hand
  | .callHand t => handIds (s.api t).phase.hand
  | .inflight => s.sh.comq.inflightIds
  | .completion => s.sh.comq.completionIds
  | .delivered => deliveredIds s.sh.log

theorem exists_eq_one_of_sum {ι : Type} [Fintype ι] [DecidableEq ι] {f : ι → Nat} (h : ∑ i, f i = 1) :
    ∃ i, f i = 1 ∧ ∀ j, j ≠ i → f j = 0 := by
  obtain ⟨i, -, hi⟩ : ∃ i ∈ Finset.univ, f i ≠ 0 := by
    by_contra hne
    have hzero : ∑ i, f i = 0 := Finset.sum_eq_zero fun i hi => by
      by_contra hfi
      exact hne ⟨i, hi, hfi⟩
    omega
  have hsplit := Finset.add_sum_erase Finset.univ f (Finset.mem_univ i)
  have hrest : ∑ j ∈ Finset.univ.erase i, f j = 0 := by omega
  refine ⟨i, by omega, fun j hj => ?_⟩
  exact Finset.sum_eq_zero_iff.mp hrest j (Finset.mem_erase.mpr ⟨hj, Finset.mem_univ j⟩)

/-- How often a request ID occurs, place by place. -/
theorem State.count_ids (s : State n) (id : ReqId) :
    s.ids.count id = ∑ t, ((s.occupants (.submitter t)).count id + (s.occupants (.callHand t)).count id) +
      (s.occupants .progressHand).count id + ((s.occupants .request).count id + (s.occupants .inflight).count id +
        (s.occupants .completion).count id + (s.occupants .delivered).count id + (discardedIds s.sh.log).count id) := by
  simp only [State.ids, Api.ids, Shared.ids, CommQueue.ids, Multiset.count_add, Multiset.count_sum', State.occupants,
    Multiset.coe_count]

theorem State.exists_place {s : State n} {id : ReqId} (hone : s.ids.count id = 1)
    (hdis : id ∉ discardedIds s.sh.log) :
    ∃ p, (s.occupants p).count id = 1 ∧ ∀ q, q ≠ p → (s.occupants q).count id = 0 := by
  rw [State.count_ids, List.count_eq_zero_of_not_mem hdis] at hone
  by_cases hthreads : ∑ t, ((s.occupants (.submitter t)).count id + (s.occupants (.callHand t)).count id) = 0
  · have hzero : ∀ t, (s.occupants (.submitter t)).count id = 0 ∧ (s.occupants (.callHand t)).count id = 0 := by
      intro t
      have ht := Finset.sum_eq_zero_iff.mp hthreads t (Finset.mem_univ t)
      omega
    have hfixed : ∀ p, (s.occupants p).count id = 1 → (∀ t, p ≠ .submitter t ∧ p ≠ .callHand t) →
        ∀ q, q ≠ p → (s.occupants q).count id = 0 := by
      intro p hp hne q hq
      cases q with
      | submitter t => exact (hzero t).1
      | callHand t => exact (hzero t).2
      | _ => cases p <;> first | omega | exact absurd rfl hq | exact absurd rfl (hne _).1 | exact absurd rfl (hne _).2
    obtain h | h | h | h | h : (s.occupants .progressHand).count id = 1 ∨ (s.occupants .request).count id = 1 ∨
        (s.occupants .inflight).count id = 1 ∨ (s.occupants .completion).count id = 1 ∨
        (s.occupants .delivered).count id = 1 := by omega
    all_goals exact ⟨_, h, hfixed _ h fun t => ⟨nofun, nofun⟩⟩
  · obtain ⟨t, ht, hother⟩ := exists_eq_one_of_sum (f := fun t =>
      (s.occupants (.submitter t)).count id + (s.occupants (.callHand t)).count id) (by omega)
    have hrest : ∀ q, (∀ u, q = .submitter u ∨ q = .callHand u → u = t → (s.occupants q).count id = 0) →
        (s.occupants q).count id = 0 := by
      intro q hq
      cases q with
      | submitter u =>
        by_cases hu : u = t
        · exact hq u (.inl rfl) hu
        · have := hother u hu
          omega
      | callHand u =>
        by_cases hu : u = t
        · exact hq u (.inr rfl) hu
        · have := hother u hu
          omega
      | _ => omega
    obtain h | h : (s.occupants (.submitter t)).count id = 1 ∨ (s.occupants (.callHand t)).count id = 1 := by omega
    · refine ⟨_, h, fun q hq => hrest q ?_⟩
      rintro u (rfl | rfl) rfl
      · exact absurd rfl hq
      · omega
    · refine ⟨_, h, fun q hq => hrest q ?_⟩
      rintro u (rfl | rfl) rfl
      · omega
      · exact absurd rfl hq

/-- In every state that a context can reach, a request ID that was issued, and whose command is not flagged to
drop its result, is in exactly one place, and there once. -/
theorem request_in_one_place {s : State n} (h : (context n).Reachable Machine.anyStep s) {id : ReqId}
    (hissued : id < s.sh.seqNo) (hkept : .nowait id ∉ s.sh.log) :
    ∃ p, (s.occupants p).count id = 1 ∧ ∀ q, q ≠ p → id ∉ s.occupants q := by
  have hcons := Conserved.of_reachable h
  have hone : s.ids.count id = 1 := by
    rw [hcons.ids]
    exact Multiset.count_eq_one_of_mem (Multiset.nodup_range _) (Multiset.mem_range.mpr hissued)
  have hdis : id ∉ discardedIds s.sh.log := fun hmem => hkept ((Flagged.of_reachable h).discarded id (mem_discardedIds.mp hmem))
  obtain ⟨p, hp, hq⟩ := State.exists_place hone hdis
  exact ⟨p, hp, fun q hne => Multiset.count_eq_zero.mp (hq q hne)⟩

/-- A run in which the progress thread executes a VH request and a user thread takes the result. -/
def deliveryTrace : List (Label 1) :=
  List.flatten [[.call (some 0) .callVHAsync], List.replicate 7 (.api (some 0) .tau), List.replicate 6 (.main .tau),
    [.main (.vhReturn 0), .main .tau, .call (some 0) (.callWaitResult 0), .main .noSlot, .main .tau, .main .tau,
      .api (some 0) .tau, .api (some 0) .noSlot, .api (some 0) .tau, .api (some 0) .tau]]

theorem request_in_one_place_delivered :
    ∃ s : State 1, (context 1).Reachable Machine.anyStep s ∧ s.occupants .delivered = {0} ∧
      ∃ p, (s.occupants p).count 0 = 1 ∧ ∀ q, q ≠ p → 0 ∉ s.occupants q := by
  have hrun : ∃ s : State 1, (context 1).Reachable Machine.anyStep s ∧
      (s.sh.seqNo = 1 && deliveredIds s.sh.log = [0] && !s.sh.log.contains (.nowait 0)) = true :=
    Machine.exists_reachable_of_run (M := context 1) (s := State.new 1) deliveryTrace _ rfl (by decide +kernel)
  obtain ⟨s, hs, hp⟩ := hrun
  simp only [Bool.and_eq_true, decide_eq_true_eq, Bool.not_eq_true', List.contains_eq_mem] at hp
  refine ⟨s, hs, ?_, request_in_one_place hs (show 0 < s.sh.seqNo by omega) (by simpa using hp.2)⟩
  rw [State.occupants, hp.1.2]
  rfl

end Aveo

import Aveo.Progress.Captured
import Aveo.Progress.Concurrent

/-!
# The status that goes along a chain of fragments

The result function of a fragment retrieves the result of the fragment before it and hands its status on. An observer
records the calls with the request IDs they issue and return, and the replies that result functions get. A fragment then
has the status OK as its result if and only if it and all fragments before it were submitted and had a good reply.
-/

namespace Aveo

open Lib

variable {n : Nat}

/-! ### The observer -/

/-- What an observer records: for each thread the call it is in with the request IDs issued so far, newest first; the calls
that returned, each with what it returned and the request IDs; and for each run of a result function the request and
whether the reply was a good one. -/
structure Observed (n : Nat) where
  current : Tid n → Option (Call × List ReqId)
  returns : List (Call × ReqId × List ReqId)
  replies : List (ReqId × Bool)

namespace Observed

def new (n : Nat) : Observed n := { current := fun _ => none, returns := [], replies := [] }

/-- The request whose result function a step runs, and whether it gets a good reply. -/
def replyOf (s s' : State n) : Option (ReqId × Bool) :=
  match s.cursor, s'.cursor with
  | some (.unpack cmd m), some (.received _ _) => some (cmd.msgid, cmd.closure.accepts m)
  | _, _ => none

/-- The request ID that a step of a thread issues. -/
def issueOf (s : State n) (t : Tid n) : Option ReqId :=
  match (s.api t).phase, (s.api t).code with
  | .run, .issue _ _ :: _ => some s.sh.seqNo
  | _, _ => none

/-- An exception leaves the call: a pass finds no command for a reply. -/
def threw (a a' : Api) : Bool :=
  match a.phase with
  | .inPass (.reply _ _) _ => a'.phase = .run
  | _ => false

/-- A step of a thread in a call, or the return from it. -/
def goOn (s : State n) (s' : State n) (t : Tid n) (c : Call) (ids : List ReqId) (o : Observed n) : Observed n :=
  if threw (s.api t) (s'.api t) then { o with current := Function.update o.current t none }
  else if (s'.api t).phase = .run ∧ (s'.api t).code = [] then
    { o with
      current := Function.update o.current t none
      returns := (c, (s'.api t).regs.req, (issueOf s t).toList ++ ids) :: o.returns }
  else { o with current := Function.update o.current t (some (c, (issueOf s t).toList ++ ids)) }

def recordCall (s : State n) (l : Label n) (s' : State n) (o : Observed n) : Observed n :=
  match l with
  | .main _ => o
  | .call t c => { o with current := Function.update o.current t (some (c, [])) }
  | .api t _ =>
      match o.current t with
      | none => o
      | some (c, ids) => goOn s s' t c ids o

def record (s : State n) (l : Label n) (s' : State n) (o : Observed n) : Observed n :=
  { recordCall s l s' o with replies := (replyOf s s').toList ++ o.replies }

end Observed

/-- A context with the observer. -/
def observedContext (n : Nat) : Machine (State n × Observed n) (Label n) := (context n).observe (.new n) Observed.record

/-! ### Requests that have their result -/

/-- A request has its result: its command is completed, or on the way to the completion map. -/
def State.Settled (s : State n) (a : ReqId) : Prop :=
  s.sh.Completed a ∨ ∃ p c, s.cursor = some p ∧ p.result = some c ∧ c.msgid = a

theorem State.Result.settled {s : State n} {a : ReqId} {c : Command} (h : s.Result a c) : s.Settled a :=
  h.imp completed_of_entry fun ⟨p, hp, hres, hid⟩ => ⟨p, c, hp, hres, hid⟩

/-- A step of a pass with a result in its hand completes the command. -/
theorem PassEffect.completes {x : Bool} {t : Tid n} {p : PassPc} {sh sh' : Shared n} {out : PassOut}
    (h : PassEffect x t sh p sh' out) {c : Command} (hres : p.result = some c) : sh'.Completed c.msgid ∧ out.hand = none := by
  cases h with
  | quiet hp =>
    obtain ⟨cmd, hcmd, -⟩ := PassPc.hand_of_result hres
    cases hp.symm.trans hcmd
  | complete _ hp' _ hres' =>
    cases hres.symm.trans hres'
    refine ⟨.inl ?_, hp'⟩
    rw [CommQueue.completionIds, CommQueue.pushCompletion, BlockingMap.mem_keys_insert]
    exact .inl rfl
  | discard _ hp' =>
    cases hres
    exact ⟨.inr (.inr (mem_discardedIds.mpr (List.mem_append_right _ List.mem_cons_self))), hp'⟩
  | _ => cases hres

theorem settled_step {C : Machine.Cond (State n) (Label n)} {s s' : State n} {l : Label n} (hr : (context n).Reachable C s)
    (hstep : s.step l = some s') {a : ReqId} (h : s.Settled a) : s'.Settled a := by
  have hT := Tracked.of_reachable hr
  obtain hdone | ⟨p, c, hp, hres, rfl⟩ := h
  · exact .inl ((moves_step hT hstep).completed hdone)
  have hkept : s'.cursor = s.cursor → s'.Settled c.msgid := fun hcur => .inr ⟨p, c, hcur ▸ hp, hres, rfl⟩
  cases cursorStep hT.basic hstep with
  | pass hp₁ hpass hsh =>
    cases hp.symm.trans hp₁
    left
    rw [hsh]
    exact ((passStep_effect hpass).completes hres).1
  | vhReturn _ _ _ hcur => cases hp.symm.trans hcur
  | exec _ _ _ hcur | quiet _ hcur => exact hcur.elim hkept fun hcur => by cases hp.symm.trans hcur.1

theorem Tracked.not_completed_of_cursor {s : State n} (h : Tracked s) {p : PassPc} {cmd : Command} (hp : s.cursor = some p)
    (hcmd : p.hand = some cmd) : ¬ s.sh.Completed cmd.msgid := by
  have hhand : (∃ t, (s.api t).phase.hand = some cmd) ∨ s.main.hand = some cmd :=
    (State.hand_of_cursor hp hcmd).imp_right fun hmain => by rw [hmain]; exact hcmd
  exact fun hdone => h.not_mem_shared_ids (Tracked.mem_hands hhand) (Tracked.mem_shared_ids.mpr (.inr (.inr hdone)))

/-- A request has no result when its result function runs. -/
theorem Tracked.not_settled_of_unpack {s : State n} (h : Tracked s) {cmd : Command} {m : Reply}
    (hp : s.cursor = some (.unpack cmd m)) : ¬ s.Settled cmd.msgid := by
  rintro (hdone | ⟨p, c, hp', hres, -⟩)
  · exact h.not_completed_of_cursor hp rfl hdone
  · cases hp.symm.trans hp'
    cases hres

/-- A result function gives its command a result. -/
theorem settled_of_unpack {x : Bool} {t : Tid n} {s s' : State n} {cmd : Command} {m : Reply} {env : Env} {sh : Shared n}
    {out : PassOut} (hpass : passStep x t s.sh (.unpack cmd m) env = some (sh, out))
    (hcur : s'.cursor = out.passPc ∨ out = .throws ∧ s'.cursor = s.cursor) : s'.Settled cmd.msgid := by
  cases passStep_effect hpass with
  | quiet hp => cases hp
  | complete _ _ _ hres => cases hres
  | unpack _ hcmd =>
    refine .inr ⟨_, _, hcur.resolve_right (by rintro ⟨hout, -⟩; cases hout), rfl, hcmd.msgid⟩

/-- A request that gets its result had none. -/
theorem not_settled_of_result {C : Machine.Cond (State n) (Label n)} {s s' : State n} {l : Label n} (hr : (context n).Reachable C s)
    (hr' : (context n).Reachable C s') (hstep : s.step l = some s') {a : ReqId} {c : Command} (h : s'.Result a c)
    (hnew : ¬ s.Result a c) : ¬ s.Settled a := by
  have hT := Tracked.of_reachable hr
  obtain hentry | ⟨p', hp', hres', rfl⟩ := h
  · exact absurd (entry_step hT.basic hstep hentry) hnew
  obtain ⟨cmd, hcmd, hsame⟩ := PassPc.hand_of_result hres'
  have hnot : ¬ s'.sh.Completed c.msgid := by
    rw [hsame.msgid]
    exact (Tracked.of_reachable hr').not_completed_of_cursor hp' hcmd
  rintro (hdone | ⟨p, c₀, hp, hres, hid⟩)
  · exact hnot ((moves_step hT hstep).completed hdone)
  cases cursorStep hT.basic hstep with
  | pass hp₁ hpass hsh =>
    cases hp.symm.trans hp₁
    refine hnot ?_
    rw [hsh, ← hid]
    exact ((passStep_effect hpass).completes hres).1
  | vhReturn _ _ _ hcur => cases hp.symm.trans hcur
  | exec _ _ _ hcur | quiet _ hcur =>
    refine hcur.elim (fun hcur => hnew (.inr ⟨p', hcur ▸ hp', hres', rfl⟩)) fun hcur => ?_
    cases hp.symm.trans hcur.1

/-! ### Good and failed fragments -/

/-- The request whose result the result function of a fragment retrieves. -/
def Closure.prev : Closure → ReqId
  | .sendBuff prev | .recvBuff prev => prev
  | _ => requestIdInvalid

theorem Closure.mem_captured_prev {c : Closure} (hc : c.isBuff = true) (hne : c.prev ≠ requestIdInvalid) : c.prev ∈ c.captured := by
  cases c with
  | sendBuff prev | recvBuff prev => simpa [captured, Closure.prev] using hne
  | _ => cases hc

section

variable (s : State n) (replies : List (ReqId × Bool))

/-- A fragment and those before it were submitted and had good replies. -/
inductive Good : ReqId → Prop
  | intro {a : ReqId} {c : Closure} (hb : s.Built a c) (hc : c.isBuff = true) (hsub : ∃ req, .submit a req ∈ s.sh.log)
      (hreply : (a, true) ∈ replies) (hprev : c.prev ≠ requestIdInvalid → Good c.prev) : Good a

/-- A fragment, or one before it, has its result without a good reply. -/
inductive Fails : ReqId → Prop
  | self {a : ReqId} (hs : s.Settled a) (hreply : (a, true) ∉ replies) : Fails a
  | prev {a : ReqId} {c : Closure} (hb : s.Built a c) (hc : c.isBuff = true) (hne : c.prev ≠ requestIdInvalid)
      (h : Fails c.prev) : Fails a

end

theorem Good.not_fails {C : Machine.Cond (State n) (Label n)} {s : State n} (hr : (context n).Reachable C s)
    {replies : List (ReqId × Bool)} {a : ReqId} (h : Good s replies a) : ¬ Fails s replies a := by
  induction h with
  | intro hb hc hsub hreply hprev ih =>
    intro hfails
    cases hfails with
    | self _ hnot => exact hnot hreply
    | prev hb' _ hne hfails =>
      cases State.Built.unique hr hb hb'
      exact ih hne hfails

section

variable {C : Machine.Cond (State n) (Label n)} {s s' : State n} {l : Label n} {replies : List (ReqId × Bool)} {a : ReqId}

/-- The replies after a step. -/
def repliesAfter (s s' : State n) (replies : List (ReqId × Bool)) : List (ReqId × Bool) :=
  (Observed.replyOf s s').toList ++ replies

theorem mem_repliesAfter {r : ReqId × Bool} (h : r ∈ repliesAfter s s' replies) :
    r ∈ replies ∨ ∃ cmd m c failed, s.cursor = some (.unpack cmd m) ∧ s'.cursor = some (.received c failed) ∧
      r = (cmd.msgid, cmd.closure.accepts m) := by
  rcases List.mem_append.mp h with hnew | hold
  · unfold Observed.replyOf at hnew
    split at hnew
    · rename_i cmd m c failed hp hp'
      exact .inr ⟨cmd, m, c, failed, hp, hp', by simpa using hnew⟩
    · cases hnew
  · exact .inl hold

theorem Good.step (hB : Basic s) (hstep : s.step l = some s') (h : Good s replies a) : Good s' (repliesAfter s s' replies) a := by
  induction h with
  | intro hb hc hsub hreply hprev ih =>
    obtain ⟨req, hsub⟩ := hsub
    exact .intro (hb.step hB hstep) hc ⟨req, (cursorStep hB hstep).mem_log hsub⟩ (List.mem_append_right _ hreply) ih

theorem Fails.step (hr : (context n).Reachable C s) (hstep : s.step l = some s') (h : Fails s replies a) :
    Fails s' (repliesAfter s s' replies) a := by
  have hT := Tracked.of_reachable hr
  induction h with
  | self hs hreply =>
    refine .self (settled_step hr hstep hs) fun hmem => ?_
    rcases mem_repliesAfter hmem with hold | ⟨cmd, m, c, failed, hp, -, heq⟩
    · exact hreply hold
    · cases congrArg Prod.fst heq
      exact hT.not_settled_of_unpack hp hs
  | prev hb hc hne _ ih => exact .prev (hb.step hT.basic hstep) hc hne ih

end

/-! ### Who retrieves the result of a fragment -/

/-- A result that no call returns was retrieved for the one request that captured it. -/
def State.Taken (s : State n) : Prop :=
  ∀ a ∈ s.sh.internal, a ∈ deliveredIds s.sh.log →
    ∃ b c, s.Built b c ∧ a ∈ c.captured ∧ (c.isBuff = true → s.Settled b)

theorem taken_of_reachable {s : State n} (hr : (context n).Reachable publicCalls s) : s.Taken := by
  refine hr.invariant (I := State.Taken) ?_ fun s l s' hr hstep hC h a hint hdel => ?_
  · rintro s rfl a hint
    cases hint
  have hT := Tracked.of_reachable hr
  have hr' : (context n).Reachable publicCalls s' := hr.step (l := l) hstep hC
  have hold : a ∈ deliveredIds s.sh.log → ∃ b c, s'.Built b c ∧ a ∈ c.captured ∧ (c.isBuff = true → s'.Settled b) := by
    intro hdel
    have hlt := hT.lt_of_completed (.inr (.inl hdel))
    obtain ⟨b, c, hb, ha, hs⟩ := h a ((grows hT.basic hstep).internal_of_lt hint hlt) hdel
    exact ⟨b, c, hb.step hT.basic hstep, ha, fun hc => settled_step hr hstep (hs hc)⟩
  have hinternal : ∀ {c : Command}, (a, c) ∈ s.sh.comq.completion.entries → a ∈ s.sh.internal := fun hentry =>
    (grows hT.basic hstep).internal_of_lt hint (hT.lt_of_completed (completed_of_entry hentry))
  have hasks : ∀ {t : Tid n} {c : Command}, (s.api t).Asks a → (a, c) ∈ s.sh.comq.completion.entries → False := by
    intro t c hasks hentry
    have hlt := hT.lt_of_completed (completed_of_entry hentry)
    rcases asks_public hr hasks with hinv | ⟨-, hnot⟩
    · exact absurd hlt (by rw [hinv]; exact Nat.not_lt.mpr (seqNo_le hr))
    · exact hnot (hinternal hentry)
  cases lookStep hT.basic (Basic.of_reachable hr') hstep with
  | same _ hsame => exact hold (hsame ▸ hdel)
  | pass hp hpass hsh hcur =>
    have hlog : deliveredIds s'.sh.log = _ := congrArg (fun sh => deliveredIds sh.log) hsh
    cases passStep_rem hpass with
    | same _ hsame => exact hold (hsame.delivered ▸ hlog ▸ hdel)
    | @take cmd m x c hunpack hx _ hentry _ happ =>
      rcases mem_delivered_append (hlog.trans happ) hdel with hdel | rfl
      · exact hold hdel
      · subst hunpack
        exact ⟨cmd.msgid, cmd.closure, (built_of_cursor hr hp rfl).step hT.basic hstep, hx, fun _ => settled_of_unpack hpass hcur⟩
  | @exec t env i rest hl hphase hcode hexec =>
    cases hexec with
    | same _ _ hsame | insert _ _ hsame | nowait _ _ _ _ hsame => exact hold (hsame.delivered ▸ hdel)
    | erase _ _ _ hsame => exact hold (hsame ▸ hdel)
    | wait hi hentry _ happ =>
      rcases mem_delivered_append happ hdel with hdel | rfl
      · exact hold hdel
      · exact (hasks (.inl ⟨i, hcode ▸ List.mem_cons_self, by rw [hi]; rfl⟩) hentry).elim
    | @take x c hi _ hentry _ happ =>
      rcases mem_delivered_append happ hdel with hdel | rfl
      · exact hold hdel
      unfold Instr.looks at hi
      split at hi <;> cases hi
      · exact (hasks (.inl ⟨_, hcode ▸ List.mem_cons_self, rfl⟩) hentry).elim
      · exact (hasks (.inl ⟨_, hcode ▸ List.mem_cons_self, rfl⟩) hentry).elim
      · -- The finaliser retrieves what it captured, and is no fragment.
        obtain ⟨-, cmd, hcmd, hid⟩ := captured_of_finPeek hr (hcode ▸ List.mem_cons_self)
        obtain ⟨hb, hvh⟩ := built_of_vh hr hcmd
        refine ⟨cmd.msgid, cmd.closure, hb.step hT.basic hstep, hid, fun hbuff => ?_⟩
        cases (Closure.isVH_of_isBuff hbuff).symm.trans hvh

/-! ### Calls with a result in their hand -/

/-- A result in the completion map was not delivered. -/
theorem not_delivered_of_entry {C : Machine.Cond (State n) (Label n)} {s : State n} (hr : (context n).Reachable C s) {id : ReqId}
    (h : id ∈ s.sh.comq.completionIds) : id ∉ deliveredIds s.sh.log := by
  intro hdel
  have hnodup := (Conserved.of_reachable hr).nodup
  rw [State.ids, Shared.ids] at hnodup
  have hdisj := (Multiset.nodup_add.mp (Multiset.nodup_add.mp (Multiset.nodup_add.mp hnodup).2.1).1).2.2
  refine Multiset.disjoint_left.mp hdisj ?_ (Multiset.mem_coe.mpr hdel)
  simp only [CommQueue.ids, Multiset.mem_add, Multiset.mem_coe]
  exact .inr h

/-- One call at most has the result of a fragment in its hand, and the request is listed until that call erases it. -/
structure Erasing (s : State n) : Prop where
  unique : ∀ t u id c c', .waitErase id c ∈ (s.api t).code → .waitErase id c' ∈ (s.api u).code → t = u
  listed : ∀ t id c, .waitErase id c ∈ (s.api t).code → .nowait id ∉ s.sh.log → id ∈ s.sh.remReqid

namespace Erasing

variable {s s' : State n} {l : Label n}

theorem unique_step (h : Erasing s) (hr : (context n).Reachable publicCalls s) (hstep : s.step l = some s') (t u : Tid n) (id : ReqId)
    (c c' : Command) (ht : .waitErase id c ∈ (s'.api t).code) (hu : .waitErase id c' ∈ (s'.api u).code) : t = u := by
  have hL := Listed.of_reachable hr
  have hfresh : ∀ {t : Tid n} {c c' : Command}, .waitErase id c ∈ (s.api t).code →
      (id, c') ∈ s.sh.comq.completion.entries → False := fun hmem hentry =>
    not_delivered_of_entry hr (BlockingMap.mem_keys_of_entry hentry) (hL.erase _ id _ hmem)
  rcases erase_new hstep ht with ht | ⟨env, rest, hl, -, -, hentry, -⟩ <;>
    rcases erase_new hstep hu with hu | ⟨env', rest', hl', -, -, hentry', -⟩
  · exact h.unique t u id c c' ht hu
  · exact (hfresh ht hentry').elim
  · exact (hfresh hu hentry).elim
  · cases hl.symm.trans hl'
    rfl

theorem listed_step (h : Erasing s) (hr : (context n).Reachable publicCalls s) (hr' : (context n).Reachable publicCalls s')
    (hstep : s.step l = some s') (t : Tid n) (id : ReqId) (c : Command) (hmem : .waitErase id c ∈ (s'.api t).code)
    (hnowait : .nowait id ∉ s'.sh.log) : id ∈ s'.sh.remReqid := by
  have hL := Listed.of_reachable hr
  have hnow : .nowait id ∉ s.sh.log := fun hmem => hnowait ((cursorStep (Basic.of_reachable hr) hstep).mem_log hmem)
  by_contra hout
  rcases erase_new hstep hmem with hold | ⟨env, rest, rfl, hphase, hcode, hentry, -⟩
  · have hin := h.listed t id c hold hnow
    have hpub := public_of_listed hr (.inl ⟨_, hold, rfl⟩) hin
    obtain ⟨u, env, i, rest, rfl, hphase, hcode, ⟨-, hdone⟩ | ⟨c', rfl⟩⟩ := rem_lost hr hr' hstep hpub hin hout
    · exact not_delivered_of_entry hr hdone (hL.erase t id c hold)
    · cases h.unique t u id c c' hold (hcode ▸ List.mem_cons_self)
      have htail := (upfront_of_reachable hr t).tail (.waitErase id c)
      rw [hcode, List.tail_cons] at htail
      rw [(erase_exec hstep hphase hcode).1] at hmem
      cases htail hmem
  · -- The call takes the result, which nobody took before.
    have hpushed : id = requestIdInvalid ∨ id ∈ pushedIds s.sh.log ∧ id ∉ s.sh.internal :=
      asks_public hr (.inl ⟨_, hcode ▸ List.mem_cons_self, rfl⟩)
    have hlt := (Tracked.of_reachable hr).lt_of_completed (completed_of_entry hentry)
    rcases hpushed with rfl | hpub
    · exact absurd hlt (Nat.not_lt.mpr (seqNo_le hr))
    have hin : id ∈ s.sh.remReqid := (hL.pushed id hpub.1).resolve_right fun hor =>
      hor.elim (not_delivered_of_entry hr (BlockingMap.mem_keys_of_entry hentry)) hnow
    obtain ⟨u, env', i, rest', hl, hphase', hcode', hlook⟩ := rem_lost hr hr' hstep hpub hin hout
    cases hl
    cases hcode.symm.trans hcode'
    rcases hlook with ⟨hi | hi, -⟩ | ⟨c', hi⟩ <;> cases hi

theorem of_reachable (hr : (context n).Reachable publicCalls s) : Erasing s := by
  refine hr.invariant (I := Erasing) ?_ fun s l s' hr hstep hC h =>
    ⟨h.unique_step hr hstep, h.listed_step hr (hr.step (l := l) hstep hC) hstep⟩
  rintro s rfl
  refine ⟨fun t u id c c' ht => ?_, fun t id c ht => ?_⟩ <;> cases ht

end Erasing

/-! ### The status of a chain -/

/-- The result of a fragment has a status for a reason: OK when it and those before it were good, another status when one of
them failed. -/
structure Decides (s : State n) (replies : List (ReqId × Bool)) (a : ReqId) (st : CommandState) : Prop where
  good : st = .ok → Good s replies a
  fails : st ≠ .ok → Fails s replies a

theorem Decides.step {C : Machine.Cond (State n) (Label n)} {s s' : State n} {l : Label n} (hr : (context n).Reachable C s)
    (hstep : s.step l = some s') {replies : List (ReqId × Bool)} {a : ReqId} {st : CommandState} (h : Decides s replies a st) :
    Decides s' (repliesAfter s s' replies) a st :=
  ⟨fun hst => (h.good hst).step (Basic.of_reachable hr) hstep, fun hst => (h.fails hst).step hr hstep⟩

/-- The step of a result function. -/
theorem unpack_step {s s' : State n} {l : Label n} (hB : Basic s) (hstep : s.step l = some s') {cmd : Command} {m : Reply}
    {c : Command} {failed : Bool} (hp : s.cursor = some (.unpack cmd m)) (hp' : s'.cursor = some (.received c failed)) :
    ∃ t sh, s.sh.unpack t cmd m = (sh, c, failed) ∧ SameCommand cmd c := by
  have hkept : CursorKept s s' → False := fun hcur => by
    rcases hcur with hcur | hcur
    · cases hp'.symm.trans (hcur.trans hp)
    · cases hp.symm.trans hcur.1
  cases cursorStep hB hstep with
  | vhReturn _ _ _ hcur => cases hp.symm.trans hcur
  | exec _ _ _ hcur | quiet _ hcur => exact (hkept hcur).elim
  | @pass x t p env sh out b hp₁ hpass hsh hcur =>
    cases hp.symm.trans hp₁
    have hout : out.passPc = some (.received c failed) := by
      rcases hcur with hcur | ⟨-, hcur⟩
      · exact hcur.symm.trans hp'
      · cases hp'.symm.trans (hcur.trans hp)
    cases passStep_effect hpass with
    | quiet hq => cases hq
    | complete _ _ _ hres => cases hres
    | unpack _ hcmd hunpack =>
      cases hout
      exact ⟨t, sh, hunpack, hcmd⟩

/-- The replies are those of requests with a result, and the result of a fragment, also in the hand of a call and in an
answer, has its status for a reason. -/
structure Chained (s : State n) (replies : List (ReqId × Bool)) : Prop where
  reply : ∀ a b, (a, b) ∈ replies → s.Settled a
  status : ∀ a clo c, s.Built a clo → clo.isBuff = true → s.Result a c → Decides s replies a c.status
  held : ∀ t a clo c, s.Built a clo → clo.isBuff = true → .waitErase a c ∈ (s.api t).code → Decides s replies a c.status
  answer : ∀ t a, (t, a, .ok) ∈ answers s.sh.log →
    a ∈ deliveredIds s.sh.log ∧ ∀ clo, s.Built a clo → clo.isBuff = true → Good s replies a
  delivered : ∀ a clo, s.Built a clo → clo.isBuff = true → a ∉ s.sh.internal → a ∈ deliveredIds s.sh.log →
    (∃ t c, .waitErase a c ∈ (s.api t).code) ∨ (∃ t, (t, a, .ok) ∈ answers s.sh.log) ∨ Fails s replies a

theorem Closure.eq_of_isBuff {c : Closure} (h : c.isBuff = true) : c = .sendBuff c.prev ∨ c = .recvBuff c.prev := by
  cases c with
  | sendBuff => exact .inl rfl
  | recvBuff => exact .inr rfl
  | _ => cases h

theorem State.Built.of_step {s s' : State n} {l : Label n} (hB : Basic s) (hstep : s.step l = some s') {id : ReqId} {c : Closure}
    (h : s'.Built id c) (hlt : id < s.sh.seqNo) : s.Built id c :=
  (built_step hB hstep h).resolve_right fun ⟨_, _, _, _, _, _, _, heq, _⟩ => absurd hlt (by rw [heq]; exact Nat.lt_irrefl _)

section

variable {s s' : State n} {l : Label n} {replies : List (ReqId × Bool)}

/-- The result function of a fragment finds the result of the fragment before it. -/
theorem entry_of_prev (hr : (context n).Reachable publicInOrder s) {cmd : Command} {m : Reply}
    (hp : s.cursor = some (.unpack cmd m)) (hbuff : cmd.closure.isBuff = true) (hne : cmd.closure.prev ≠ requestIdInvalid)
    (t : Tid n) :
    ∃ c, (cmd.closure.prev, c) ∈ s.sh.comq.completion.entries ∧ (s.sh.peekResult t cmd.closure.prev).2.1 = c.status := by
  have hpub := publicInOrder_public hr
  have hcap := Captures.of_reachable hpub
  have hb := built_of_cursor hr hp rfl
  have ha := Closure.mem_captured_prev hbuff hne
  obtain ⟨hpushed, hint⟩ := hcap.captured _ _ hb _ ha
  have hcase := peek_cases s.sh t cmd.closure.prev
  generalize s.sh.peekResult t cmd.closure.prev = p at hcase
  cases hcase with
  | delivered _ hentry => exact ⟨_, hentry, rfl⟩
  | unfinished hin hnone => exact absurd (completion_of_internal hpub hint (completed_of_captured hr hp hbuff ha) hin) hnone
  | unknown hnot =>
    rcases ((Listed.of_reachable hpub).pushed _ hpushed).resolve_left hnot with hdel | hnow
    · -- Nobody else retrieves it, and this function has not.
      obtain ⟨b, c, hb', ha', hs⟩ := taken_of_reachable hpub _ hint hdel
      cases captured_unique hpub hb hb' ha ha'
      cases State.Built.unique hr hb hb'
      exact absurd (hs hbuff) ((Tracked.of_reachable hr).not_settled_of_unpack hp)
    · obtain ⟨c, hc, hb'⟩ := hcap.buff _ _ hb hbuff _ ha
      cases State.Built.unique hr hb' (hcap.nowait _ hnow)
      cases hc

namespace Chained

theorem reply_step {C : Machine.Cond (State n) (Label n)} (h : Chained s replies) (hr : (context n).Reachable C s)
    (hstep : s.step l = some s') (a : ReqId) (b : Bool) (hmem : (a, b) ∈ repliesAfter s s' replies) : s'.Settled a := by
  rcases mem_repliesAfter hmem with hold | ⟨cmd, m, c, failed, hp, hp', heq⟩
  · exact settled_step hr hstep (h.reply a b hold)
  · cases heq
    obtain ⟨-, -, -, hcmd⟩ := unpack_step (Basic.of_reachable hr) hstep hp hp'
    exact .inr ⟨_, c, hp', rfl, hcmd.msgid⟩

theorem decides_of_unpack (h : Chained s replies) (hr : (context n).Reachable publicInOrder s) (hstep : s.step l = some s')
    {cmd : Command} {m : Reply} {c : Command} {failed : Bool} (hp : s.cursor = some (.unpack cmd m))
    (hp' : s'.cursor = some (.received c failed)) (hbuff : cmd.closure.isBuff = true) :
    Decides s' (repliesAfter s s' replies) cmd.msgid c.status := by
  have hT := Tracked.of_reachable hr
  have hb := built_of_cursor hr hp rfl
  have hb' := hb.step hT.basic hstep
  obtain ⟨t, sh, hunpack, hcmd⟩ := unpack_step hT.basic hstep hp hp'
  have hsettled : s'.Settled cmd.msgid := .inr ⟨_, c, hp', rfl, hcmd.msgid⟩
  have hstatus := unpack_status s.sh t m (Closure.eq_of_isBuff hbuff)
  rw [hunpack] at hstatus
  have hreply : Observed.replyOf s s' = some (cmd.msgid, cmd.closure.accepts m) := by rw [Observed.replyOf, hp, hp']
  cases hacc : cmd.closure.accepts m with
  | false =>
    rw [hacc] at hstatus hreply
    refine ⟨fun hok => ?_, fun _ => .self hsettled fun hmem => ?_⟩
    · cases hstatus.symm.trans hok
    · rw [repliesAfter, hreply] at hmem
      rcases List.mem_cons.mp hmem with heq | hold
      · cases heq
      · exact hT.not_settled_of_unpack hp (h.reply _ _ hold)
  | true =>
    rw [hacc] at hstatus hreply
    obtain ⟨⟨req, hsub⟩, -⟩ := (Arrival.of_reachable (publicInOrder_inOrder hr)).unpack cmd m hp
    have hgood : (cmd.closure.prev ≠ requestIdInvalid → Good s' (repliesAfter s s' replies) cmd.closure.prev) →
        Good s' (repliesAfter s s' replies) cmd.msgid := by
      refine .intro hb' hbuff ⟨req, (cursorStep hT.basic hstep).mem_log (mem_submissions.mp hsub)⟩ ?_
      rw [repliesAfter, hreply]
      exact List.mem_cons_self
    by_cases hne : cmd.closure.prev = requestIdInvalid
    · refine ⟨fun _ => hgood fun hnot => absurd hne hnot, fun hnot => ?_⟩
      rw [if_pos rfl, Shared.peekPrev, if_pos hne] at hstatus
      exact absurd hstatus hnot
    · rw [if_pos rfl, Shared.peekPrev, if_neg hne] at hstatus
      obtain ⟨c₀, hentry, hpeek⟩ := entry_of_prev hr hp hbuff hne t
      obtain ⟨clo, hclo, hbuilt⟩ :=
        (Captures.of_reachable (publicInOrder_public hr)).buff _ _ hb hbuff _ (Closure.mem_captured_prev hbuff hne)
      have hdec := (h.status _ clo c₀ hbuilt hclo (.inl hentry)).step hr hstep
      rw [← hpeek, ← hstatus] at hdec
      exact ⟨fun hok => hgood fun _ => hdec.good hok, fun hnot => .prev hb' hbuff hne (hdec.fails hnot)⟩

theorem status_step (h : Chained s replies) (hr : (context n).Reachable publicInOrder s)
    (hr' : (context n).Reachable publicInOrder s') (hstep : s.step l = some s') (a : ReqId) (clo : Closure) (c : Command)
    (hb : s'.Built a clo) (hbuff : clo.isBuff = true) (hres : s'.Result a c) :
    Decides s' (repliesAfter s s' replies) a c.status := by
  have hT := Tracked.of_reachable hr
  by_cases hold : s.Result a c
  · exact (h.status a clo c (hb.of_step hT.basic hstep (hold.lt hT)) hbuff hold).step hr hstep
  have hfresh := not_settled_of_result hr hr' hstep hres hold
  have hunpacked : ∀ {cmd m failed}, s.cursor = some (.unpack cmd m) → s'.cursor = some (.received c failed) → cmd.msgid = a →
      Decides s' (repliesAfter s s' replies) a c.status := by
    rintro cmd m failed hp hp' rfl
    cases State.Built.unique hr' hb ((built_of_cursor hr hp rfl).step hT.basic hstep)
    exact h.decides_of_unpack hr hstep hp hp' hbuff
  obtain ⟨hnew, hid⟩ := (result_step hT.basic hstep hres).resolve_left hold
  cases hnew with
  | unpacked hp _ hp' hcmd => exact hunpacked hp hp' (hcmd.msgid.symm.trans hid)
  | @executed cmd val hmain _ hc =>
    obtain ⟨hbuilt, hvh⟩ := built_of_vh hr (show s.main.vhCmd = some cmd by rw [hmain]; rfl)
    have hmsgid : cmd.msgid = a := by
      rw [← hid, hc]
      exact (sameCommand_vhResult cmd _ val).msgid.symm
    subst hmsgid
    cases State.Built.unique hr' hb (hbuilt.step hT.basic hstep)
    cases (Closure.isVH_of_isBuff hbuff).symm.trans hvh
  | failed hstatus =>
    by_cases hmem : (a, true) ∈ repliesAfter s s' replies
    · rcases mem_repliesAfter hmem with hrep | ⟨cmd, m, c', failed, hp, hp', heq⟩
      · exact absurd (h.reply _ _ hrep) hfresh
      · rcases hres with hentry | ⟨p, hp₁, hres, -⟩
        · exact absurd (entry_step hT.basic hstep hentry) hold
        · cases hp'.symm.trans hp₁
          cases hres
          exact hunpacked hp hp' (congrArg Prod.fst heq).symm
    · refine ⟨fun hok => ?_, fun _ => .self hres.settled hmem⟩
      cases hstatus.symm.trans hok

theorem held_step (h : Chained s replies) (hr : (context n).Reachable publicCalls s) (hstep : s.step l = some s') (t : Tid n)
    (a : ReqId) (clo : Closure) (c : Command) (hb : s'.Built a clo) (hbuff : clo.isBuff = true)
    (hmem : .waitErase a c ∈ (s'.api t).code) : Decides s' (repliesAfter s s' replies) a c.status := by
  have hT := Tracked.of_reachable hr
  rcases erase_new hstep hmem with hold | ⟨-, -, -, -, -, hentry, -⟩
  · have hlt := hT.lt_of_completed (.inr (.inl ((Listed.of_reachable hr).erase t a c hold)))
    exact (h.held t a clo c (hb.of_step hT.basic hstep hlt) hbuff hold).step hr hstep
  · have hlt := hT.lt_of_completed (completed_of_entry hentry)
    exact (h.status a clo c (hb.of_step hT.basic hstep hlt) hbuff (.inl hentry)).step hr hstep

theorem answer_step (h : Chained s replies) (hr : (context n).Reachable publicCalls s) (hstep : s.step l = some s') (t : Tid n)
    (a : ReqId) (hans : (t, a, .ok) ∈ answers s'.sh.log) :
    a ∈ deliveredIds s'.sh.log ∧
      ∀ clo, s'.Built a clo → clo.isBuff = true → Good s' (repliesAfter s s' replies) a := by
  have hT := Tracked.of_reachable hr
  have hlog := (cursorStep hT.basic hstep).log_grows.filterMap Event.deliveredId
  have hold : (t, a, .ok) ∈ answers s.sh.log → a ∈ deliveredIds s'.sh.log ∧
      ∀ clo, s'.Built a clo → clo.isBuff = true → Good s' (repliesAfter s s' replies) a := by
    intro hans
    obtain ⟨hdel, hgood⟩ := h.answer t a hans
    have hlt := hT.lt_of_completed (.inr (.inl hdel))
    exact ⟨hlog.subset hdel, fun clo hb hbuff => (hgood clo (hb.of_step hT.basic hstep hlt) hbuff).step hT.basic hstep⟩
  rcases answers_step hstep with hsame | ⟨u, env, i, rest, x, st, -, -, hcode, happ, hgives⟩
  · exact hold (hsame ▸ hans)
  rw [happ] at hans
  rcases List.mem_append.mp hans with hans | hnew
  · exact hold hans
  cases List.mem_singleton.mp hnew
  cases hgives with
  | unlisted _ _ hst => cases hst
  | @erase c hi _ hst =>
    have hmem : .waitErase a c ∈ (s.api t).code := hcode ▸ hi ▸ List.mem_cons_self
    have hdel := (Listed.of_reachable hr).erase t a c hmem
    have hlt := hT.lt_of_completed (.inr (.inl hdel))
    exact ⟨hlog.subset hdel, fun clo hb hbuff =>
      ((h.held t a clo c (hb.of_step hT.basic hstep hlt) hbuff hmem).good hst.symm).step hT.basic hstep⟩
  | peek hi hst hsh =>
    have hcase := peek_cases s.sh t a
    generalize s.sh.peekResult t a = p at hcase hst hsh
    cases hcase with
    | @delivered c hin hentry =>
      have hlt := hT.lt_of_completed (completed_of_entry hentry)
      refine ⟨?_, fun clo hb hbuff =>
        ((h.status a clo c (hb.of_step hT.basic hstep hlt) hbuff (.inl hentry)).good hst.symm).step hT.basic hstep⟩
      rw [hsh]
      exact mem_deliveredIds.mpr ⟨t, List.mem_append_left _ (List.mem_append_right _ List.mem_cons_self)⟩
    | unknown | unfinished => cases hst

theorem delivered_step (h : Chained s replies) (hr : (context n).Reachable publicCalls s)
    (hr' : (context n).Reachable publicCalls s') (hstep : s.step l = some s') (a : ReqId) (clo : Closure) (hb : s'.Built a clo)
    (hbuff : clo.isBuff = true) (hint : a ∉ s'.sh.internal) (hdel : a ∈ deliveredIds s'.sh.log) :
    (∃ t c, .waitErase a c ∈ (s'.api t).code) ∨ (∃ t, (t, a, .ok) ∈ answers s'.sh.log) ∨
      Fails s' (repliesAfter s s' replies) a := by
  have hT := Tracked.of_reachable hr
  have hcap := Captures.of_reachable hr
  have hint₀ : a ∉ s.sh.internal := fun hmem => hint ((grows hT.basic hstep).mem_internal hmem)
  have hlog := (cursorStep hT.basic hstep).log_grows.filterMap Event.given
  -- A status decides between an answer and a failure.
  have hdecided : ∀ (t : Tid n) {c : Command}, Decides s replies a c.status →
      (c.status = .ok → .answer t a c.status ∈ s'.sh.log) →
      (∃ t c, .waitErase a c ∈ (s'.api t).code) ∨ (∃ t, (t, a, .ok) ∈ answers s'.sh.log) ∨
        Fails s' (repliesAfter s s' replies) a := by
    intro t c hdec hans
    by_cases hok : c.status = .ok
    · exact .inr (.inl ⟨t, List.mem_filterMap.mpr ⟨_, hok ▸ hans hok, rfl⟩⟩)
    · exact .inr (.inr ((hdec.step hr hstep).fails hok))
  have hold : a ∈ deliveredIds s.sh.log → (∃ t c, .waitErase a c ∈ (s'.api t).code) ∨
      (∃ t, (t, a, .ok) ∈ answers s'.sh.log) ∨ Fails s' (repliesAfter s s' replies) a := by
    intro hdel
    have hb₀ := hb.of_step hT.basic hstep (hT.lt_of_completed (.inr (.inl hdel)))
    rcases h.delivered a clo hb₀ hbuff hint₀ hdel with ⟨t, c, hmem⟩ | ⟨t, hans⟩ | hfails
    · rcases erase_kept hr hstep hmem with hmem' | ⟨env, rest, rfl, hphase, hcode⟩
      · exact .inl ⟨t, c, hmem'⟩
      have hnow : .nowait a ∉ s.sh.log := fun hnow => by
        cases State.Built.unique hr hb₀ (hcap.nowait a hnow)
        cases hbuff
      have hin := (Erasing.of_reachable hr).listed t a c hmem hnow
      refine hdecided t (h.held t a clo c hb₀ hbuff hmem) fun _ => ?_
      obtain ⟨sh, a', hexec, rfl⟩ := exec_of_step hstep hphase hcode
      cases env <;> simp only [exec, if_pos hin] at hexec <;> cases hexec
      exact List.mem_append_right _ (List.mem_singleton_self _)
    · exact .inr (.inl ⟨t, hlog.subset hans⟩)
    · exact .inr (.inr (hfails.step hr hstep))
  have hentered : ∀ {c : Command}, (a, c) ∈ s.sh.comq.completion.entries → Decides s replies a c.status := fun hentry =>
    h.status a clo _ (hb.of_step hT.basic hstep (hT.lt_of_completed (completed_of_entry hentry))) hbuff (.inl hentry)
  cases lookStep hT.basic (Basic.of_reachable hr') hstep with
  | same _ hsame => exact hold (hsame ▸ hdel)
  | pass hp hpass hsh =>
    have hlog : deliveredIds s'.sh.log = _ := congrArg (fun sh => deliveredIds sh.log) hsh
    cases passStep_rem hpass with
    | same _ hsame => exact hold (hsame.delivered ▸ hlog ▸ hdel)
    | @take cmd m x c hunpack hx _ hentry _ happ =>
      rcases mem_delivered_append (hlog.trans happ) hdel with hdel | rfl
      · exact hold hdel
      · subst hunpack
        exact absurd (hcap.captured _ _ (built_of_cursor hr hp rfl) _ hx).2 hint₀
  | @exec t env i rest hl hphase hcode hexec =>
    cases hexec with
    | same _ _ hsame | insert _ _ hsame | nowait _ _ _ _ hsame => exact hold (hsame.delivered ▸ hdel)
    | erase _ _ _ hsame => exact hold (hsame ▸ hdel)
    | @wait x c _ _ _ happ _ ha =>
      rcases mem_delivered_append happ hdel with hdel | rfl
      · exact hold hdel
      · exact .inl ⟨t, c, by rw [ha]; exact List.mem_cons_self⟩
    | @take x c hi _ hentry _ happ _ hans =>
      rcases mem_delivered_append happ hdel with hdel | rfl
      · exact hold hdel
      refine hdecided t (hentered hentry) fun hok => ?_
      rcases hans with ⟨sub, rfl⟩ | hunf | hans
      · obtain ⟨-, cmd, hcmd, hid⟩ := captured_of_finPeek hr (hcode ▸ List.mem_cons_self)
        exact absurd (hcap.captured _ _ (built_of_vh hr hcmd).1 _ hid).2 hint₀
      · cases hok.symm.trans hunf
      · exact hans

end Chained

/-- In every run in which replies come in the order of submission and users retrieve what a call returned. -/
theorem chained_of_reachable {p : State n × Observed n} (hr : (observedContext n).Reachable publicInOrder.observed p) :
    Chained p.1 p.2.replies := by
  refine hr.observed_invariant (I := fun s o => Chained s o.replies) ?_ fun s l s' o hro hstep hC h => ?_
  · rintro s rfl
    refine ⟨nofun, fun a clo c hb => ?_, fun t a clo c hb => ?_, nofun, fun a clo hb => ?_⟩ <;>
      rcases hb with ⟨t, cmd, hcur, -⟩ | ⟨t, h, hmem⟩ <;> contradiction
  · have hr := hro.of_observe
    have hr' : (context n).Reachable publicInOrder s' := hr.step (l := l) hstep hC
    have hpub := publicInOrder_public hr
    exact ⟨h.reply_step hr hstep, h.status_step hr hr' hstep, h.held_step hpub hstep, h.answer_step hpub hstep,
      h.delivered_step hpub (publicInOrder_public hr') hstep⟩

end

end Aveo

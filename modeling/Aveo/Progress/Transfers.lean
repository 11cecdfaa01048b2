import Aveo.Progress.Chain

/-!
# Transfers

`asyncWriteMem` and `asyncReadMem` issue one request for each fragment and return the last request ID. Each fragment is
built with the request before it, so the requests of a transfer are a chain, and its last result has the status OK if and
only if every fragment was submitted and had a good reply. A transfer of size zero has no fragment: its VH command is
cancelled with the others when the VE process has terminated.
-/

namespace Aveo

open Lib

variable {n : Nat}

/-! ### The code that a transfer has left -/

/-- The number of fragments of a transfer. -/
def Call.fragments : Call → Nat
  | .asyncWriteMem k | .asyncReadMem k => k
  | _ => 0

def issues (code : List Instr) : Nat := code.countP Instr.isIssue

/-- What a transfer may have left to do: a test for `is_alive` skips all of it, only the last request is returned, and `prev`
is not cleared behind a request. -/
def transferCode : List Instr → Bool
  | [] => true
  | .isAlive k :: rest => rest.length ≤ k && transferCode rest
  | .issue b kept :: rest => b.isBuff && (kept == rest.any Instr.isIssue) && .clearPrev ∉ rest && transferCode rest
  | .remInsert :: rest | .lockSubmit :: rest | .pushRequest :: rest | .unlockSubmit :: rest | .progress :: rest
  | .progressTry :: rest | .notifyAll :: rest | .clearPrev :: rest => transferCode rest
  | _ => false

theorem clearPrev_not_mem_fragments (b : Build) (kept : Bool) (k : Nat) : .clearPrev ∉ fragments b kept k := by
  induction k with
  | zero => simp [fragments]
  | succ k ih => simp [fragments, ifAlive, issueAndPush, ih]

theorem any_issue_fragments (b : Build) (kept : Bool) (k : Nat) : (fragments b kept k).any Instr.isIssue = decide (k ≠ 0) := by
  cases k <;> rfl

theorem transferCode_fragments {b : Build} (hb : b.isBuff = true) (k : Nat) : transferCode (fragments b false k) = true := by
  induction k with
  | zero => rfl
  | succ k ih =>
    have hclear := clearPrev_not_mem_fragments b false k
    have hany := any_issue_fragments b false k
    simp [fragments, ifAlive, issueAndPush, transferCode, Instr.isIssue, hb, ih, hclear, hany]

theorem transferCode_asyncMem {b : Build} (hb : b.isBuff = true) (k : Nat) : transferCode (asyncMem b false (k + 1)) = true := by
  have hfrag := transferCode_fragments hb k
  have hclear := clearPrev_not_mem_fragments b false k
  have hany := any_issue_fragments b false k
  simp [asyncMem, ifAlive, issueAndPush, transferCode, Instr.isIssue, hb, hfrag, hclear, hany]

theorem issues_fragments (b : Build) (kept : Bool) (k : Nat) : issues (fragments b kept k) = k := by
  induction k with
  | zero => rfl
  | succ k ih =>
    rw [issues] at ih
    simp [fragments, ifAlive, issueAndPush, issues, List.countP_cons, Instr.isIssue, ih]

theorem issues_asyncMem (b : Build) (kept : Bool) (k : Nat) : issues (asyncMem b kept (k + 1)) = k + 1 := by
  have hfrag := issues_fragments b kept k
  rw [issues] at hfrag
  simp [asyncMem, ifAlive, issueAndPush, issues, List.countP_cons, Instr.isIssue, hfrag]

theorem transferCode_call {c : Call} (hc : 0 < c.fragments) : transferCode c.code = true ∧ issues c.code = c.fragments := by
  cases c with
  | asyncWriteMem k | asyncReadMem k =>
    cases k with
    | zero => cases hc
    | succ k => exact ⟨transferCode_asyncMem rfl k, issues_asyncMem _ _ k⟩
  | _ => cases hc

theorem transferCode_tail {i : Instr} {rest : List Instr} (h : transferCode (i :: rest) = true) : transferCode rest = true := by
  cases i with
  | isAlive | issue => exact (Bool.and_eq_true_iff.mp h).2
  | remInsert | lockSubmit | pushRequest | unlockSubmit | progress | progressTry | notifyAll | clearPrev => exact h
  | _ => cases h

/-- The code behind an instruction that issues nothing. -/
theorem Instr.Next.transferCode {r : Regs} {i : Instr} {rest code : List Instr} (h : i.Next r rest code)
    (hcode : transferCode (i :: rest) = true) (hi : i.isIssue = false) (hlive : ∀ k, i = .isAlive k → code = rest) :
    Aveo.transferCode code = true ∧ issues code = issues (i :: rest) ∧ (.clearPrev ∈ code → .clearPrev ∈ i :: rest) := by
  have hissues : issues (i :: rest) = issues rest := List.countP_cons_of_neg (by rw [hi]; exact nofun)
  have hrest : Aveo.transferCode rest = true ∧ issues rest = issues (i :: rest) ∧ (.clearPrev ∈ rest → .clearPrev ∈ i :: rest) :=
    ⟨transferCode_tail hcode, hissues.symm, List.mem_cons_of_mem i⟩
  cases h with
  | next => exact hrest
  | dead hk =>
    rw [hlive _ hk]
    exact hrest
  | refused hk => subst hk; cases hcode
  | follows hf =>
    cases hf with
    | progressTry => exact ⟨hcode, rfl, fun hmem => List.mem_cons_of_mem _ ((List.mem_cons.mp hmem).resolve_left nofun)⟩
    | _ => cases hcode

/-! ### Steps of a thread in a call -/

/-- A thread goes on in its call. -/
inductive Goes (s s' : State n) (t : Tid n) : Prop
  | exec {env : Env} {exited : Bool} {i : Instr} {rest : List Instr} (hphase : (s.api t).phase = .run)
      (hcode : (s.api t).code = i :: rest) (h : exec t exited s.sh (s.api t).regs rest i env = some (s'.sh, s'.api t))
  | pass (hphase : (s.api t).phase ≠ .run) (hcode : (s'.api t).code = (s.api t).code)
      (hregs : (s'.api t).regs = (s.api t).regs) (hwaits : (s'.api t).phase.waits = (s.api t).phase.waits)
  | resumed {id : ReqId} (hphase : (s.api t).phase.waits = some id)

theorem goes_of_step {s s' : State n} {t : Tid n} {env : Env} (hstep : s.step (.api t env) = some s')
    (hthrew : Observed.threw (s.api t) (s'.api t) = false) : Goes s s' t := by
  cases step_cases hstep with
  | exec hphase hcode h => exact .exec hphase hcode (by rw [State.setApi_api_self]; exact h)
  | @apiPass _ _ p k sh sh' out a hphase h hout =>
    have hne : (s.api t).phase ≠ .run := by rw [hphase]; exact fun h => by cases h
    rw [State.setApi_api_self] at hthrew
    cases out with
    | next p =>
      cases hout
      refine .pass hne ?_ ?_ ?_ <;> rw [State.setApi_api_self]
      rw [hphase]
      cases k <;> rfl
    | ret rv =>
      cases hout
      refine .pass hne ?_ ?_ ?_ <;> rw [State.setApi_api_self]
      rw [hphase]
      cases k <;> rfl
    | startVH => cases hout
    | throws =>
      obtain ⟨req, m, rfl⟩ := (passStep_effect h).reply_of_throws
      simp only [Api.afterPass] at hout
      split at hout <;> cases hout
      · refine .pass hne ?_ ?_ ?_ <;> rw [State.setApi_api_self]
      · simp [Observed.threw, hphase] at hthrew
  | @unlock _ _ rv k m hphase hlock =>
    cases k with
    | resume =>
      refine .pass (by rw [hphase]; exact fun h => by cases h) ?_ ?_ ?_ <;> rw [State.setApi_api_self]
      · rfl
      · rw [hphase]
        rfl
    | wait id => exact .resumed (by rw [hphase]; rfl)

theorem run_of_isAlive {t : Tid n} {exited : Bool} {sh sh' : Shared n} {r : Regs} {rest : List Instr} {k : Nat} {env : Env}
    {a : Api} (h : exec t exited sh r rest (.isAlive k) env = some (sh', a)) : a.phase = .run := by
  cases env <;> simp only [exec] at h
  · split at h <;> cases h <;> rfl
  all_goals cases h
  rfl

/-- A thread in a call moves only with its own steps. -/
theorem api_of_other {s s' : State n} {l : Label n} (hB : Basic s) (hstep : s.step l = some s') {t : Tid n}
    (hbusy : ¬((s.api t).phase = .run ∧ (s.api t).code = [])) (hl : ∀ env, l ≠ .api t env) : s'.api t = s.api t := by
  cases step_cases hstep with
  | out | execLock | execTest | execUnlock | vhReturn => rfl
  | @pass p env sh out hmain h =>
    cases out with
    | startVH cmd =>
      have ht : t ≠ none := by
        rintro rfl
        exact hbusy (hB.calm (by rw [hmain]; rfl))
      exact State.setApi_api_ne _ _ ht
    | _ => rfl
  | @exec u env | @apiPass u env | @unlock u env =>
    exact State.setApi_api_ne _ _ fun heq => hl env (by rw [heq])
  | @call u c hphase hcode =>
    refine State.setApi_api_ne _ _ fun heq => hbusy ?_
    subst heq
    exact ⟨hphase, hcode⟩

/-! ### The requests of a transfer -/

/-- The request before the newest of a list that begins with the newest. -/
def prevOf (ids : List ReqId) : ReqId := ids.head?.getD requestIdInvalid

/-- Requests, the newest first, are fragments that were each built with the one before. -/
def Linked (s : State n) : List ReqId → Prop
  | [] => True
  | a :: ids => (∃ c, s.Built a c ∧ c.isBuff = true ∧ c.prev = prevOf ids) ∧ Linked s ids

theorem Linked.step {s s' : State n} {l : Label n} (hB : Basic s) (hstep : s.step l = some s') {ids : List ReqId}
    (h : Linked s ids) : Linked s' ids := by
  induction ids with
  | nil => trivial
  | cons a ids ih =>
    obtain ⟨⟨c, hb, hc, hprev⟩, hids⟩ := h
    exact ⟨⟨c, hb.step hB hstep, hc, hprev⟩, ih hids⟩

/-- The last fragment of a chain is good if and only if all its fragments were submitted and had good replies. -/
theorem good_iff_of_linked {C : Machine.Cond (State n) (Label n)} {s : State n} (hr : (context n).Reachable C s)
    {replies : List (ReqId × Bool)} {a : ReqId} {ids : List ReqId} (h : Linked s (a :: ids)) :
    Good s replies a ↔ ∀ x ∈ a :: ids, (∃ req, .submit x req ∈ s.sh.log) ∧ (x, true) ∈ replies := by
  induction ids generalizing a with
  | nil =>
    obtain ⟨⟨c, hb, hc, hprev⟩, -⟩ := h
    constructor
    · rintro ⟨-, -, hsub, hreply, -⟩ x hx
      cases List.mem_singleton.mp hx
      exact ⟨hsub, hreply⟩
    · intro hall
      obtain ⟨hsub, hreply⟩ := hall a List.mem_cons_self
      exact .intro hb hc hsub hreply fun hne => absurd hprev hne
  | cons b ids ih =>
    obtain ⟨⟨c, hb, hc, hprev⟩, hids⟩ := h
    obtain ⟨⟨c', hb', -⟩, -⟩ := id hids
    have hne : b ≠ requestIdInvalid := fun heq =>
      absurd (hb'.lt (Tracked.of_reachable hr)) (by rw [heq]; exact Nat.not_lt.mpr (seqNo_le hr))
    rw [List.forall_mem_cons, ← ih hids]
    constructor
    · rintro ⟨hb₁, -, hsub, hreply, hgood⟩
      cases State.Built.unique hr hb hb₁
      rw [hprev] at hgood
      exact ⟨⟨hsub, hreply⟩, hgood hne⟩
    · rintro ⟨⟨hsub, hreply⟩, hgood⟩
      exact .intro hb hc hsub hreply fun _ => hprev ▸ hgood

/-- A thread is in a transfer of `k` fragments and has issued these requests. -/
structure InTransfer (s : State n) (t : Tid n) (k : Nat) (ids : List ReqId) : Prop where
  code : transferCode (s.api t).code = true
  count : ids.length + issues (s.api t).code = k
  waits : (s.api t).phase.waits = none
  prev : (s.api t).regs.prev = prevOf ids
  req : (s.api t).regs.req = prevOf ids
  linked : Linked s ids
  clear : .clearPrev ∈ (s.api t).code → ids = []
  last : issues (s.api t).code = 0 → ∀ a ∈ ids.head?, a ∉ s.sh.internal

/-- What a transfer of `k` fragments that issued these requests returned. -/
def Returned (s : State n) (k : Nat) (id : ReqId) (ids : List ReqId) : Prop :=
  id = requestIdInvalid ∨ ids.length = k ∧ ids.head? = some id ∧ Linked s ids ∧ id ∉ s.sh.internal

section

variable {s s' : State n} {l : Label n} {t : Tid n} {k : Nat} {ids : List ReqId}

theorem Linked.not_internal_step (hr : (context n).Reachable publicCalls s) (hstep : s.step l = some s') {a : ReqId}
    (h : Linked s ids) (ha : ids.head? = some a) (hint : a ∉ s.sh.internal) : a ∉ s'.sh.internal := by
  have hT := Tracked.of_reachable hr
  cases ids with
  | nil => cases ha
  | cons x ids =>
    cases ha
    obtain ⟨⟨c, hb, -⟩, -⟩ := h
    exact fun hmem => hint ((grows hT.basic hstep).internal_of_lt hmem (hb.lt hT))

namespace InTransfer

/-- Another thread moves, or this one without its code. -/
theorem of_same (h : InTransfer s t k ids) (hr : (context n).Reachable publicCalls s) (hstep : s.step l = some s')
    (hcode : (s'.api t).code = (s.api t).code) (hregs : (s'.api t).regs = (s.api t).regs)
    (hwaits : (s'.api t).phase.waits = (s.api t).phase.waits) : InTransfer s' t k ids := by
  have hB := Basic.of_reachable hr
  refine ⟨?_, ?_, ?_, ?_, ?_, h.linked.step hB hstep, ?_, ?_⟩
  · rw [hcode]; exact h.code
  · rw [hcode]; exact h.count
  · rw [hwaits]; exact h.waits
  · rw [hregs]; exact h.prev
  · rw [hregs]; exact h.req
  · rw [hcode]; exact h.clear
  · rw [hcode]
    exact fun hzero a ha => h.linked.not_internal_step hr hstep ha (h.last hzero a ha)

theorem of_issue (h : InTransfer s t k ids) (hr : (context n).Reachable publicCalls s) (hstep : s.step l = some s') {b : Build}
    {kept : Bool} {rest : List Instr} (hcode : (s.api t).code = .issue b kept :: rest) (hcode' : (s'.api t).code = rest)
    (hregs : SameIds { (s.api t).regs with req := s.sh.seqNo, prev := s.sh.seqNo } (s'.api t).regs)
    (hint : s'.sh.internal = if kept then s.sh.seqNo :: s.sh.internal else s.sh.internal)
    (hcur : (s'.api t).regs.cur = some (.new s.sh.seqNo (b.closure (s.api t).regs)))
    (hwaits : (s'.api t).phase.waits = none) : InTransfer s' t k (s.sh.seqNo :: ids) := by
  have hcount := h.count
  have ht := h.code
  rw [hcode] at ht hcount
  simp only [transferCode, Bool.and_eq_true, decide_eq_true_eq, beq_iff_eq] at ht
  obtain ⟨⟨⟨hb, hkept⟩, hclear⟩, hrest⟩ := ht
  have hprev : (b.closure (s.api t).regs).prev = prevOf ids := by
    rw [← h.prev]
    cases b <;> first | rfl | cases hb
  have hissues : issues (.issue b kept :: rest) = issues rest + 1 := List.countP_cons_of_pos rfl
  have hbuilt : s'.Built s.sh.seqNo (b.closure (s.api t).regs) := .inl ⟨t, _, hcur, rfl, rfl⟩
  have hlinked : Linked s' (s.sh.seqNo :: ids) :=
    ⟨⟨_, hbuilt, (b.isBuff_closure _).trans hb, hprev⟩, h.linked.step (Basic.of_reachable hr) hstep⟩
  refine ⟨hcode' ▸ hrest, ?_, hwaits, hregs.prev, hregs.req, hlinked, ?_, ?_⟩
  · rw [hcode', List.length_cons]
    omega
  · rw [hcode']
    exact fun hmem => absurd hmem hclear
  · rw [hcode']
    rintro hzero a ⟨⟩
    have hnone : rest.any Instr.isIssue = false := by
      rw [List.any_eq_false]
      exact fun i hi => List.countP_eq_zero.mp hzero i hi
    rw [hint, hkept, hnone]
    exact fun hmem => Nat.lt_irrefl _ ((Captures.of_reachable hr).internal _ hmem)

/-- A step of the transfer; the VE process may have terminated. -/
theorem of_exec (h : InTransfer s t k ids) (hr : (context n).Reachable publicCalls s) (hstep : s.step l = some s') {exited : Bool}
    {env : Env} {i : Instr} {rest : List Instr} (hphase : (s.api t).phase = .run) (hcode : (s.api t).code = i :: rest)
    (hexec : exec t exited s.sh (s.api t).regs rest i env = some (s'.sh, s'.api t)) :
    InTransfer s' t k ((Observed.issueOf s t).toList ++ ids) ∨
      (s'.api t).phase = .run ∧ (s'.api t).code = [] ∧ (s'.api t).regs.req = requestIdInvalid := by
  have ht := h.code
  rw [hcode] at ht
  have hwaits : (s'.api t).phase.waits = none := by
    by_contra hne
    obtain ⟨id, hid⟩ := Option.ne_none_iff_exists'.mp hne
    cases exec_phase hexec hid
    cases ht
  have hissueOf : i.isIssue = false → (Observed.issueOf s t).toList = [] := by
    intro hi
    rw [Observed.issueOf, hphase, hcode]
    cases i <;> first | rfl | cases hi
  have hplain : i.isIssue = false → (∀ k, i = .isAlive k → (s'.api t).code = rest) → (s'.api t).regs.prev = prevOf ids →
      (s'.api t).regs.req = prevOf ids → InTransfer s' t k ids := by
    intro hi hlive hprev hreq
    obtain ⟨hcode', hissues, hclear⟩ := (exec_code hexec).transferCode ht hi hlive
    have hcount := h.count
    have hlast := h.last
    have hold := h.clear
    rw [hcode] at hcount hlast hold
    exact ⟨hcode', hissues ▸ hcount, hwaits, hprev, hreq, h.linked.step (Basic.of_reachable hr) hstep,
      fun hmem => hold (hclear hmem), fun hzero a ha =>
        h.linked.not_internal_step hr hstep ha (hlast (hissues ▸ hzero) a ha)⟩
  cases exec_regs hexec with
  | same hi _ hregs _ hlive =>
    rw [hissueOf hi]
    exact .inl (hplain hi hlive (hregs.prev.trans h.prev) (hregs.req.trans h.req))
  | issue hregs hint _ hcur hcode' =>
    have hissue : Observed.issueOf s t = some s.sh.seqNo := by rw [Observed.issueOf, hphase, hcode]
    rw [hissue]
    exact .inl (h.of_issue hr hstep hcode hcode' hregs hint hcur hwaits)
  | clearPrev hregs _ hcode' =>
    rw [hissueOf rfl]
    have hnil : ids = [] := h.clear (hcode ▸ List.mem_cons_self)
    refine .inl (hplain rfl nofun ?_ (hregs.req.trans h.req))
    rw [hregs.prev, hnil]
    rfl
  | save => cases ht
  | @dead skip _ _ hregs _ hcode' =>
    right
    have hlen : rest.length ≤ skip := of_decide_eq_true (Bool.and_eq_true_iff.mp ht).1
    exact ⟨run_of_isAlive hexec, hcode'.trans (List.drop_eq_nil_of_le hlen), hregs.req⟩

theorem of_goes (h : InTransfer s t k ids) (hr : (context n).Reachable publicCalls s) (hstep : s.step l = some s')
    (hgoes : Goes s s' t) :
    InTransfer s' t k ((Observed.issueOf s t).toList ++ ids) ∨
      (s'.api t).phase = .run ∧ (s'.api t).code = [] ∧ (s'.api t).regs.req = requestIdInvalid := by
  cases hgoes with
  | exec hphase hcode hexec => exact h.of_exec hr hstep hphase hcode hexec
  | pass hphase hcode hregs hwaits =>
    have hissueOf : Observed.issueOf s t = none := by
      unfold Observed.issueOf
      split
      · contradiction
      · rfl
    rw [hissueOf]
    exact .inl (h.of_same hr hstep hcode hregs hwaits)
  | resumed hphase => cases h.waits.symm.trans hphase

theorem of_call {c : Call} (hc : 0 < c.fragments) {mark : Nat} (hapi : s.api t = ⟨.run, c.code, c.regs mark⟩) :
    InTransfer s t c.fragments [] := by
  obtain ⟨hcode, hissues⟩ := transferCode_call hc
  have hregs : c.regs mark = .new mark := by
    cases c <;> first | rfl | cases hc
  refine ⟨?_, ?_, ?_, ?_, ?_, trivial, fun _ => rfl, fun _ a ha => ?_⟩
  · rw [hapi]
    exact hcode
  · rw [hapi, ← hissues, List.length_nil, Nat.zero_add]
  · rw [hapi]
    rfl
  · rw [hapi, hregs]
    rfl
  · rw [hapi, hregs]
    rfl
  · cases ha

/-- A transfer has come to its end. -/
theorem returned (h : InTransfer s t k ids) (hk : 0 < k) (hcode : (s.api t).code = []) : Returned s k (s.api t).regs.req ids := by
  have hcount := h.count
  have hlast := h.last
  rw [hcode] at hcount hlast
  cases ids with
  | nil => exact absurd hcount (Nat.ne_of_lt hk)
  | cons a ids =>
    have hreq : (s.api t).regs.req = a := h.req
    rw [hreq]
    exact .inr ⟨hcount, rfl, h.linked, hlast rfl a rfl⟩

end InTransfer

theorem Returned.step {id : ReqId} (h : Returned s k id ids) (hr : (context n).Reachable publicCalls s)
    (hstep : s.step l = some s') : Returned s' k id ids :=
  h.imp_right fun ⟨hlen, hhead, hlinked, hint⟩ =>
    ⟨hlen, hhead, hlinked.step (Basic.of_reachable hr) hstep, hlinked.not_internal_step hr hstep hhead hint⟩

end

/-- What the observer records of transfers. -/
structure Recorded (s : State n) (o : Observed n) : Prop where
  busy : ∀ t e, o.current t = some e → ¬((s.api t).phase = .run ∧ (s.api t).code = [])
  current : ∀ t c ids, o.current t = some (c, ids) → 0 < c.fragments → InTransfer s t c.fragments ids
  returns : ∀ c id ids, (c, id, ids) ∈ o.returns → 0 < c.fragments → Returned s c.fragments id ids

theorem Call.code_ne_nil (c : Call) : c.code ≠ [] := by
  cases c with
  | asyncWriteMem k | asyncReadMem k => cases k <;> exact nofun
  | _ => exact nofun

namespace Recorded

variable {s s' : State n} {o : Observed n} {l : Label n}

/-- The records of the threads that do not move in their call. -/
theorem of_other (h : Recorded s o) (hr : (context n).Reachable publicCalls s) (hstep : s.step l = some s') {t : Tid n} {c : Call}
    {ids : List ReqId} (hcur : o.current t = some (c, ids)) (hl : ∀ env, l ≠ .api t env) :
    ¬((s'.api t).phase = .run ∧ (s'.api t).code = []) ∧ (0 < c.fragments → InTransfer s' t c.fragments ids) := by
  have hbusy := h.busy t _ hcur
  have hsame := api_of_other (Basic.of_reachable hr) hstep hbusy hl
  refine ⟨hsame ▸ hbusy, fun hc => (h.current t c ids hcur hc).of_same hr hstep ?_ ?_ ?_⟩ <;> rw [hsame]

/-- It is enough to look at the records that a step changes. -/
theorem of_step (h : Recorded s o) (hr : (context n).Reachable publicCalls s) (hstep : s.step l = some s') {o' : Observed n}
    (hcur : ∀ t c ids, o'.current t = some (c, ids) → (o.current t = some (c, ids) ∧ ∀ env, l ≠ .api t env) ∨
      ¬((s'.api t).phase = .run ∧ (s'.api t).code = []) ∧ (0 < c.fragments → InTransfer s' t c.fragments ids))
    (hret : ∀ c id ids, (c, id, ids) ∈ o'.returns → (c, id, ids) ∈ o.returns ∨
      (0 < c.fragments → Returned s' c.fragments id ids)) : Recorded s' o' := by
  have hall : ∀ t c ids, o'.current t = some (c, ids) →
      ¬((s'.api t).phase = .run ∧ (s'.api t).code = []) ∧ (0 < c.fragments → InTransfer s' t c.fragments ids) := by
    intro t c ids hc
    rcases hcur t c ids hc with ⟨hold, hl⟩ | hnew
    · exact h.of_other hr hstep hold hl
    · exact hnew
  refine ⟨fun t e he => (hall t e.1 e.2 he).1, fun t c ids hc => (hall t c ids hc).2, fun c id ids hmem hc => ?_⟩
  rcases hret c id ids hmem with hold | hnew
  · exact (h.returns c id ids hold hc).step hr hstep
  · exact hnew hc

theorem step_call (h : Recorded s o) (hr : (context n).Reachable publicCalls s) {u : Tid n} {c : Call}
    (hstep : s.step (.call u c) = some s') : Recorded s' (o.recordCall s (.call u c) s') := by
  refine h.of_step hr hstep (fun t c' ids hcur => ?_) fun _ _ _ hmem => .inl hmem
  by_cases ht : t = u
  · subst ht
    cases (Function.update_self t _ o.current).symm.trans hcur
    cases step_cases hstep with
    | call =>
      right
      rw [State.setApi_api_self]
      exact ⟨fun hidle => c.code_ne_nil hidle.2, fun hc => .of_call hc (State.setApi_api_self _ _ _)⟩
  · exact .inl ⟨(Function.update_of_ne ht _ o.current).symm.trans hcur, nofun⟩

theorem step_api (h : Recorded s o) (hr : (context n).Reachable publicCalls s) {u : Tid n} {env : Env}
    (hstep : s.step (.api u env) = some s') : Recorded s' (o.recordCall s (.api u env) s') := by
  have hother : ∀ {t : Tid n}, t ≠ u → ∀ env', Label.api u env ≠ .api t env' := fun ht env' heq => ht (by cases heq; rfl)
  cases hu : o.current u with
  | none =>
    rw [show o.recordCall s (.api u env) s' = o by simp only [Observed.recordCall, hu]]
    refine h.of_step hr hstep (fun t c ids hcur => .inl ⟨hcur, hother ?_⟩) fun _ _ _ hmem => .inl hmem
    rintro rfl
    cases hu.symm.trans hcur
  | some e =>
    obtain ⟨c, ids⟩ := e
    rw [show o.recordCall s (.api u env) s' = o.goOn s s' u c ids by simp only [Observed.recordCall, hu]]
    -- The record of this thread, which the others keep.
    have hcur : ∀ {e' : Option (Call × List ReqId)} {t : Tid n} {c' : Call} {ids' : List ReqId},
        Function.update o.current u e' t = some (c', ids') →
        (o.current t = some (c', ids') ∧ ∀ env', Label.api u env ≠ .api t env') ∨ t = u ∧ e' = some (c', ids') := by
      intro e' t c' ids' he
      by_cases ht : t = u
      · subst ht
        exact .inr ⟨rfl, (Function.update_self t e' o.current).symm.trans he⟩
      · exact .inl ⟨(Function.update_of_ne ht e' o.current).symm.trans he, hother ht⟩
    unfold Observed.goOn
    split
    · refine h.of_step hr hstep (fun t c' ids' he => (hcur he).imp_right ?_) fun _ _ _ hmem => .inl hmem
      rintro ⟨-, ⟨⟩⟩
    · rename_i hthrew
      have hgoes := goes_of_step hstep (Bool.eq_false_iff.mpr hthrew)
      split
      · rename_i hidle
        refine h.of_step hr hstep (fun t c' ids' he => (hcur he).imp_right ?_) fun c' id ids' hmem => ?_
        · rintro ⟨-, ⟨⟩⟩
        · rcases List.mem_cons.mp hmem with heq | hold
          · cases heq
            refine .inr fun hc => ?_
            rcases (h.current u c ids hu hc).of_goes hr hstep hgoes with htr | ⟨-, -, hreq⟩
            · exact htr.returned hc hidle.2
            · exact .inl hreq
          · exact .inl hold
      · rename_i hbusy
        refine h.of_step hr hstep (fun t c' ids' he => (hcur he).imp_right ?_) fun _ _ _ hmem => .inl hmem
        rintro ⟨rfl, ⟨⟩⟩
        refine ⟨hbusy, fun hc => ?_⟩
        exact ((h.current t c ids hu hc).of_goes hr hstep hgoes).resolve_right fun hdead => hbusy ⟨hdead.1, hdead.2.1⟩

end Recorded

theorem recorded_of_reachable {p : State n × Observed n} (hr : (observedContext n).Reachable publicInOrder.observed p) :
    Recorded p.1 p.2 := by
  refine hr.observed_invariant (I := Recorded) (fun s _ => ?_) fun s l s' o hro hstep _ h => ?_
  · refine ⟨fun t e he => ?_, fun t c ids he => ?_, fun c id ids hmem => ?_⟩
    · cases he
    · cases he
    · cases hmem
  have hpub := publicInOrder_public hro.of_observe
  have hstep : s.step l = some s' := hstep
  have hcall : Recorded s' (o.recordCall s l s') := by
    cases l with
    | main env => exact h.of_step hpub hstep (fun t c ids hcur => .inl ⟨hcur, nofun⟩) fun _ _ _ hmem => .inl hmem
    | api u env => exact h.step_api hpub hstep
    | call u c => exact h.step_call hpub hstep
  exact ⟨hcall.busy, hcall.current, hcall.returns⟩

/-! ### The status of a transfer -/

/-- In every run in which URPC delivers replies in the order of submission and users retrieve what a call returned, the
request ID that a transfer of at least one fragment returned stands for a result with the status OK if and only if every
fragment of the transfer was submitted and had a good reply: in the completion map, and in what a call delivers. -/
theorem transfer_status {p : State n × Observed n} (hr : (observedContext n).Reachable publicInOrder.observed p) {k : Nat} {c : Call}
    (hc : c = .asyncWriteMem k ∨ c = .asyncReadMem k) (hk : 1 ≤ k) {id : ReqId} {ids : List ReqId}
    (hret : (c, id, ids) ∈ p.2.returns) (hid : id ≠ requestIdInvalid) :
    ids.length = k ∧ ids.head? = some id ∧
      (∀ cmd, (id, cmd) ∈ p.1.sh.comq.completion.entries →
        (cmd.status = .ok ↔ ∀ a ∈ ids, (∃ req, .submit a req ∈ p.1.sh.log) ∧ (a, true) ∈ p.2.replies)) ∧
      (id ∈ deliveredIds p.1.sh.log → (∀ t cmd, .waitErase id cmd ∉ (p.1.api t).code) →
        ((∃ t, .answer t id .ok ∈ p.1.sh.log) ↔
          ∀ a ∈ ids, (∃ req, .submit a req ∈ p.1.sh.log) ∧ (a, true) ∈ p.2.replies)) := by
  have hctx := hr.of_observe
  have hchain := chained_of_reachable hr
  have hfrag : c.fragments = k := by rcases hc with rfl | rfl <;> rfl
  obtain ⟨hlen, hhead, hlinked, hint⟩ :=
    ((recorded_of_reachable hr).returns c id ids hret (by omega)).resolve_left hid
  cases ids with
  | nil => cases hhead
  | cons a ids =>
    cases hhead
    have hgood := @good_iff_of_linked _ _ _ hctx p.2.replies _ _ hlinked
    obtain ⟨⟨clo, hb, hbuff, -⟩, -⟩ := hlinked
    refine ⟨hlen.trans hfrag, rfl, fun cmd hentry => ?_, fun hdel hnone => ?_⟩
    · have hdec := hchain.status id clo cmd hb hbuff (.inl hentry)
      rw [← hgood]
      refine ⟨hdec.good, fun hg => ?_⟩
      by_contra hnot
      exact hg.not_fails hctx (hdec.fails hnot)
    · rw [← hgood]
      constructor
      · rintro ⟨t, hans⟩
        exact (hchain.answer t id (List.mem_filterMap.mpr ⟨_, hans, rfl⟩)).2 clo hb hbuff
      · intro hg
        rcases hchain.delivered id clo hb hbuff hint hdel with ⟨t, cmd, hmem⟩ | ⟨t, hans⟩ | hfails
        · exact absurd hmem (hnone t cmd)
        · obtain ⟨e, he, hgiven⟩ := List.mem_filterMap.mp hans
          cases e <;> cases hgiven
          exact ⟨t, he⟩
        · exact absurd hfails (hg.not_fails hctx)

/-- A transfer of two fragments. The call submits the first one and the progress thread the second one; both are
acknowledged, and the user takes the result. -/
def transferTrace : List (Label 1) :=
  List.flatten [[.call (some 0) (.asyncWriteMem 2)], List.replicate 12 (.api (some 0) .tau),
    [.api (some 0) (.sent 0), .api (some 0) .tau, .api (some 0) .noSlot], List.replicate 8 (.api (some 0) .tau),
    List.replicate 5 (.main .tau), [.main (.sent 1), .main .tau, .main (.reply 0 .ack)], List.replicate 3 (.main .tau),
    [.main (.reply 1 .ack)], List.replicate 3 (.main .tau), [.call (some 0) (.callPeekResult 1)],
    List.replicate 2 (.api (some 0) .tau)]

theorem transfer_status_two :
    ∃ p : State 1 × Observed 1, (observedContext 1).Reachable publicInOrder.observed p ∧
      (.asyncWriteMem 2, 1, [1, 0]) ∈ p.2.returns ∧ 1 ∈ deliveredIds p.1.sh.log ∧ .answer (some 0) 1 .ok ∈ p.1.sh.log ∧
      ∀ a ∈ [1, 0], (∃ req, .submit a req ∈ p.1.sh.log) ∧ (a, true) ∈ p.2.replies := by
  have hrun := Machine.exists_reachable_of_runCond (M := observedContext 1) (s := (State.new 1, Observed.new 1))
    (C := publicInOrder.observed) (c := fun p l p' => publicInOrderCheck p.1 l p'.1)
    (fun p l p' h => publicInOrder_of_check p.1 l p'.1 h) transferTrace
    (fun p => (.asyncWriteMem 2, 1, [1, 0]) ∈ p.2.returns ∧ 1 ∈ deliveredIds p.1.sh.log ∧
      .answer (some 0) 1 .ok ∈ p.1.sh.log ∧ ∀ t, (p.1.api t).code = []) ⟨rfl, rfl⟩ (by decide +kernel)
  obtain ⟨p, hr, hp⟩ := hrun
  obtain ⟨hret, hdel, hans, hidle⟩ := of_decide_eq_true hp
  have hstatus := (transfer_status hr (.inl rfl) (by decide) hret (by decide)).2.2.2 hdel fun t cmd => by
    rw [hidle t]
    exact List.not_mem_nil
  exact ⟨p, hr, hret, hdel, hans, hstatus.mp ⟨some 0, hans⟩⟩

/-- A transfer of size zero has passed its test for `is_alive` when a pass of another thread finds the VE process terminated
and cancels what it finds in the queue. -/
def emptyTransferTrace : List (Label 2) :=
  List.flatten [[.call (some 0) (.asyncWriteMem 0), .api (some 0) .tau, .call (some 1) (.callPeekResult requestIdInvalid)],
    List.replicate 3 (.api (some 1) .tau), [.api (some 1) .dead, .api (some 1) .tau], List.replicate 6 (.api (some 0) .tau),
    List.replicate 2 (.api (some 1) .tau), [.call (some 0) (.callPeekResult 0)], List.replicate 2 (.api (some 0) .tau)]

/-- The request of a transfer of size zero, which has no fragment, is delivered with the status ERROR. -/
theorem empty_transfer_fails :
    ∃ p : State 2 × Observed 2, (observedContext 2).Reachable publicInOrder.observed p ∧
      (.asyncWriteMem 0, 0, [0]) ∈ p.2.returns ∧ 0 ∈ deliveredIds p.1.sh.log ∧ .answer (some 0) 0 .error ∈ p.1.sh.log ∧
      (∀ t, .answer t 0 .ok ∉ p.1.sh.log) ∧ p.1.sh.comq.completion.entries = [] ∧ (p.1.api (some 0)).code = [] := by
  have hrun := Machine.exists_reachable_of_runCond (M := observedContext 2) (s := (State.new 2, Observed.new 2))
    (C := publicInOrder.observed) (c := fun p l p' => publicInOrderCheck p.1 l p'.1)
    (fun p l p' h => publicInOrder_of_check p.1 l p'.1 h) emptyTransferTrace
    (fun p => (.asyncWriteMem 0, 0, [0]) ∈ p.2.returns ∧ 0 ∈ deliveredIds p.1.sh.log ∧
      .answer (some 0) 0 .error ∈ p.1.sh.log ∧ (∀ t, .answer t 0 .ok ∉ p.1.sh.log) ∧
      p.1.sh.comq.completion.entries = [] ∧ (p.1.api (some 0)).code = []) ⟨rfl, rfl⟩ (by decide +kernel)
  obtain ⟨p, hr, hp⟩ := hrun
  exact ⟨p, hr, of_decide_eq_true hp⟩

end Aveo

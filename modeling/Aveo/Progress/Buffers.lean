import Aveo.Progress.Chain
import Aveo.Progress.Synchronize

/-!
# The lifetime of stack images

`doCallAsync` takes the stack image of a call over from its arguments, and the closures of the requests of the call keep a
pointer to it. The submit functions of the call and of the fragments that write its tail read it, and the result functions
of the fragments that read the tail back write it. If there is no transfer the result function of the call frees it,
otherwise the finaliser does.

An observer numbers the buffers by the calls they belong to, and keeps which request refers to which buffer and which
buffers were freed. No function of a request runs that refers to a freed buffer, and no buffer is freed twice.
-/

namespace Aveo

open Lib

variable {n : Nat}

def Closure.isFinaliser : Closure → Bool
  | .finaliser _ _ _ => true
  | _ => false

/-- What an observer knows of the buffers: how many there were, the one of the call that a thread is in, the one that the
closures of a request refer to, and those that were freed. -/
structure Buffers (n : Nat) where
  next : Nat
  current : Tid n → Option Nat
  uses : ReqId → Option Nat
  freed : List Nat

namespace Buffers

def new (n : Nat) : Buffers n := { next := 0, current := fun _ => none, uses := fun _ => none, freed := [] }

/-- A call gets a buffer, and a request that a call issues refers to the buffer of the call. -/
def assign (s : State n) (l : Label n) (o : Buffers n) : Buffers n :=
  match l with
  | .main _ => o
  | .call t _ => { o with next := o.next + 1, current := Function.update o.current t (some o.next) }
  | .api t _ =>
      match Observed.issueOf s t with
      | none => o
      | some id => { o with uses := Function.update o.uses id (o.current t) }

/-- The request whose function frees its buffer in a step: a finaliser, or a call that is not a sub-request. The latter has
`stack_ == nullptr`. -/
def freeing (s : State n) (l : Label n) (s' : State n) : Option ReqId :=
  match l, s.main with
  | .main (.vhReturn _), .vh cmd => if cmd.closure.isFinaliser then some cmd.msgid else none
  | _, _ =>
      match s.cursor, s'.cursor with
      | some (.unpack cmd _), some (.received _ _) =>
          if cmd.closure = .simpleCall ∧ cmd.msgid ∉ s.sh.internal then some cmd.msgid else none
      | _, _ => none

def record (s : State n) (l : Label n) (s' : State n) (o : Buffers n) : Buffers n :=
  { assign s l o with freed := ((freeing s l s').bind o.uses).toList ++ o.freed }

end Buffers

/-- A context with the observer of its buffers. -/
def bufferedContext (n : Nat) : Machine (State n × Buffers n) (Label n) := (context n).observe (.new n) Buffers.record

/-! ### The requests that the code of a call issues -/

/-- The instructions of the code that issue a request. -/
def issueInstrs (code : List Instr) : List Instr := code.filter Instr.isIssue

theorem mem_issueInstrs {i : Instr} {code : List Instr} : i ∈ issueInstrs code ↔ i ∈ code ∧ i.isIssue = true := List.mem_filter

theorem Instr.Next.issueInstrs {r : Regs} {i : Instr} {rest code : List Instr} (h : i.Next r rest code) :
    (Aveo.issueInstrs code).Sublist (Aveo.issueInstrs rest) := by
  cases h with
  | next => exact List.Sublist.refl _
  | dead | refused => exact (List.drop_sublist _ _).filter _
  | follows hf =>
    rw [Aveo.issueInstrs, List.filter_cons, hf.isIssue]
    exact List.Sublist.refl _

theorem issueInstrs_eq_nil {code : List Instr} (h : code.any Instr.isIssue = false) : issueInstrs code = [] := by
  refine List.filter_eq_nil_iff.mpr fun i hi hissue => ?_
  rw [List.any_eq_true.mpr ⟨i, hi, hissue⟩] at h
  cases h

/-- A thread that does not start a call has no more to issue than before. -/
theorem issueInstrs_step {s s' : State n} {l : Label n} (hstep : s.step l = some s') (t : Tid n) :
    (∃ c, l = .call t c ∧ (s'.api t).code = c.code) ∨ (issueInstrs (s'.api t).code).Sublist (issueInstrs (s.api t).code) := by
  cases threadStep hstep t with
  | same hcode =>
    rw [hcode]
    exact .inr (List.Sublist.refl _)
  | @exec env exited i rest hl hphase hcode hexec =>
    right
    rw [hcode]
    exact (exec_code hexec).issueInstrs.trans ((List.sublist_cons_self i rest).filter _)
  | resumed _ hcode =>
    right
    rcases hcode with hcode | hcode <;> rw [hcode] <;> exact List.Sublist.refl _
  | called hl hcode => exact .inl ⟨_, hl, hcode⟩
  | unwound hcode =>
    right
    rw [hcode, issueInstrs_eq_nil (unwind_calm _).2.2.2]
    exact List.nil_sublist _
  | vh _ _ hcode =>
    right
    rw [hcode, issueInstrs_eq_nil (vhCode_calm _).2.2.2]
    exact List.nil_sublist _

theorem not_direct_fragments {b : Build} (hb : b ≠ .simpleCall) (kept : Bool) (k : Nat) :
    .issue .simpleCall false ∉ fragments b kept k := by
  induction k with
  | zero => simp [fragments]
  | succ k ih => simp [fragments, ifAlive, issueAndPush, hb.symm, ih]

theorem not_direct_asyncMem {b : Build} (hb : b ≠ .simpleCall) (kept : Bool) (k : Nat) :
    .issue .simpleCall false ∉ asyncMem b kept k := by
  cases k with
  | zero => simp [asyncMem, ifAlive, issueAndPush]
  | succ k => simp [asyncMem, ifAlive, issueAndPush, hb.symm, not_direct_fragments hb kept k]

theorem not_direct_largeCallAsync (copyin copyout : Bool) (w r : Nat) :
    .issue .simpleCall false ∉ largeCallAsync copyin copyout w r := by
  have hwrite := not_direct_asyncMem (b := .sendBuff) (by decide) true w
  have hread := not_direct_asyncMem (b := .recvBuff) (by decide) true r
  cases copyin <;> cases copyout <;> simp [largeCallAsync, simpleCallAsync, ifAlive, issueAndPush, hwrite, hread]

/-- A call that frees its stack image without a finaliser issues one request. -/
theorem issueInstrs_code (c : Call) (h : .issue .simpleCall false ∈ c.code) : issueInstrs c.code = [.issue .simpleCall false] := by
  cases c with
  | callAsync => rfl
  | largeCallAsync copyin copyout w r =>
    have hnot := not_direct_largeCallAsync copyin copyout w r
    simp [Call.code, ifAlive, hnot] at h
  | asyncWriteMem k => exact absurd h (not_direct_asyncMem (by decide) false k)
  | asyncReadMem k => exact absurd h (not_direct_asyncMem (by decide) false k)
  | genericAsyncReq nowait => exact absurd h (by cases nowait <;> decide)
  | sendBuffAsync | recvBuffAsync => exact absurd h (by simp [Call.code, buffAsync, ifAlive, issueAndPush])
  | callPeekResult | callWaitResult => exact absurd h (by simp [Call.code])
  | _ => exact absurd h (by decide)

theorem issueInstrs_of_direct {C : Machine.Cond (State n) (Label n)} {s : State n} (h : (context n).Reachable C s) (t : Tid n)
    (hmem : .issue .simpleCall false ∈ (s.api t).code) : issueInstrs (s.api t).code = [.issue .simpleCall false] := by
  revert hmem
  refine h.invariant (I := fun s => ∀ t, .issue .simpleCall false ∈ (s.api t).code →
    issueInstrs (s.api t).code = [.issue .simpleCall false]) ?_ (fun s l s' _ hstep _ ih t hmem => ?_) t
  · rintro s rfl t hmem
    cases hmem
  · rcases issueInstrs_step hstep t with ⟨c, -, hcode⟩ | hsub
    · rw [hcode] at hmem ⊢
      exact issueInstrs_code c hmem
    · have hmem' := mem_issueInstrs.mpr ⟨hmem, rfl⟩
      have hold := ih t (mem_issueInstrs.mp (hsub.subset hmem')).1
      rw [hold] at hsub
      rcases List.sublist_singleton.mp hsub with hnil | heq
      · rw [hnil] at hmem'
        cases hmem'
      · exact heq

/-! ### Which request refers to which buffer -/

namespace Buffers

variable {s s' : State n} {l : Label n} {o : Buffers n}

/-- A thread issues a request. -/
structure Issues (s : State n) (l : Label n) (s' : State n) (t : Tid n) (b : Build) (kept : Bool) (rest : List Instr) : Prop where
  label : ∃ env, l = .api t env
  code : (s.api t).code = .issue b kept :: rest
  code' : (s'.api t).code = rest
  cur : (s'.api t).regs.cur = some (.new s.sh.seqNo (b.closure (s.api t).regs))
  seqNo : s'.sh.seqNo = s.sh.seqNo + 1

/-- What a step does to the buffers that are in use. -/
inductive Assigns (s : State n) (l : Label n) (s' : State n) (o o' : Buffers n) : Prop
  | same (hnot : ∀ t c, l ≠ .call t c) (hnext : o'.next = o.next) (hcur : o'.current = o.current) (huses : o'.uses = o.uses)
  | call {t : Tid n} {c : Call} (hl : l = .call t c) (hnext : o'.next = o.next + 1)
      (hcur : o'.current = Function.update o.current t (some o.next)) (huses : o'.uses = o.uses)
  | issue {t : Tid n} {b : Build} {kept : Bool} {rest : List Instr} (hi : Issues s l s' t b kept rest)
      (hnext : o'.next = o.next) (hcur : o'.current = o.current)
      (huses : o'.uses = Function.update o.uses s.sh.seqNo (o.current t))

theorem assigns (hstep : s.step l = some s') : Assigns s l s' o (assign s l o) := by
  cases l with
  | main env => exact .same (fun _ _ h => by cases h) rfl rfl rfl
  | call t c => exact .call rfl rfl rfl rfl
  | api t env =>
    by_cases hissue : Observed.issueOf s t = none
    · have heq : assign s (.api t env) o = o := by simp only [assign, hissue]
      rw [heq]
      exact .same (fun _ _ h => by cases h) rfl rfl rfl
    · unfold Observed.issueOf at hissue
      split at hissue
      · rename_i b kept rest hphase hcode
        have heq : assign s (.api t env) o = { o with uses := Function.update o.uses s.sh.seqNo (o.current t) } := by
          simp only [assign, Observed.issueOf, hphase, hcode]
        obtain ⟨sh, a, hexec, rfl⟩ := exec_of_step hstep hphase hcode
        rw [heq]
        cases exec_regs hexec with
        | same hi => cases hi
        | issue _ _ hseq hcur hcode' =>
          have hissues : Issues s (.api t env) (({ s with sh := sh } : State n).setApi t a) t b kept rest := by
            refine ⟨⟨env, rfl⟩, hcode, ?_, ?_, hseq⟩
            · rw [State.setApi_api_self]
              exact hcode'
            · rw [State.setApi_api_self]
              exact hcur
          exact .issue hissues rfl rfl rfl
      · exact absurd rfl hissue

/-- A command that a thread holds was there before, in the same call, or is issued. -/
theorem cur_origin (hstep : s.step l = some s') {t : Tid n} {cmd : Command}
    (hcur' : (s'.api t).regs.cur = some cmd) :
    (∃ cmd₀, (s.api t).regs.cur = some cmd₀ ∧ cmd₀.msgid = cmd.msgid) ∧ (∀ c, l ≠ .call t c) ∨
      cmd.msgid = s.sh.seqNo ∧ (assign s l o).uses s.sh.seqNo = o.current t ∧ (assign s l o).current = o.current := by
  have hcall : ∀ c, l ≠ .call t c := by
    rintro c rfl
    cases step_cases hstep with
    | call =>
      have hnone : (c.regs (pushedIds s.sh.log).length).cur = none := by cases c <;> rfl
      rw [State.setApi_api_self, hnone] at hcur'
      cases hcur'
  cases threadStep hstep t with
  | same _ hregs | resumed _ _ hregs | unwound _ hregs => exact .inl ⟨⟨cmd, hregs ▸ hcur', rfl⟩, hcall⟩
  | called hl => exact absurd hl (hcall _)
  | vh _ _ _ hregs =>
    rw [hregs] at hcur'
    cases hcur'
  | @exec env exited i rest hl hphase hcode hexec =>
    have heff := exec_effect hexec
    generalize s'.sh = sh' at heff
    generalize s'.api t = a at heff hcur'
    cases heff with
    | quiet _ heq | take _ _ heq => exact .inl ⟨⟨cmd, heq ▸ hcur', rfl⟩, hcall⟩
    | lock => exact .inl ⟨⟨cmd, hcur', rfl⟩, hcall⟩
    | nowait hcmd _ heq =>
      rw [heq] at hcur'
      cases hcur'
      exact .inl ⟨⟨_, hcmd, rfl⟩, hcall⟩
    | push _ _ heq =>
      rw [heq] at hcur'
      cases hcur'
    | issue hi _ heq =>
      subst hi hl
      rw [heq] at hcur'
      cases hcur'
      refine .inr ⟨rfl, ?_, ?_⟩
      · simp only [assign, Observed.issueOf, hphase, hcode, Function.update_self]
      · simp only [assign, Observed.issueOf, hphase, hcode]

/-- No call with this buffer will issue another request. -/
def Closed (s : State n) (o : Buffers n) (b : Nat) : Prop := ∀ t, o.current t = some b → issueInstrs (s.api t).code = []

theorem Closed.not_issue {b : Nat} (h : Closed s o b) {t : Tid n} {bld : Build} {kept : Bool} {rest : List Instr}
    (hi : Issues s l s' t bld kept rest) : o.current t ≠ some b := by
  intro hcur
  have hnil := h t hcur
  rw [hi.code] at hnil
  cases hnil

theorem current_step (hstep : s.step l = some s') {t : Tid n} {b : Nat} (hcur : (assign s l o).current t = some b) :
    (o.current t = some b ∧ ∀ c, l ≠ .call t c) ∨ b = o.next ∧ ∃ c, l = .call t c := by
  cases assigns (o := o) hstep with
  | same hnot _ heq =>
    rw [heq] at hcur
    exact .inl ⟨hcur, hnot t⟩
  | @call u c hl _ heq =>
    rw [heq] at hcur
    by_cases hu : t = u
    · subst hu
      rw [Function.update_self] at hcur
      exact .inr ⟨(Option.some.inj hcur).symm, c, hl⟩
    · rw [Function.update_of_ne hu] at hcur
      refine .inl ⟨hcur, fun c' hc' => hu ?_⟩
      rw [hl] at hc'
      cases hc'
      rfl
  | issue hi _ heq =>
    rw [heq] at hcur
    obtain ⟨env, rfl⟩ := hi.label
    exact .inl ⟨hcur, fun c h => by cases h⟩

theorem current_of_not_call {t : Tid n} {b : Nat} (hnot : ∀ c, l ≠ .call t c) (h : o.current t = some b) :
    (assign s l o).current t = some b := by
  cases l with
  | main => exact h
  | call u c =>
    have hne : t ≠ u := fun heq => hnot c (heq ▸ rfl)
    exact (Function.update_of_ne hne _ _).trans h
  | api u env =>
    simp only [assign]
    split <;> exact h

/-- A request that refers to a buffer did so before, or is issued by a call with the buffer. -/
theorem uses_step (hstep : s.step l = some s') {a b : Nat} (huses : (assign s l o).uses a = some b) :
    o.uses a = some b ∨ a = s.sh.seqNo ∧ ∃ t bld kept rest, Issues s l s' t bld kept rest ∧ o.current t = some b := by
  cases assigns (o := o) hstep with
  | same _ _ _ heq | call _ _ _ heq =>
    rw [heq] at huses
    exact .inl huses
  | issue hi _ _ heq =>
    rw [heq] at huses
    by_cases ha : a = s.sh.seqNo
    · subst ha
      rw [Function.update_self] at huses
      exact .inr ⟨rfl, _, _, _, _, hi, huses⟩
    · rw [Function.update_of_ne ha] at huses
      exact .inl huses

theorem Closed.step {b : Nat} (hstep : s.step l = some s') (h : Closed s o b) (hb : b < o.next) :
    Closed s' (assign s l o) b := by
  intro t hcur
  rcases current_step hstep hcur with ⟨hcur, hnot⟩ | ⟨rfl, -⟩
  · rcases issueInstrs_step hstep t with ⟨c, hl, -⟩ | hsub
    · exact absurd hl (hnot c)
    · rw [h t hcur] at hsub
      exact List.sublist_nil.mp hsub
  · exact absurd hb (Nat.lt_irrefl _)

/-- The calls and their buffers: a buffer belongs to one call; a call that frees its stack image without a finaliser has
one request; and when the finaliser of a call is pushed its other requests were. -/
structure Assigned (s : State n) (o : Buffers n) : Prop where
  current_lt : ∀ t b, o.current t = some b → b < o.next
  current_inj : ∀ t u b, o.current t = some b → o.current u = some b → t = u
  uses_lt : ∀ a b, o.uses a = some b → b < o.next ∧ a < s.sh.seqNo
  held : ∀ t cmd b, (s.api t).regs.cur = some cmd → o.uses cmd.msgid = some b → o.current t = some b
  alone : ∀ t b, o.current t = some b → .issue .simpleCall false ∈ (s.api t).code → ∀ a, o.uses a ≠ some b
  single : ∀ a b, s.Built a .simpleCall → a ∉ s.sh.internal → o.uses a = some b →
    (∀ a', o.uses a' = some b → a' = a) ∧ Closed s o b
  last : ∀ f b c, s.Built f c → c.isFinaliser = true → o.uses f = some b →
    (∀ a, o.uses a = some b → a = f ∨ a ∈ pushedIds s.sh.log ∧
      (f ∈ pushedIds s.sh.log → Pipeline.Precedes (pushedIds s.sh.log) a f)) ∧ Closed s o b

namespace Assigned

theorem init : Assigned (State.new n) (Buffers.new n) where
  current_lt _ _ h := by cases h
  current_inj _ _ _ h := by cases h
  uses_lt _ _ h := by cases h
  held _ _ _ h := by cases h
  alone _ _ h := by cases h
  single _ _ _ _ h := by cases h
  last _ _ _ _ _ h := by cases h

theorem next_step (hstep : s.step l = some s') : o.next ≤ (assign s l o).next := by
  cases assigns (o := o) hstep with
  | same _ hnext | issue _ hnext => exact hnext.ge
  | call _ hnext => exact (Nat.le_succ _).trans hnext.ge

theorem current_lt_step (h : Assigned s o) (hstep : s.step l = some s') (t : Tid n) (b : Nat)
    (hcur : (assign s l o).current t = some b) : b < (assign s l o).next := by
  rcases current_step hstep hcur with ⟨hcur, -⟩ | ⟨rfl, c, rfl⟩
  · exact (h.current_lt t b hcur).trans_le (next_step hstep)
  · exact Nat.lt_succ_self _

theorem current_inj_step (h : Assigned s o) (hstep : s.step l = some s') (t u : Tid n) (b : Nat)
    (ht : (assign s l o).current t = some b) (hu : (assign s l o).current u = some b) : t = u := by
  rcases current_step hstep ht with ⟨ht, -⟩ | ⟨rfl, c, rfl⟩
  · rcases current_step hstep hu with ⟨hu, -⟩ | ⟨rfl, -⟩
    · exact h.current_inj t u b ht hu
    · exact absurd (h.current_lt t _ ht) (Nat.lt_irrefl _)
  · rcases current_step hstep hu with ⟨hu, -⟩ | ⟨-, c', heq⟩
    · exact absurd (h.current_lt u _ hu) (Nat.lt_irrefl _)
    · cases heq
      rfl

theorem uses_lt_step (hB : Basic s) (h : Assigned s o) (hstep : s.step l = some s') (a b : Nat)
    (huses : (assign s l o).uses a = some b) : b < (assign s l o).next ∧ a < s'.sh.seqNo := by
  rcases uses_step hstep huses with hold | ⟨rfl, t, bld, kept, rest, hi, hcur⟩
  · obtain ⟨hb, ha⟩ := h.uses_lt a b hold
    exact ⟨hb.trans_le (next_step hstep), ha.trans_le (grows hB hstep).seqNo⟩
  · refine ⟨(h.current_lt t b hcur).trans_le (next_step hstep), ?_⟩
    rw [hi.seqNo]
    exact Nat.lt_succ_self _

/-- The command that a thread holds was issued by the call that the thread is in. -/
theorem held_step (hr : (context n).Reachable Machine.anyStep s) (h : Assigned s o) (hstep : s.step l = some s') (t : Tid n)
    (cmd : Command) (b : Nat) (hcur' : (s'.api t).regs.cur = some cmd) (huses : (assign s l o).uses cmd.msgid = some b) :
    (assign s l o).current t = some b := by
  have hT := Tracked.of_reachable hr
  rcases cur_origin (o := o) hstep hcur' with ⟨⟨cmd₀, hcmd, hid⟩, hcall⟩ | ⟨hid, hnew, hcurrent⟩
  · have hlt : cmd.msgid < s.sh.seqNo := hid ▸ hT.conserved.lt_of_live (.inl ⟨t, .inl hcmd⟩)
    have hold : o.current t = some b := by
      rcases uses_step hstep huses with hold | ⟨heq, -⟩
      · exact h.held t cmd₀ b hcmd (hid ▸ hold)
      · exact absurd hlt (heq ▸ Nat.lt_irrefl _)
    exact current_of_not_call hcall hold
  · rw [hcurrent, ← hnew, ← hid]
    exact huses

theorem alone_step (hr : (context n).Reachable Machine.anyStep s) (h : Assigned s o) (hstep : s.step l = some s') (t : Tid n)
    (b : Nat) (hcur : (assign s l o).current t = some b) (hmem : .issue .simpleCall false ∈ (s'.api t).code) (a : ReqId) :
    (assign s l o).uses a ≠ some b := by
  intro huses
  rcases current_step hstep hcur with ⟨hcur, hnot⟩ | ⟨rfl, c, hl⟩
  · rcases issueInstrs_step hstep t with ⟨c, hl, -⟩ | hsub
    · exact hnot c hl
    have hold := (mem_issueInstrs.mp (hsub.subset (mem_issueInstrs.mpr ⟨hmem, rfl⟩))).1
    rcases uses_step hstep huses with huses | ⟨-, u, bld, kept, rest, hi, hu⟩
    · exact h.alone t b hcur hold a huses
    · -- the thread issued the one request of its call, so it has none left to issue
      cases h.current_inj t u b hcur hu
      have hone := issueInstrs_of_direct hr t hold
      rw [hi.code, issueInstrs, List.filter_cons_of_pos rfl] at hone
      have hnil : issueInstrs rest = [] := (List.cons.inj hone).2
      rw [hi.code'] at hmem
      have hin := mem_issueInstrs.mpr ⟨hmem, rfl⟩
      rw [hnil] at hin
      cases hin
  · rcases uses_step hstep huses with huses | ⟨-, u, bld, kept, rest, hi, -⟩
    · exact absurd (h.uses_lt a _ huses).1 (Nat.lt_irrefl _)
    · obtain ⟨env, hl'⟩ := hi.label
      rw [hl] at hl'
      cases hl'

/-- While no call with the buffer issues another request, the requests that refer to it stay the same. -/
theorem uses_of_closed (hstep : s.step l = some s') {b : Nat} (hclosed : Closed s o b) {a : ReqId}
    (huses : (assign s l o).uses a = some b) : o.uses a = some b := by
  rcases uses_step hstep huses with huses | ⟨-, t, bld, kept, rest, hi, hcur⟩
  · exact huses
  · exact absurd hcur (hclosed.not_issue hi)

theorem Build.simpleCall_of_closure {b : Build} {r : Regs} (h : .simpleCall = b.closure r) : b = .simpleCall := by
  cases b <;> first | rfl | cases h

theorem single_step (hr : (context n).Reachable Machine.anyStep s) (h : Assigned s o) (hstep : s.step l = some s') (a b : Nat)
    (hbuilt : s'.Built a .simpleCall) (hint : a ∉ s'.sh.internal) (huses : (assign s l o).uses a = some b) :
    (∀ a', (assign s l o).uses a' = some b → a' = a) ∧ Closed s' (assign s l o) b := by
  have hT := Tracked.of_reachable hr
  rcases uses_step hstep huses with hold | ⟨rfl, t, bld, kept, rest, hi, hcur⟩
  · obtain ⟨hb, ha⟩ := h.uses_lt a b hold
    have hbuilt : s.Built a .simpleCall := by
      rcases built_step hT.basic hstep hbuilt with hbuilt | ⟨_, _, _, _, _, -, -, rfl, -⟩
      · exact hbuilt
      · exact absurd ha (Nat.lt_irrefl _)
    obtain ⟨hsingle, hclosed⟩ := h.single a b hbuilt (fun hmem => hint ((grows hT.basic hstep).mem_internal hmem)) hold
    exact ⟨fun a' ha' => hsingle a' (uses_of_closed hstep hclosed ha'), hclosed.step hstep hb⟩
  · rcases built_step hT.basic hstep hbuilt with hbuilt | ⟨u, env, bld', kept', rest', hl, ⟨hcode, -⟩, -, hclo, hint'⟩
    · exact absurd (hbuilt.lt hT) (Nat.lt_irrefl _)
    obtain ⟨env', hl'⟩ := hi.label
    rw [hl] at hl'
    cases hl'
    have hsame := hi.code.symm.trans hcode
    cases hsame
    cases Build.simpleCall_of_closure hclo
    have hkept : kept = false := by
      by_contra hne
      rw [Bool.not_eq_false] at hne
      rw [hint', hne, if_pos rfl] at hint
      exact hint List.mem_cons_self
    subst hkept
    have hone := issueInstrs_of_direct hr t (by rw [hi.code]; exact List.mem_cons_self)
    rw [hi.code, issueInstrs, List.filter_cons_of_pos rfl] at hone
    refine ⟨fun a' ha' => ?_, fun v hv => ?_⟩
    · rcases uses_step hstep ha' with ha' | ⟨rfl, -⟩
      · exact absurd ha' (h.alone t b hcur (by rw [hi.code]; exact List.mem_cons_self) a')
      · rfl
    · rcases current_step hstep hv with ⟨hv, -⟩ | ⟨-, c, hc⟩
      · cases h.current_inj v t b hv hcur
        rw [hi.code']
        exact (List.cons.inj hone).2
      · rw [hl] at hc
        cases hc

/-- What a thread that issues a request has issued before in the same call is pushed. -/
theorem pushed_of_issue (hT : Tracked s) (h : Assigned s o) {t : Tid n} {bld : Build} {kept : Bool} {rest : List Instr}
    (hi : Issues s l s' t bld kept rest) {b : Nat} (hcur : o.current t = some b) {a : ReqId} (huses : o.uses a = some b) :
    a ∈ pushedIds s.sh.log := by
  have hmem : a ∈ (pushedIds s.sh.log : Multiset ReqId) + s.heldIds := by
    rw [hT.ordered.held]
    exact Multiset.mem_range.mpr (h.uses_lt a b huses).2
  refine (Multiset.mem_add.mp hmem).resolve_right fun hheld => ?_
  obtain ⟨u, -, hu⟩ := Multiset.mem_sum.mp hheld
  cases hc : (s.api u).regs.cur with
  | none =>
    rw [hc] at hu
    cases hu
  | some cmd =>
    rw [hc] at hu
    cases Multiset.mem_singleton.mp hu
    cases h.current_inj t u b hcur (h.held u cmd b hc huses)
    rw [hT.basic.cur_of_issue hi.code] at hc
    cases hc

theorem Build.finaliser_of_closure {b : Build} {r : Regs} (h : (b.closure r).isFinaliser = true) : b = .finaliser := by
  cases b <;> first | rfl | cases h

theorem last_step (hr : (context n).Reachable Machine.anyStep s) (h : Assigned s o) (hstep : s.step l = some s') (f b : Nat)
    (c : Closure) (hbuilt : s'.Built f c) (hfin : c.isFinaliser = true) (huses : (assign s l o).uses f = some b) :
    (∀ a, (assign s l o).uses a = some b → a = f ∨ a ∈ pushedIds s'.sh.log ∧
      (f ∈ pushedIds s'.sh.log → Pipeline.Precedes (pushedIds s'.sh.log) a f)) ∧ Closed s' (assign s l o) b := by
  have hT := Tracked.of_reachable hr
  have hgrows := (grows hT.basic hstep).pushed
  rcases uses_step hstep huses with hold | ⟨rfl, t, bld, kept, rest, hi, hcur⟩
  · obtain ⟨hb, hf⟩ := h.uses_lt f b hold
    have hbuilt : s.Built f c := by
      rcases built_step hT.basic hstep hbuilt with hbuilt | ⟨_, _, _, _, _, -, -, rfl, -⟩
      · exact hbuilt
      · exact absurd hf (Nat.lt_irrefl _)
    obtain ⟨hlast, hclosed⟩ := h.last f b c hbuilt hfin hold
    refine ⟨fun a ha => ?_, hclosed.step hstep hb⟩
    refine (hlast a (uses_of_closed hstep hclosed ha)).imp_right fun ⟨hpushed, hprec⟩ => ⟨hgrows.subset hpushed, fun hf' => ?_⟩
    by_cases hfold : f ∈ pushedIds s.sh.log
    · obtain ⟨more, hmore⟩ := hgrows
      rw [← hmore]
      exact (hprec hfold).append more
    · exact Pipeline.precedes_of_grows hgrows hpushed hfold hf'
  · rcases built_step hT.basic hstep hbuilt with hbuilt | ⟨u, env, bld', kept', rest', hl, ⟨hcode, -⟩, -, hclo, -⟩
    · exact absurd (hbuilt.lt hT) (Nat.lt_irrefl _)
    obtain ⟨env', hl'⟩ := hi.label
    rw [hl] at hl'
    cases hl'
    have hsame := hi.code.symm.trans hcode
    cases hsame
    rw [hclo] at hfin
    cases Build.finaliser_of_closure hfin
    refine ⟨fun a ha => ?_, fun v hv => ?_⟩
    · rcases uses_step hstep ha with ha | ⟨rfl, -⟩
      · have hpushed := pushed_of_issue hT h hi hcur ha
        refine .inr ⟨hgrows.subset hpushed, Pipeline.precedes_of_grows hgrows hpushed fun hmem => ?_⟩
        exact absurd (hT.lt_of_pushed hmem) (Nat.lt_irrefl _)
      · exact .inl rfl
    · rcases current_step hstep hv with ⟨hv, -⟩ | ⟨-, c', hc⟩
      · cases h.current_inj v t b hv hcur
        have hplaced := placed_of_reachable hr t
        rw [hi.code] at hplaced
        rw [hi.code']
        refine issueInstrs_eq_nil ?_
        have hat := (placed_cons hplaced).1
        simp only [placedAt, placedIssue, Bool.and_eq_true] at hat
        simpa using hat.2.1.2
      · rw [hl] at hc
        cases hc

theorem step (hr : (context n).Reachable Machine.anyStep s) (h : Assigned s o) (hstep : s.step l = some s') :
    Assigned s' (assign s l o) where
  current_lt := h.current_lt_step hstep
  current_inj := h.current_inj_step hstep
  uses_lt := h.uses_lt_step (Basic.of_reachable hr) hstep
  held := h.held_step hr hstep
  alone := h.alone_step hr hstep
  single := h.single_step hr hstep
  last := h.last_step hr hstep

end Assigned

/-! ### What was freed -/

/-- The requests that refer to a freed buffer have their results, and no more of them are issued. -/
structure Freed (s : State n) (o : Buffers n) : Prop where
  settled : ∀ b ∈ o.freed, ∀ a, o.uses a = some b → s.Settled a
  closed : ∀ b ∈ o.freed, b < o.next ∧ Closed s o b
  nodup : o.freed.Nodup

/-- A step that frees the buffer of a request settles all requests that refer to the buffer. -/
structure Frees (s s' : State n) (o : Buffers n) (a b : Nat) : Prop where
  unsettled : ¬ s.Settled a
  settled : ∀ a', o.uses a' = some b → s'.Settled a'
  closed : Closed s o b

theorem frees_of_unpack (hr : (context n).Reachable Machine.anyStep s) (h : Assigned s o) (hstep : s.step l = some s')
    {cmd c : Command} {m : Reply} {failed : Bool} (hp : s.cursor = some (.unpack cmd m))
    (hp' : s'.cursor = some (.received c failed)) (hclosure : cmd.closure = .simpleCall) (hint : cmd.msgid ∉ s.sh.internal)
    {b : Nat} (huses : o.uses cmd.msgid = some b) : Frees s s' o cmd.msgid b := by
  have hT := Tracked.of_reachable hr
  have hbuilt := built_of_cursor hr hp rfl
  rw [hclosure] at hbuilt
  obtain ⟨hsingle, hclosed⟩ := h.single _ b hbuilt hint huses
  refine ⟨hT.not_settled_of_unpack hp, fun a' ha' => ?_, hclosed⟩
  rw [hsingle a' ha']
  cases cursorStep hT.basic hstep with
  | pass hp₁ hpass _ hcur =>
    cases hp.symm.trans hp₁
    exact settled_of_unpack hpass hcur
  | vhReturn _ _ _ hcur => cases hp.symm.trans hcur
  | exec _ _ _ hcur | quiet _ hcur =>
    rcases hcur with hcur | ⟨hcur, -⟩
    · cases (hcur.symm.trans hp').symm.trans hp
    · cases hp.symm.trans hcur

/-- While a VH function runs its command has no result. -/
theorem not_settled_of_vh (hT : Tracked s) {cmd : Command} (hmain : s.main = .vh cmd) : ¬ s.Settled cmd.msgid := by
  rintro (hdone | ⟨p, c, hp, hres, hid⟩)
  · exact hT.not_completed_of_vh hmain hdone
  · -- a pass inside the VH function has another command in its hand
    obtain ⟨cmd', hcmd', hsame⟩ := PassPc.hand_of_result hres
    rcases State.hand_of_cursor hp hcmd' with ⟨t, ht⟩ | hpass
    · have hmem : cmd'.msgid ∈ ∑ t : Tid n, handIds (s.api t).phase.hand := by
        refine Multiset.mem_sum.mpr ⟨t, Finset.mem_univ t, ?_⟩
        rw [ht]
        exact Multiset.mem_singleton_self _
      have hdisj := (Multiset.nodup_add.mp hT.hands_nodup).2.2
      refine Multiset.disjoint_left.mp hdisj hmem ?_
      rw [hmain, ← hsame.msgid, hid]
      exact Multiset.mem_singleton_self _
    · cases hmain.symm.trans hpass

theorem frees_of_finaliser (hr : (context n).Reachable Machine.anyStep s) (h : Assigned s o) {val : Word}
    (hstep : s.step (.main (.vhReturn val)) = some s') {cmd : Command} (hmain : s.main = .vh cmd)
    (hfin : cmd.closure.isFinaliser = true) {b : Nat} (huses : o.uses cmd.msgid = some b) : Frees s s' o cmd.msgid b := by
  have hT := Tracked.of_reachable hr
  have hvh : s.main.vhCmd = some cmd := by rw [hmain]; rfl
  have hpushed : cmd.msgid ∈ pushedIds s.sh.log := hT.mem_pushed_of_hand (.inr (by rw [hmain]; rfl))
  obtain ⟨hlast, hclosed⟩ := h.last _ b _ (built_of_vh hr hvh).1 hfin huses
  refine ⟨not_settled_of_vh hT hmain, fun a' ha' => ?_, hclosed⟩
  rcases hlast a' ha' with rfl | ⟨-, hprec⟩
  · cases step_cases hstep with
    | out hout =>
      rw [hmain] at hout
      cases hout
    | pass hmain' =>
      cases hmain.symm.trans hmain'
    | @vhReturn cmd' _ hmain' =>
      cases hmain.symm.trans hmain'
      have hcur := State.cursor_of_passOf (hT.basic.step hstep) (t := none) rfl
      exact .inr ⟨_, _, hcur, rfl, (sameCommand_vhResult cmd _ val).msgid⟩
  · exact settled_step hr hstep (.inl (completed_before_vhStart hr (vhStart_of_vh hr hvh) (hprec hpushed)))

/-- What a step frees. -/
theorem frees (hr : (context n).Reachable Machine.anyStep s) (h : Assigned s o) (hstep : s.step l = some s') {a b : Nat}
    (ha : freeing s l s' = some a) (huses : o.uses a = some b) : Frees s s' o a b := by
  unfold freeing at ha
  split at ha
  · rename_i val cmd hmain
    split at ha <;> cases ha
    rename_i hfin
    exact frees_of_finaliser hr h hstep hmain hfin huses
  · split at ha
    · rename_i cmd m c failed hp hp'
      split at ha <;> cases ha
      rename_i hdirect
      exact frees_of_unpack hr h hstep hp hp' hdirect.1 hdirect.2 huses
    · cases ha

namespace Freed

theorem init : Freed (State.new n) (Buffers.new n) where
  settled _ h := by cases h
  closed _ h := by cases h
  nodup := List.nodup_nil

theorem step (hr : (context n).Reachable Machine.anyStep s) (hA : Assigned s o) (h : Freed s o) (hstep : s.step l = some s') :
    Freed s' (record s l s' o) := by
  have hold : ∀ b, Closed s o b → ∀ a, (assign s l o).uses a = some b → o.uses a = some b := fun b hclosed a =>
    Assigned.uses_of_closed hstep hclosed
  have hsettled : ∀ b ∈ o.freed, ∀ a, (record s l s' o).uses a = some b → s'.Settled a := fun b hb a ha =>
    settled_step hr hstep (h.settled b hb a (hold b (h.closed b hb).2 a ha))
  have hclosed : ∀ b ∈ o.freed, b < (record s l s' o).next ∧ Closed s' (record s l s' o) b := fun b hb =>
    ⟨(h.closed b hb).1.trans_le (Assigned.next_step hstep), (h.closed b hb).2.step hstep (h.closed b hb).1⟩
  cases hfree : (freeing s l s').bind o.uses with
  | none =>
    have hsame : (record s l s' o).freed = o.freed := by simp only [record, hfree, Option.toList_none, List.nil_append]
    refine ⟨?_, ?_, ?_⟩
    · rw [hsame]
      exact hsettled
    · rw [hsame]
      exact hclosed
    · rw [hsame]
      exact h.nodup
  | some b =>
    obtain ⟨a, ha, huses⟩ := Option.bind_eq_some_iff.mp hfree
    have hfrees := frees hr hA hstep ha huses
    have hmore : (record s l s' o).freed = b :: o.freed := by simp only [record, hfree, Option.toList_some, List.cons_append, List.nil_append]
    refine ⟨?_, ?_, ?_⟩
    · rw [hmore]
      rintro b' hb' a' ha'
      rcases List.mem_cons.mp hb' with rfl | hb'
      · exact hfrees.settled a' (hold b' hfrees.closed a' ha')
      · exact hsettled b' hb' a' ha'
    · rw [hmore]
      intro b' hb'
      rcases List.mem_cons.mp hb' with rfl | hb'
      · have hlt := (hA.uses_lt a b' huses).1
        exact ⟨hlt.trans_le (Assigned.next_step hstep), hfrees.closed.step hstep hlt⟩
      · exact hclosed b' hb'
    · rw [hmore]
      refine List.nodup_cons.mpr ⟨fun hb => ?_, h.nodup⟩
      exact hfrees.unsettled (h.settled b hb a huses)

end Freed

end Buffers

section

open Buffers

theorem freed_of_reachable {p : State n × Buffers n} (h : (bufferedContext n).Reachable Machine.anyStep.observed p) :
    Assigned p.1 p.2 ∧ Freed p.1 p.2 := by
  refine h.observed_invariant (I := fun s o => Assigned s o ∧ Freed s o) ?_ ?_
  · rintro s rfl
    exact ⟨.init, .init⟩
  · intro s l s' o hro hstep _ ⟨hA, hF⟩
    have hr := hro.of_observe
    have hA' := hA.step hr hstep
    exact ⟨⟨hA'.current_lt, hA'.current_inj, hA'.uses_lt, hA'.held, hA'.alone, hA'.single, hA'.last⟩, hF.step hr hA hstep⟩

/-- A function of the request is about to run, or runs: its submit function, its result function or its VH function. -/
def State.AtFunction (s : State n) (id : ReqId) : Prop :=
  (∃ cmd, s.cursor = some (.popped cmd) ∧ cmd.msgid = id) ∨ (∃ cmd m, s.cursor = some (.unpack cmd m) ∧ cmd.msgid = id) ∨
    ∃ cmd, s.main = .vh cmd ∧ cmd.msgid = id

theorem State.AtFunction.not_settled {s : State n} (hT : Tracked s) {id : ReqId} (h : s.AtFunction id) : ¬ s.Settled id := by
  rcases h with ⟨cmd, hp, rfl⟩ | ⟨cmd, m, hp, rfl⟩ | ⟨cmd, hmain, rfl⟩
  · rintro (hdone | ⟨p, c, hp', hres, -⟩)
    · exact hT.not_completed_of_cursor hp rfl hdone
    · cases hp.symm.trans hp'
      cases hres
  · exact hT.not_settled_of_unpack hp
  · exact not_settled_of_vh hT hmain

/-- No function of a request runs that refers to a freed stack image, and no stack image is freed twice, in any
interleaving. -/
theorem stack_images_not_used_after_free {s : State n} {o : Buffers n}
    (h : (bufferedContext n).Reachable Machine.anyStep.observed (s, o)) :
    o.freed.Nodup ∧ ∀ id b, s.AtFunction id → o.uses id = some b → b ∉ o.freed := by
  have hF := (freed_of_reachable h).2
  have hT := Tracked.of_reachable h.of_observe
  exact ⟨hF.nodup, fun id b hat huses hb => hat.not_settled hT (hF.settled b hb id huses)⟩

/-- A call with a tail to write and to read back: the user thread submits the write, the progress thread the call and the
read, and runs the finaliser. Then the progress thread takes the request of a second call. -/
def twoCallsTrace : List (Label 1) :=
  List.flatten [[.call (some 0) (.largeCallAsync true true 1 1)], List.replicate 14 (.api (some 0) .tau), [.api (some 0) (.sent 0)],
    List.replicate 33 (.api (some 0) .tau), List.replicate 3 (.main .tau),
    [.main (.reply 0 .ack), .main .tau, .main .tau, .main .tau, .main .tau, .main .tau, .main (.sent 1), .main .tau,
      .main (.reply 1 (.result 7)), .main .tau, .main .tau, .main .tau, .main .tau, .main .tau, .main (.sent 2), .main .tau,
      .main (.reply 2 (.sendbuff true)), .main .tau, .main .tau, .main .tau, .main .tau, .main .tau, .main .tau,
      .api none .tau, .api none .tau, .api none .tau, .main (.vhReturn 0), .call (some 0) .callAsync],
    List.replicate 9 (.api (some 0) .tau), List.replicate 3 (.main .tau)]

/-- The request whose submit function is about to run. -/
def State.poppedId (s : State n) : Option ReqId :=
  match s.cursor with
  | some (.popped cmd) => some cmd.msgid
  | _ => none

theorem State.atFunction_of_poppedId {s : State n} {id : ReqId} (h : s.poppedId = some id) : s.AtFunction id := by
  unfold State.poppedId at h
  split at h
  · rename_i cmd hp
    exact .inl ⟨cmd, hp, Option.some.inj h⟩
  · cases h

theorem stack_images_not_used_after_free_two :
    ∃ (s : State 1) (o : Buffers 1), (bufferedContext 1).Reachable Machine.anyStep.observed (s, o) ∧ o.freed = [0] ∧
      (List.range 5).map o.uses = [some 0, some 0, some 0, some 0, some 1] ∧ s.AtFunction 4 ∧ 1 ∉ o.freed := by
  have hrun : ∃ p : State 1 × Buffers 1, (bufferedContext 1).Reachable Machine.anyStep p ∧
      (p.2.freed = [0] && (List.range 5).map p.2.uses = [some 0, some 0, some 0, some 0, some 1] &&
        p.1.poppedId = some 4) = true :=
    Machine.exists_reachable_of_run (M := bufferedContext 1) (s := (.new 1, .new 1)) twoCallsTrace _ ⟨rfl, rfl⟩
      (by decide +kernel)
  obtain ⟨⟨s, o⟩, hr, hp⟩ := hrun
  simp only [Bool.and_eq_true, decide_eq_true_eq] at hp
  have hr : (bufferedContext 1).Reachable Machine.anyStep.observed (s, o) := hr.mono fun _ _ _ _ => trivial
  have hat := State.atFunction_of_poppedId hp.2
  have huses : o.uses 4 = some 1 := by
    have hlist := congrArg (fun l => l[4]?) hp.1.2
    simpa using hlist
  exact ⟨s, o, hr, hp.1.1, hp.1.2, hat, (stack_images_not_used_after_free hr).2 4 1 hat huses⟩

end

end Aveo

import Aveo.Progress.Cursor

/-!
# The events of a step

`NewEvent` says when a step writes an event to the log, with what is known of the state before. Invariants
about the log are proved from it.
-/

namespace Aveo

open Lib

variable {n : Nat}

/-! ### The log grows -/

theorem Quiet.log_grows {sh sh' : Shared n} (h : Quiet sh sh') : sh.log <+: sh'.log := by
  obtain ⟨es, hlog, -⟩ := h.log
  exact ⟨es, hlog.symm⟩

theorem Peeked.log_grows {t : Tid n} {sh sh' : Shared n} (h : Peeked t sh sh') : sh.log <+: sh'.log := by
  cases h with
  | quiet h => exact h.log_grows
  | take hentry h => exact (List.prefix_append sh.log _).trans h.log_grows

theorem ExecEffect.log_grows {t : Tid n} {sh sh' : Shared n} {r : Regs} {i : Instr} {a : Api}
    (h : ExecEffect t sh r i sh' a) : sh.log <+: sh'.log := by
  cases h with
  | quiet h | issue _ h => exact h.log_grows
  | nowait _ h | take _ h => exact (List.prefix_append sh.log _).trans h.log_grows
  | push => exact List.prefix_append _ _
  | lock => exact List.prefix_refl _

theorem PassEffect.log_grows {x : Bool} {t : Tid n} {p : PassPc} {sh sh' : Shared n} {out : PassOut}
    (h : PassEffect x t sh p sh' out) : sh.log <+: sh'.log := by
  cases h with
  | quiet _ _ _ h => exact h.log_grows
  | unpack h => exact h.log_grows
  | throws | popInFlight | complete | popRequest | defer | pushInFlight | pushRequestFront => exact List.prefix_refl _
  | discard | startVH | submit | reject | cancelRequest | cancelInflight => exact List.prefix_append _ _

theorem CursorStep.log_grows {s s' : State n} (h : CursorStep s s') : s.sh.log <+: s'.sh.log := by
  cases h with
  | pass hp hpass hsh hcur =>
    rw [hsh]
    exact (passStep_effect hpass).log_grows
  | vhReturn hmain hcmd hsh =>
    rw [hsh]
    exact List.prefix_append _ _
  | exec hcode h => exact h.log_grows
  | quiet h => exact h.log_grows

/-- What is in the log stays in it. -/
theorem CursorStep.mem_log {s s' : State n} (h : CursorStep s s') {e : Event n} (he : e ∈ s.sh.log) : e ∈ s'.sh.log :=
  h.log_grows.subset he

/-! ### Membership in the projections of the log -/

theorem mem_pushedIds {log : List (Event n)} {id : ReqId} : id ∈ pushedIds log ↔ ∃ t h c, .push t h id c ∈ log := by
  rw [pushedIds, List.mem_filterMap]
  constructor
  · rintro ⟨e, he, heq⟩
    cases e with
    | push t h x c => cases heq; exact ⟨t, h, c, he⟩
    | _ => cases heq
  · rintro ⟨t, h, c, he⟩
    exact ⟨_, he, rfl⟩

theorem mem_startedIds {log : List (Event n)} {id : ReqId} :
    id ∈ startedIds log ↔ (∃ req, .submit id req ∈ log) ∨ .reject id ∈ log ∨ .vhStart id ∈ log ∨ .cancel id true ∈ log := by
  rw [startedIds, List.mem_filterMap]
  constructor
  · rintro ⟨e, he, heq⟩
    cases e with
    | submit x req => cases heq; exact .inl ⟨req, he⟩
    | reject x => cases heq; exact .inr (.inl he)
    | vhStart x => cases heq; exact .inr (.inr (.inl he))
    | cancel x queued =>
      cases queued with
      | true => cases heq; exact .inr (.inr (.inr he))
      | false => cases heq
    | _ => cases heq
  · rintro (⟨req, he⟩ | he | he | he) <;> exact ⟨_, he, rfl⟩

theorem mem_deliveredIds {log : List (Event n)} {id : ReqId} : id ∈ deliveredIds log ↔ ∃ t, .deliver t id ∈ log := by
  rw [deliveredIds, List.mem_filterMap]
  constructor
  · rintro ⟨e, he, heq⟩
    cases e with
    | deliver t x => cases heq; exact ⟨t, he⟩
    | _ => cases heq
  · rintro ⟨t, he⟩
    exact ⟨_, he, rfl⟩

theorem mem_discardedIds {log : List (Event n)} {id : ReqId} : id ∈ discardedIds log ↔ .discard id ∈ log := by
  rw [discardedIds, List.mem_filterMap]
  constructor
  · rintro ⟨e, he, heq⟩
    cases e with
    | discard x => cases heq; exact he
    | _ => cases heq
  · intro he
    exact ⟨_, he, rfl⟩

/-! ### New events -/

inductive NewEvent (s s' : State n) : Event n → Prop
  | quiet {e : Event n} (h : e.isQuiet = true) : NewEvent s s' e
  | nowait {t : Tid n} {rest : List Instr} {cmd : Command} (hcode : (s.api t).code = .setNowait :: rest)
      (hcur : (s.api t).regs.cur = some cmd) : NewEvent s s' (.nowait cmd.msgid)
  | push {t : Tid n} {rest : List Instr} {cmd : Command} (hcode : (s.api t).code = .pushRequest :: rest)
      (hcur : (s.api t).regs.cur = some cmd) (hcur' : (s'.api t).regs.cur = none) :
      NewEvent s s' (.push t s.sh.holds cmd.msgid cmd.closure)
  | submit {cmd : Command} {req : Int} (hp : s.cursor = some (.popped cmd)) (hvh : cmd.isVH = false)
      (hreq : s.sh.accepts req = true) (hp' : s'.cursor = some (.submitted (cmd.setURPCReq req .unfinished))) :
      NewEvent s s' (.submit cmd.msgid req)
  | reject {cmd : Command} (hp : s.cursor = some (.popped cmd)) (hvh : cmd.isVH = false) : NewEvent s s' (.reject cmd.msgid)
  | vhStart {cmd : Command} (hp : s.cursor = some (.popped cmd)) (hvh : cmd.isVH = true)
      (hmain : s'.main.vhCmd = some cmd) : NewEvent s s' (.vhStart cmd.msgid)
  | vhReturn {cmd : Command} (hmain : s.main = .vh cmd) : NewEvent s s' (.vhReturn cmd.msgid)
  | cancelRequest {cmd : Command} {rest : List Command} (hp : s.cursor = some .cancelRequest)
      (hreq : s.sh.comq.request = cmd :: rest) (hp' : s'.cursor = some (.cancelledRequest cmd)) :
      NewEvent s s' (.cancel cmd.msgid true)
  | cancelInflight {req : Int} {cmd : Command} (hp : s.cursor = some .cancelInflight)
      (hentry : (req, cmd) ∈ s.sh.comq.inflight.entries) : NewEvent s s' (.cancel cmd.msgid false)
  | discard {cmd : Command} {failed : Bool} (hp : s.cursor = some (.received cmd failed)) (hnowait : cmd.nowait = true) :
      NewEvent s s' (.discard cmd.msgid)
  | deliver {t : Tid n} {id : ReqId} {c : Command} (hentry : (id, c) ∈ s.sh.comq.completion.entries) :
      NewEvent s s' (.deliver t id)

theorem Quiet.new_event {sh sh' : Shared n} (h : Quiet sh sh') {e : Event n} (he : e ∈ sh'.log) :
    e ∈ sh.log ∨ e.isQuiet = true := by
  cases hq : e.isQuiet with
  | true => exact .inr rfl
  | false => exact .inl ((h.mem_log hq).mp he)

theorem Peeked.new_event {t : Tid n} {sh sh' : Shared n} (h : Peeked t sh sh') {e : Event n} (he : e ∈ sh'.log) :
    e ∈ sh.log ∨ e.isQuiet = true ∨ ∃ id c, (id, c) ∈ sh.comq.completion.entries ∧ e = .deliver t id := by
  cases h with
  | quiet h => exact (h.new_event he).imp_right .inl
  | @take id c hentry h =>
    rcases h.new_event he with hmem | hq
    · rcases List.mem_append.mp hmem with hmem | hmem
      · exact .inl hmem
      · exact .inr (.inr ⟨id, c, hentry, List.mem_singleton.mp hmem⟩)
    · exact .inr (.inl hq)

theorem mem_append_singleton {log : List (Event n)} {e x : Event n} (h : e ∈ log ++ [x]) : e ∈ log ∨ e = x := by
  simpa using h

/-- The cursor after a step that leads to another point of the pass. -/
theorem cursor_next {s s' : State n} {p : PassPc} {out : PassOut}
    (h : s'.cursor = out.passPc ∨ out = .throws ∧ s'.cursor = s.cursor) (hout : out = .next p) : s'.cursor = some p := by
  subst hout
  exact h.resolve_right fun hthrow => nomatch hthrow.1

theorem new_event {s s' : State n} (hstep : CursorStep s s') {e : Event n} (he : e ∈ s'.sh.log) :
    e ∈ s.sh.log ∨ NewEvent s s' e := by
  cases hstep with
  | @pass x t p env sh out b hp hpass hsh hcur hvh hx =>
    have heff := passStep_effect hpass
    rw [hsh] at he
    cases heff with
    | quiet _ _ _ hq => exact (hq.new_event he).imp_right .quiet
    | throws | popInFlight | complete | popRequest | defer | pushInFlight | pushRequestFront => exact .inl he
    | cancelInflight hentry =>
      refine (mem_append_singleton he).imp_right ?_
      rintro rfl
      exact .cancelInflight hp hentry
    | unpack hpeek =>
      rcases hpeek.new_event he with hmem | hq | ⟨id, c, hentry, rfl⟩
      · exact .inl hmem
      · exact .inr (.quiet hq)
      · exact .inr (.deliver hentry)
    | discard hnowait =>
      refine (mem_append_singleton he).imp_right ?_
      rintro rfl
      exact .discard hp hnowait
    | cancelRequest hreq =>
      refine (mem_append_singleton he).imp_right ?_
      rintro rfl
      exact .cancelRequest hp hreq (cursor_next hcur rfl)
    | startVH hisVH =>
      refine (mem_append_singleton he).imp_right ?_
      rintro rfl
      exact .vhStart hp hisVH hvh
    | submit hisVH hreq =>
      refine (mem_append_singleton he).imp_right ?_
      rintro rfl
      exact .submit hp hisVH hreq (cursor_next hcur rfl)
    | reject hisVH =>
      refine (mem_append_singleton he).imp_right ?_
      rintro rfl
      exact .reject hp hisVH
  | vhReturn hmain hcmd hsh =>
    rw [hsh] at he
    refine (mem_append_singleton he).imp_right ?_
    rintro rfl
    exact .vhReturn hmain
  | quiet hq => exact (hq.new_event he).imp_right .quiet
  | @exec t exited env i rest a hcode heff hapi =>
    generalize s'.sh = sh' at heff he
    cases heff with
    | quiet hq | issue _ hq => exact (hq.new_event he).imp_right .quiet
    | nowait hcmd hq _ hi =>
      rcases hq.new_event he with hmem | hq
      · refine (mem_append_singleton hmem).imp_right ?_
        rintro rfl
        exact .nowait (hi ▸ hcode) hcmd
      · exact .inr (.quiet hq)
    | push hi hcmd hcur =>
      refine (mem_append_singleton he).imp_right ?_
      rintro rfl
      exact .push (hi ▸ hcode) hcmd (by rw [hapi]; exact hcur)
    | lock => exact .inl he
    | take hentry hq =>
      rcases (Peeked.take hentry hq).new_event he with hmem | hq | ⟨id, c, hentry, rfl⟩
      · exact .inl hmem
      · exact .inr (.quiet hq)
      · exact .inr (.deliver hentry)

end Aveo

import Aveo.Ve.Handlers
import Aveo.Lib.Machine

/-!
# Requests and replies on a peer

The loop of a VE thread over the requests of its peer. The VH numbers its requests, URPC numbers the replies that it sends,
and the VH takes a reply for the answer to the request of the same number. So the handlers have to send one reply for
each request. Whether URPC sends a reply is decided outside, as part of the label of the step.
-/

namespace Aveo

open Lib

/-- A request with its payload, and what is decided outside while it is handled. -/
inductive VeRequest
  | ping
  | exit
  | loadlib (handle : Word)
  | unloadlib (rc : BitVec 32)
  | getsym (libhndl : Word) (sym : String) (dlsym : Word)
  | alloc (addr : Word)
  | free
  | sendbuff (dst : Word) (buff : List Byte)
  | recvbuff (src dst size : Word)
  | memcpy (dst buff buffsz : Word)
  | newpeer (rc : BitVec 32)
  | call (cmd : CallCmd) (p : CallPayload) (fn : VeFunction)
  | pcircvsyc

/-- A request, and what becomes of the reply to it. -/
structure VeLabel where
  request : VeRequest
  out : SendEnd

/-- A VE thread with the number of requests it has handled, whether CHECK_REQ failed, and whether it has ended. -/
structure VePeer where
  ve : Ve
  requests : Nat
  mismatch : Bool
  exited : Bool

namespace VePeer

variable (symtable : List (String × Word)) (sp : Word)

/-- The handler that is registered for a request. -/
def handle (ve : Ve) (req : Nat) (out : SendEnd) : VeRequest → Ve × HandlerEnd
  | .ping => pingHandler ve req out
  | .exit => exitHandler ve req out
  | .loadlib handle => loadlibHandler ve req handle out
  | .unloadlib rc => unloadlibHandler ve req rc out
  | .getsym libhndl sym dlsym => getsymHandler symtable ve req libhndl sym dlsym out
  | .alloc addr => allocHandler ve req addr out
  | .free => freeHandler ve req out
  | .sendbuff dst buff => sendbuffHandler ve req dst buff out
  | .recvbuff src dst size => recvbuffHandler ve req src dst size out
  | .memcpy dst buff buffsz => memcpyHandler ve req dst buff buffsz out
  | .newpeer rc => newpeerHandler ve req rc out
  | .call cmd p fn => callHandler sp ve req cmd p fn out
  | .pcircvsyc => pcircvsycHandler ve req out

/-- The next request is handled. -/
def step (s : VePeer) (l : VeLabel) : Option VePeer :=
  if s.exited then none
  else
    let h := handle symtable sp s.ve s.requests l.out l.request
    some { ve := h.1, requests := s.requests + 1, mismatch := s.mismatch || h.2 = .mismatch, exited := h.2 = .exits }

end VePeer

/-- The machine of a VE thread, from its start with any memory. -/
def vePeer (symtable : List (String × Word)) (sp : Word) : Machine VePeer VeLabel where
  init s := s.ve.replies = [] ∧ s.requests = 0 ∧ s.mismatch = false ∧ s.exited = false
  step := VePeer.step symtable sp

/-- The function of a call ends the thread. -/
def CallPayload.Ends (cmd : CallCmd) (p : CallPayload) (fn : VeFunction) (mem : Mem) : Prop :=
  ¬ (cmd = .call ∧ p.addr = 0) ∧ fn p.addr (p.regs.take maxArgsInRegs) (stackIn cmd p mem) = none

/-- URPC sends the reply, unless the thread ends before or after it. Besides, the stack pointer of a call is the one of the
handler or is not given, and the number of a request for a new peer fits in an `int` unless its thread cannot be created. -/
def answerable (sp : Word) : Machine.Cond VePeer VeLabel := fun s l _ =>
  match l.request with
  | .exit => True
  | .call cmd p fn => (cmd = .call ∨ p.recvSp = 0 ∨ p.recvSp = sp) ∧ (l.out = .sent ∨ p.Ends cmd fn s.ve.mem)
  | .newpeer rc => (rc ≠ 0 ∨ s.requests < 2 ^ 31) ∧ l.out = .sent
  | _ => l.out = .sent

namespace VePeer

/-- The replies are the answers to the requests, in their order and with their numbers. -/
structure Lockstep (s : VePeer) : Prop where
  checked : s.mismatch = false
  replies : s.exited = false → s.ve.replies.map (fun r => (r.id, r.req)) = (List.range s.requests).map fun k => (k, k)

variable {symtable : List (String × Word)} {sp : Word} {s s' : VePeer} {l : VeLabel}

/-- A handler returned after it sent one reply. -/
structure Answers (ve : Ve) (req : Nat) (h : Ve × HandlerEnd) : Prop where
  returns : ∃ rc, h.2 = .ret rc
  reply : ∃ msg, h.1.replies = ve.replies ++ [⟨ve.replies.length, req, msg⟩]

/-- A handler that sent no reply has not answered. -/
theorem not_answers_of_replies {ve : Ve} {req : Nat} {h : Ve × HandlerEnd} (hsame : h.1.replies = ve.replies) :
    ¬ Answers ve req h := by
  rintro ⟨-, msg, hreply⟩
  rw [hsame] at hreply
  exact absurd (congrArg List.length hreply) (by simp)

theorem answers_replyUnchecked (ve : Ve) (req : Nat) (msg : VeReply) (out : SendEnd) :
    Answers ve req (replyUnchecked ve req msg out) ↔ out = .sent := by
  cases out with
  | sent => exact iff_of_true ⟨⟨0, rfl⟩, msg, rfl⟩ rfl
  | refused err => exact iff_of_false (not_answers_of_replies rfl) nofun

section

variable {ve : Ve} {req : Nat} (hlen : ve.replies.length = req)

include hlen

theorem answers_replyChecked (mem : Mem) (msg : VeReply) (out : SendEnd) :
    Answers ve req (replyChecked { ve with mem := mem } req msg out) ↔ out = .sent := by
  cases out with
  | refused err => exact iff_of_false (not_answers_of_replies rfl) nofun
  | sent =>
    refine iff_of_true ⟨⟨0, if_neg ?_⟩, msg, rfl⟩ rfl
    rw [not_not]
    exact congrArg _ hlen

/-- The number of the reply fits in an `int` exactly below `2 ^ 31`. -/
theorem answers_newpeer_sent (rc : BitVec 32) :
    Answers ve req (newpeerHandler ve req rc .sent) ↔ rc ≠ 0 ∨ req < 2 ^ 31 := by
  have hint : (BitVec.ofInt 32 (ve.replies.length : Int)).toInt = req ↔ req < 2 ^ 31 := by
    rw [hlen, BitVec.toInt_ofInt, Int.bmod_def]
    split <;> omega
  unfold newpeerHandler
  split
  · rename_i hrc
    exact ⟨fun _ => .inl hrc, fun _ => ⟨⟨-1, rfl⟩, _, rfl⟩⟩
  · rename_i hrc
    rw [or_iff_right hrc, ← hint]
    constructor
    · rintro ⟨⟨rc', hret⟩, -⟩
      by_contra hne
      have hmismatch := (if_pos hne).symm.trans hret
      cases hmismatch
    · exact fun heq => ⟨⟨rc.toInt, if_neg (not_not.mpr heq)⟩, _, rfl⟩

theorem answers_newpeer (rc : BitVec 32) (out : SendEnd) :
    Answers ve req (newpeerHandler ve req rc out) ↔ (rc ≠ 0 ∨ req < 2 ^ 31) ∧ out = .sent := by
  cases out with
  | sent => exact (answers_newpeer_sent hlen rc).trans (and_iff_left rfl).symm
  | refused err =>
    refine iff_of_false (not_answers_of_replies ?_) fun h => by cases h.2
    unfold newpeerHandler
    split <;> rfl

/-- A call is answered, or the thread ends in it, exactly if its stack pointer is not refused, and its reply is sent or its
function ends the thread. -/
theorem answers_call (sp : Word) (cmd : CallCmd) (p : CallPayload) (fn : VeFunction) (out : SendEnd) :
    (callHandler sp ve req cmd p fn out).2 = .exits ∨ Answers ve req (callHandler sp ve req cmd p fn out) ↔
      (cmd = .call ∨ p.recvSp = 0 ∨ p.recvSp = sp) ∧ (out = .sent ∨ p.Ends cmd fn ve.mem) := by
  have hchecked : ∀ (mem : Mem) (msg : VeReply), (replyChecked { ve with mem := mem } req msg out).2 ≠ .exits :=
    fun _ _ => checkReq_ne_exits _ _ _
  by_cases hsp : cmd = .call ∨ p.recvSp = 0 ∨ p.recvSp = sp
  · rw [and_iff_right hsp]
    by_cases hask : cmd = .call ∧ p.addr = 0
    · -- The stack pointer is asked for.
      rw [callHandler, if_pos hask, or_iff_right (hchecked ve.mem _), answers_replyChecked hlen ve.mem]
      exact (or_iff_left fun hends => hends.1 hask).symm
    · have hnot : ¬ ((if cmd = .call then 0 else p.recvSp) ≠ 0 ∧ (if cmd = .call then 0 else p.recvSp) ≠ sp) := by
        rintro ⟨hzero, hne⟩
        split at hzero
        · exact hzero rfl
        · rename_i hcall
          rw [if_neg hcall] at hne
          exact (hsp.resolve_left hcall).elim hzero hne
      rw [callHandler, if_neg hask, if_neg hnot, CallPayload.Ends, and_iff_right hask]
      cases hfn : fn p.addr (p.regs.take maxArgsInRegs) (stackIn cmd p ve.mem) with
      | none => exact iff_of_true (.inl rfl) (.inr rfl)
      | some res =>
        rw [or_iff_right (hchecked _ _), answers_replyChecked hlen]
        exact (or_iff_left fun hnone => by cases hnone).symm
  · obtain ⟨hcall, hzero, hne⟩ : cmd ≠ .call ∧ p.recvSp ≠ 0 ∧ p.recvSp ≠ sp := by
      rwa [not_or, not_or] at hsp
    refine iff_of_false ?_ fun h => hsp h.1
    rw [callHandler, if_neg fun h => hcall h.1, if_neg hcall, if_pos ⟨hzero, hne⟩, not_or]
    exact ⟨nofun, not_answers_of_replies rfl⟩

end

/-- A handler sends at most one reply. -/
theorem handle_replies (ve : Ve) (req : Nat) (out : SendEnd) (r : VeRequest) :
    (handle symtable sp ve req out r).1.replies = ve.replies ∨
      ∃ msg, (handle symtable sp ve req out r).1.replies = ve.replies ++ [⟨ve.replies.length, req, msg⟩] := by
  cases r with
  | newpeer rc =>
    simp only [handle, newpeerHandler]
    split <;> exact Ve.send_replies _ _ _ _
  | call cmd p fn =>
    simp only [handle, callHandler]
    generalize (if cmd = .call then 0 else p.recvSp) = recvSp
    split
    · exact Ve.send_replies _ _ _ _
    · split
      · exact .inl rfl
      · split
        · exact .inl rfl
        · exact Ve.send_replies _ _ _ _
  | _ => exact Ve.send_replies _ _ _ _

/-- As long as the numbers agree, a request is answered, or the thread ends, exactly if it is answerable. -/
theorem handle_answers_iff (hlen : s.ve.replies.length = s.requests) :
    (handle symtable sp s.ve s.requests l.out l.request).2 = .exits ∨
        Answers s.ve s.requests (handle symtable sp s.ve s.requests l.out l.request) ↔
      answerable sp s l s' := by
  obtain ⟨r, out⟩ := l
  have hchecked : ∀ (mem : Mem) (msg : VeReply),
      (replyChecked { s.ve with mem := mem } s.requests msg out).2 = .exits ∨
        Answers s.ve s.requests (replyChecked { s.ve with mem := mem } s.requests msg out) ↔ out = .sent := by
    intro mem msg
    exact (or_iff_right (checkReq_ne_exits _ _ _)).trans (answers_replyChecked hlen mem msg out)
  cases r with
  | exit => exact iff_of_true (.inl rfl) trivial
  | ping | pcircvsyc => exact (or_iff_right nofun).trans (answers_replyUnchecked _ _ _ _)
  | newpeer rc =>
    refine Iff.trans (or_iff_right fun hexit => ?_) (answers_newpeer hlen rc out)
    simp only [handle, newpeerHandler] at hexit
    split at hexit
    · cases hexit
    · exact checkReq_ne_exits _ _ _ hexit
  | call cmd p fn => exact answers_call hlen sp cmd p fn out
  | _ => exact hchecked _ _

theorem Lockstep.length (hs : s.Lockstep) (hexit : s.exited = false) : s.ve.replies.length = s.requests := by
  have := congrArg List.length (hs.replies hexit)
  simpa using this

/-- A step keeps requests and replies in step exactly if the request is answerable. -/
theorem lockstep_step_iff (hs : s.Lockstep) (hstep : (vePeer symtable sp).step s l = some s') :
    s'.Lockstep ↔ answerable sp s l s' := by
  have hexit : s.exited = false := by
    by_contra hne
    rw [Bool.not_eq_false] at hne
    simp only [vePeer, step, hne, if_true] at hstep
    cases hstep
  simp only [vePeer, step, hexit, Bool.false_eq_true, if_false, Option.some.injEq] at hstep
  subst hstep
  have hlen := hs.length hexit
  have hold := hs.replies hexit
  refine Iff.trans ?_ (@handle_answers_iff symtable sp s _ l hlen)
  have hsent := @handle_replies symtable sp s.ve s.requests l.out l.request
  generalize handle symtable sp s.ve s.requests l.out l.request = h at hsent
  constructor
  · rintro ⟨hchecked, hreplies⟩
    simp only [Bool.or_eq_false_iff, decide_eq_false_iff_not] at hchecked hreplies
    cases hend : h.2 with
    | mismatch => exact absurd hend hchecked.2
    | exits => exact .inl rfl
    | ret rc =>
      have hnew := hreplies (by rw [hend]; nofun)
      refine .inr ⟨⟨rc, hend⟩, hsent.resolve_left fun hsame => ?_⟩
      have := congrArg List.length hnew
      simp only [hsame, List.length_map, List.length_range] at this
      omega
  · rintro (hend | ⟨⟨rc, hend⟩, msg, hreply⟩)
    · exact ⟨by simp [hs.checked, hend], by simp [hend]⟩
    · refine ⟨by simp [hs.checked, hend], fun _ => ?_⟩
      rw [hreply, List.map_append, hold, List.range_succ, List.map_append, hlen]
      rfl

theorem lockstep_init (hs : (vePeer symtable sp).init s) : s.Lockstep := by
  obtain ⟨hreplies, hrequests, hmismatch, -⟩ := hs
  exact ⟨hmismatch, fun _ => by rw [hreplies, hrequests]; rfl⟩

/-- Requests and replies stay in step in every run of answerable requests, and a request that is not answerable
brings them out of step. -/
theorem one_reply_per_request (symtable : List (String × Word)) (sp : Word) :
    (∀ s, (vePeer symtable sp).Reachable (answerable sp) s → s.Lockstep) ∧
      ∀ s l s', s.Lockstep → (vePeer symtable sp).step s l = some s' → s'.Lockstep → answerable sp s l s' :=
  ⟨fun _ hs => hs.invariant (fun _ => lockstep_init) fun _ _ _ _ hstep hC hl => (lockstep_step_iff hl hstep).mpr hC,
    fun _ _ _ hs hstep => (lockstep_step_iff hs hstep).mp⟩

/-- A thread before its first request. -/
def start : VePeer := { ve := ⟨fun _ => 0, 0, []⟩, requests := 0, mismatch := false, exited := false }

/-- A function that adds its registers. -/
def sumRegs : VeFunction := fun _ regs mem => some (regs.sum, mem)

/-- A call of that function with a stack image, which expects a stack pointer. -/
def sumCall (recvSp : Word) : VeRequest := .call .stkIn ⟨8, [1, 2], 16, recvSp, [5]⟩ sumRegs

/-- A request for memory and a call with the stack pointer of the handler. -/
theorem one_reply_per_request_two :
    ∃ s, (vePeer [] 64).Reachable (answerable 64) s ∧ s.requests = 2 ∧ s.exited = false ∧ s.Lockstep := by
  have hinit : (vePeer [] 64).init start := ⟨rfl, rfl, rfl, rfl⟩
  have halloc : ∀ s s', answerable 64 s ⟨.alloc 0x100, .sent⟩ s' := fun _ _ => rfl
  have hcall : ∀ s s', answerable 64 s ⟨sumCall 64, .sent⟩ s' := fun _ _ => ⟨.inr (.inr rfl), .inl rfl⟩
  have hone := (Machine.Reachable.init hinit).step rfl (halloc _ _)
  have htwo := hone.step rfl (hcall _ _)
  exact ⟨_, htwo, rfl, rfl, (one_reply_per_request [] 64).1 _ htwo⟩

/-- A call with a stack image whose stack pointer is not the one of the handler gets no reply; the reply to the next
request has its number, and CHECK_REQ fails there. -/
theorem call_without_reply :
    ∃ s s' : VePeer, (vePeer [] 64).step start ⟨sumCall 72, .sent⟩ = some s ∧ (vePeer [] 64).init start ∧
      s.requests = 1 ∧ s.exited = false ∧ s.ve.replies = [] ∧
      (vePeer [] 64).step s ⟨.alloc 0x100, .sent⟩ = some s' ∧
      s'.ve.replies = [⟨0, 1, .result 0x100⟩] ∧ s'.mismatch = true :=
  ⟨_, _, rfl, ⟨rfl, rfl, rfl, rfl⟩, rfl, rfl, rfl, rfl, rfl, rfl⟩

end VePeer

end Aveo

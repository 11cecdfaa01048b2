import Aveo.Context.State
import Aveo.Lib.Machine

/-!
# Signals in a VE process

A VE process has a thread for each open context, and all of them share the signal handler of `aveorun.c`. The handler
sends the EXCEPTION message on the peer of the main context, whichever thread was interrupted, and ends the process.

Context 0 is the main context. For each context there are the VH side, with the queue and the result functions of
`Context`, and the VE thread, which serves requests in their order and sends one reply for each of them. On the VH side
a pass receives a reply, or finds the process terminated by `waitpid`; either is one step here.
-/

namespace Aveo

open Lib

namespace CommQueue

/-- `cancelAll`. -/
def cancelAll (q : CommQueue) : CommQueue :=
  (q.request ++ q.inflight.values).foldl (fun q cmd => q.pushCompletion (cmd.setResult 0 .error))
    { q with request := [], inflight := .empty }

end CommQueue

/-- The replies that a handler of the VE sends to a command that it executed. -/
def Closure.answeredBy : Closure → Reply → Bool
  | .simpleCall, .result _ | .simpleCall, .resStk _ => true
  | .generic, .ack | .generic, .result _ => true
  | .sendBuff _, .ack => true
  | .recvBuff _, .sendbuff true => true
  | _, _ => false

def Reply.isException : Reply → Bool
  | .exception _ => true
  | _ => false

/-- A context: the VH side, the numbers of the requests that were sent, taken by the VE thread and answered, the
request in execution, and the replies that the VH has not received. `outcome` records the commands that were completed. -/
structure PeerState where
  vh : Shared 0
  sent : Nat
  served : Nat
  running : Option Nat
  replied : Nat
  replies : List (Int × Reply)
  outcome : List (ReqId × CommandState)

/-- A VE process with its contexts. `raised` records the context and the request in which a signal was raised. -/
structure Process (m : Nat) where
  peer : Fin (m + 1) → PeerState
  dead : Bool
  raised : Option (Fin (m + 1) × ReqId)

namespace PeerState

def new : PeerState :=
  { vh := .new 0, sent := 0, served := 0, running := none, replied := 0, replies := [], outcome := [] }

/-- A command is sent to the VE and kept as in flight. -/
def submit (p : PeerState) (id : ReqId) (closure : Closure) : PeerState :=
  { p with
    vh := { p.vh with
      comq := p.vh.comq.pushInFlight ((Command.new id closure).setURPCReq p.sent .unfinished)
      remReqid := p.vh.remReqid.insert id }
    sent := p.sent + 1 }

/-- `urpc_generic_send` on the VE side. -/
def send (p : PeerState) (msg : Reply) : PeerState :=
  { p with replies := p.replies ++ [((p.replied : Int), msg)], replied := p.replied + 1 }

/-- The state becomes VEO_STATE_EXIT and every command is cancelled. -/
def cancel (p : PeerState) : PeerState :=
  { p with
    vh := { p.vh with state := .exit, comq := p.vh.comq.cancelAll }
    outcome := p.outcome ++ (p.vh.comq.request ++ p.vh.comq.inflight.values).map fun cmd => (cmd.msgid, .error) }

/-- A pass receives a reply: the command is taken from the map, its result function is called, and it is completed. -/
def receive (p : PeerState) (req : Int) (msg : Reply) : PeerState :=
  match p.vh.comq.popInFlight req with
  | none => { p with vh := { p.vh with thrown := true } }
  | some (cmd, q) =>
      let r := { p.vh with comq := q }.unpack none cmd msg
      let p' := { p with
        vh := { r.1 with comq := r.1.comq.pushCompletion r.2.1 }
        outcome := p.outcome ++ [(r.2.1.msgid, r.2.1.status)] }
      if r.2.2 then p'.cancel else p'

end PeerState

namespace Process

variable {m : Nat}

def new (m : Nat) : Process m := { peer := fun _ => .new, dead := false, raised := none }

def setPeer (s : Process m) (c : Fin (m + 1)) (p : PeerState) : Process m := { s with peer := Function.update s.peer c p }

inductive Label (m : Nat)
  /-- A pass of the context submits a command. -/
  | submit (c : Fin (m + 1)) (id : ReqId) (closure : Closure)
  /-- The VE thread of the context takes the next request. -/
  | serve (c : Fin (m + 1))
  /-- It has executed the request and replies. -/
  | reply (c : Fin (m + 1)) (msg : Reply)
  /-- It receives a signal while it executes the request. -/
  | signal (c : Fin (m + 1)) (signum : Word)
  /-- A pass of the context receives a reply. -/
  | poll (c : Fin (m + 1))
  /-- A pass of the context finds the process terminated. -/
  | waitpid (c : Fin (m + 1))
  /-- A result is retrieved. -/
  | retrieve (c : Fin (m + 1)) (id : ReqId)
  deriving DecidableEq

def step (s : Process m) : Label m → Option (Process m)
  | .submit c id closure =>
      if closure.isVH = false ∧ id ∉ (s.peer c).vh.comq.inflightIds ∧ id ∉ (s.peer c).outcome.map Prod.fst then
        some (s.setPeer c ((s.peer c).submit id closure))
      else none
  | .serve c =>
      if s.dead = false ∧ (s.peer c).running = none ∧ (s.peer c).served < (s.peer c).sent then
        some (s.setPeer c { s.peer c with running := some (s.peer c).served, served := (s.peer c).served + 1 })
      else none
  | .reply c msg =>
      match (s.peer c).running with
      | none => none
      | some k =>
          if s.dead = false ∧ msg.isException = false ∧
              ∀ cmd ∈ (s.peer c).vh.comq.inflight.find k, cmd.closure.answeredBy msg = true then
            some (s.setPeer c { (s.peer c).send msg with running := none })
          else none
  | .signal c signum =>
      match (s.peer c).running with
      | none => none
      | some k =>
          if s.dead = false then
            some { s.setPeer 0 ((s.peer 0).send (.exception signum)) with
              dead := true
              raised := ((s.peer c).vh.comq.inflight.find k).map fun cmd => (c, cmd.msgid) }
          else none
  | .poll c =>
      match (s.peer c).replies with
      | [] => none
      | (req, msg) :: rest => some (s.setPeer c ({ s.peer c with replies := rest }.receive req msg))
  | .waitpid c => if s.dead then some (s.setPeer c (s.peer c).cancel) else none
  | .retrieve c id => some (s.setPeer c { s.peer c with vh := ((s.peer c).vh.peekResult none id).1 })

end Process

/-- The machine of a VE process with `m + 1` contexts. -/
def process (m : Nat) : Machine (Process m) (Process.Label m) where
  init s := s = .new m
  step := Process.step

/-- Signals are raised by the thread of the main context only, and no pass looks for the end of the process while a
reply waits for it. -/
def raisedOnMain {m : Nat} : Machine.Cond (Process m) (Process.Label m) := fun s l _ =>
  match l with
  | .signal c _ => c = 0
  | .waitpid c => (s.peer c).replies = []
  | _ => True

namespace Process

variable {m : Nat}

/-- Exceptions reach their requests: the request in which a signal was raised has got the exception, or the
message for it is on its way; nothing else has got one; and no context has received a reply without a request. -/
structure Attributed (s : Process m) : Prop where
  delivered : ∀ c r, s.raised = some (c, r) → (r, .exception) ∈ (s.peer c).outcome ∨
    ∃ req signum cmd, (req, .exception signum) ∈ (s.peer c).replies ∧
      (req, cmd) ∈ (s.peer c).vh.comq.inflight.entries ∧ cmd.msgid = r
  only : ∀ c id, (id, .exception) ∈ (s.peer c).outcome → s.raised = some (c, id)
  matched : ∀ c, (s.peer c).vh.thrown = false

end Process

/-! ### Completing commands -/

section Queue

variable {q : CommQueue} {cmd : Command}

theorem CommQueue.mem_completion_pushCompletion {e : ReqId × Command}
    (he : e ∈ (q.pushCompletion cmd).completion.entries) : e ∈ q.completion.entries ∨ e = (cmd.msgid, cmd) := by
  by_cases hkey : cmd.msgid ∈ q.completion.keys
  · rw [CommQueue.pushCompletion, BlockingMap.insert_of_mem hkey] at he
    exact .inl he
  · rw [CommQueue.pushCompletion, BlockingMap.insert_entries hkey] at he
    exact (List.mem_cons.mp he).symm

/-- Cancelling leaves nothing in flight and adds commands with the status ERROR. -/
theorem CommQueue.cancelAll_spec (q : CommQueue) :
    q.cancelAll.inflight = .empty ∧ ∀ e ∈ q.cancelAll.completion.entries, e ∈ q.completion.entries ∨
      ∃ cmd ∈ q.request ++ q.inflight.values, e = (cmd.msgid, cmd.setResult 0 .error) := by
  unfold cancelAll
  generalize q.request ++ q.inflight.values = cmds
  suffices h : ∀ q' : CommQueue, q'.inflight = .empty →
      (cmds.foldl (fun q cmd => q.pushCompletion (cmd.setResult 0 .error)) q').inflight = .empty ∧
      ∀ e ∈ (cmds.foldl (fun q cmd => q.pushCompletion (cmd.setResult 0 .error)) q').completion.entries,
        e ∈ q'.completion.entries ∨ ∃ cmd ∈ cmds, e = (cmd.msgid, cmd.setResult 0 .error) from h _ rfl
  induction cmds with
  | nil => exact fun q' h => ⟨h, fun e he => .inl he⟩
  | cons c cmds ih =>
    intro q' h
    obtain ⟨hempty, hentries⟩ := ih (q'.pushCompletion (c.setResult 0 .error)) h
    refine ⟨hempty, fun e he => ?_⟩
    rcases hentries e he with hold | ⟨cmd, hmem, rfl⟩
    · rcases CommQueue.mem_completion_pushCompletion hold with hold | rfl
      · exact .inl hold
      · exact .inr ⟨c, List.mem_cons_self, rfl⟩
    · exact .inr ⟨cmd, List.mem_cons_of_mem _ hmem, rfl⟩

end Queue

section Unpack

variable {n : Nat} {sh : Shared n} {t : Tid n} {cmd : Command} {msg : Reply}

/-- What retrieving a result leaves alone. -/
theorem peekResult_frame (sh : Shared n) (t : Tid n) (id : ReqId) :
    (sh.peekResult t id).1.comq.inflight = sh.comq.inflight ∧ (sh.peekResult t id).1.thrown = sh.thrown ∧
      (∀ e ∈ (sh.peekResult t id).1.comq.completion.entries, e ∈ sh.comq.completion.entries) ∧
      ((sh.peekResult t id).2.1 = .exception → ∃ e ∈ sh.comq.completion.entries, e.2.status = .exception) := by
  by_cases hrem : id ∈ sh.remReqid
  · cases hfind : sh.comq.completion.tryFind id with
    | none =>
      have hpeek : sh.comq.peekCompletion id = none := by rw [CommQueue.peekCompletion, hfind, Option.map_none]
      rw [Shared.peekResult, if_pos hrem, hpeek]
      exact ⟨rfl, rfl, fun _ he => he, (fun h => by cases h)⟩
    | some r =>
      obtain ⟨c, m'⟩ := r
      have hpeek : sh.comq.peekCompletion id = some (c, { sh.comq with completion := m' }) := by
        rw [CommQueue.peekCompletion, hfind, Option.map_some]
      obtain ⟨hentry, rfl⟩ := BlockingMap.tryFind_eq_some.mp hfind
      rw [Shared.peekResult, if_pos hrem, hpeek]
      exact ⟨rfl, rfl, fun e he => (BlockingMap.mem_entries_erase.mp he).1, fun h => ⟨_, hentry, h⟩⟩
  · rw [Shared.peekResult, if_neg hrem]
    exact ⟨rfl, rfl, fun _ he => he, (fun h => by cases h)⟩

theorem peekPrev_frame (sh : Shared n) (t : Tid n) (prev : ReqId) :
    (sh.peekPrev t prev).1.comq.inflight = sh.comq.inflight ∧ (sh.peekPrev t prev).1.thrown = sh.thrown ∧
      (∀ e ∈ (sh.peekPrev t prev).1.comq.completion.entries, e ∈ sh.comq.completion.entries) ∧
      ((sh.peekPrev t prev).2.1 = .exception → ∃ e ∈ sh.comq.completion.entries, e.2.status = .exception) := by
  unfold Shared.peekPrev
  split
  · exact ⟨rfl, rfl, fun _ he => he, nofun⟩
  · exact peekResult_frame sh t prev

/-- What the result functions have in common: the maps lose no more than a completed command, and the command keeps
its ID. -/
structure Unpacked (sh : Shared n) (cmd : Command) (r : Shared n × Command × Bool) : Prop where
  inflight : r.1.comq.inflight = sh.comq.inflight
  thrown : r.1.thrown = sh.thrown
  completion : ∀ e ∈ r.1.comq.completion.entries, e ∈ sh.comq.completion.entries
  msgid : r.2.1.msgid = cmd.msgid

/-- The reply of a handler makes no result function fail, and gives an exception only if an earlier fragment has one. -/
theorem unpack_answered (h : cmd.closure.answeredBy msg = true) :
    Unpacked sh cmd (sh.unpack t cmd msg) ∧ (sh.unpack t cmd msg).2.2 = false ∧
      ((sh.unpack t cmd msg).2.1.status = .exception → ∃ e ∈ sh.comq.completion.entries, e.2.status = .exception) := by
  have hprev := fun prev => peekPrev_frame sh t prev
  unfold Shared.unpack
  cases hc : cmd.closure with
  | simpleCall =>
    rw [hc] at h
    cases msg with
    | result val => exact ⟨⟨rfl, rfl, fun _ he => he, rfl⟩, rfl, nofun⟩
    | resStk val => exact ⟨⟨rfl, rfl, fun _ he => he, rfl⟩, rfl, nofun⟩
    | _ => cases h
  | generic =>
    rw [hc] at h
    cases msg with
    | ack => exact ⟨⟨rfl, rfl, fun _ he => he, rfl⟩, rfl, nofun⟩
    | result val => exact ⟨⟨rfl, rfl, fun _ he => he, rfl⟩, rfl, nofun⟩
    | _ => cases h
  | sendBuff prev =>
    rw [hc] at h
    obtain ⟨hin, hthrown, hcompl, hexc⟩ := hprev prev
    cases msg with
    | ack => exact ⟨⟨hin, hthrown, hcompl, rfl⟩, rfl, hexc⟩
    | _ => cases h
  | recvBuff prev =>
    rw [hc] at h
    obtain ⟨hin, hthrown, hcompl, hexc⟩ := hprev prev
    have hmsg : msg = .sendbuff true := by
      cases msg with
      | sendbuff matching =>
        cases matching with
        | true => rfl
        | false => cases h
      | _ => cases h
    subst hmsg
    exact ⟨⟨hin, hthrown, hcompl, rfl⟩, rfl, hexc⟩
  | _ =>
    rw [hc] at h
    cases h

/-- The EXCEPTION message makes the result function of every VE command fail. -/
theorem unpack_exception {exc : Word} (h : cmd.isVH = false) :
    Unpacked sh cmd (sh.unpack t cmd (.exception exc)) ∧ (sh.unpack t cmd (.exception exc)).2.2 = true ∧
      (sh.unpack t cmd (.exception exc)).2.1.status = .exception := by
  rw [Command.isVH] at h
  unfold Shared.unpack
  cases hc : cmd.closure with
  | simpleCall => exact ⟨⟨rfl, rfl, fun _ he => he, rfl⟩, rfl, rfl⟩
  | generic => exact ⟨⟨rfl, rfl, fun _ he => he, rfl⟩, rfl, rfl⟩
  | sendBuff prev =>
    obtain ⟨hin, hthrown, hcompl, -⟩ := peekPrev_frame sh t prev
    exact ⟨⟨hin, hthrown, hcompl, rfl⟩, rfl, rfl⟩
  | recvBuff prev => exact ⟨⟨rfl, rfl, fun _ he => he, rfl⟩, rfl, rfl⟩
  | _ =>
    rw [hc] at h
    cases h

end Unpack

/-! ### The invariant -/

namespace Process

variable {m : Nat} {s s' : Process m} {l : Label m} {c : Fin (m + 1)}

/-- A context while every signal is the main context's own: the VE thread answers in order, what it has not answered is
in flight, and so is what it answered and the VH has not received. An exception is the last message of its peer, and the
process has ended then. -/
structure Sound (dead : Bool) (raised : Option ReqId) (p : PeerState) : Prop where
  keys : ∀ k ∈ p.vh.comq.inflight.keys, k < p.sent
  commands : ∀ e ∈ p.vh.comq.inflight.entries, e.2.isVH = false
  idle : dead = false → p.running = none → p.served = p.replied
  executing : dead = false → ∀ k, p.running = some k → k = p.replied ∧ p.served = k + 1
  served : p.served ≤ p.sent
  waiting : dead = false → ∀ k : Nat, p.replied ≤ k → k < p.sent → (k : Int) ∈ p.vh.comq.inflight.keys
  numbers : ∀ r ∈ p.replies, r.1 < p.replied
  distinct : (p.replies.map Prod.fst).Nodup
  pending : ∀ r ∈ p.replies, ∃ cmd, (r.1, cmd) ∈ p.vh.comq.inflight.entries ∧
    (cmd.closure.answeredBy r.2 = true ∨ r.2.isException = true ∧ raised = some cmd.msgid ∧ dead = true)
  last : ∀ r ∈ p.replies.dropLast, r.2.isException = false
  completion : ∀ e ∈ p.vh.comq.completion.entries, (e.1, e.2.status) ∈ p.outcome
  only : ∀ id, (id, .exception) ∈ p.outcome → raised = some id ∧ dead = true ∧ p.replies = []
  matched : p.vh.thrown = false
  delivered : ∀ r, raised = some r → (r, .exception) ∈ p.outcome ∨
    ∃ req signum cmd, (req, .exception signum) ∈ p.replies ∧ (req, cmd) ∈ p.vh.comq.inflight.entries ∧ cmd.msgid = r

theorem sound_new (dead : Bool) : Sound dead none .new where
  keys _ hk := by cases hk
  commands _ he := by cases he
  idle _ _ := rfl
  executing _ _ hk := by cases hk
  served := Nat.le_refl _
  waiting _ k _ hk := absurd hk (Nat.not_lt_zero k)
  numbers _ hr := by cases hr
  distinct := List.nodup_nil
  pending _ hr := by cases hr
  last _ hr := by cases hr
  completion _ he := by cases he
  only _ hid := by cases hid
  matched := rfl
  delivered _ hr := by cases hr

section

variable {dead : Bool} {raised : Option ReqId} {p : PeerState}

theorem Sound.submit (h : Sound dead raised p) (id : ReqId) {closure : Closure} (hve : closure.isVH = false) :
    Sound dead raised (p.submit id closure) := by
  have hfresh : (p.sent : Int) ∉ p.vh.comq.inflight.keys := fun hk => Int.lt_irrefl _ (h.keys _ hk)
  generalize hcmd : (Command.new id closure).setURPCReq p.sent .unfinished = cmd
  have hentries : (p.submit id closure).vh.comq.inflight.entries = ((p.sent : Int), cmd) :: p.vh.comq.inflight.entries := by
    rw [← hcmd]
    exact BlockingMap.insert_entries hfresh
  have hkeys : (p.submit id closure).vh.comq.inflight.keys = (p.sent : Int) :: p.vh.comq.inflight.keys := by
    rw [BlockingMap.keys, hentries]
    rfl
  have hold : ∀ {e}, e ∈ p.vh.comq.inflight.entries → e ∈ (p.submit id closure).vh.comq.inflight.entries := by
    intro e he
    rw [hentries]
    exact List.mem_cons_of_mem _ he
  refine { h with keys := ?_, commands := ?_, served := ?_, waiting := ?_, pending := ?_, delivered := ?_ }
  · intro k hk
    rw [hkeys] at hk
    have hsent : (p.submit id closure).sent = p.sent + 1 := rfl
    rcases List.mem_cons.mp hk with rfl | hk
    · omega
    · have := h.keys k hk
      omega
  · intro e he
    rw [hentries] at he
    rcases List.mem_cons.mp he with rfl | he
    · rw [← hcmd]
      exact hve
    · exact h.commands e he
  · exact Nat.le_succ_of_le h.served
  · intro hdead k hle hlt
    rw [hkeys]
    rcases Nat.lt_succ_iff_lt_or_eq.mp hlt with hlt | rfl
    · exact List.mem_cons_of_mem _ (h.waiting hdead k hle hlt)
    · exact List.mem_cons_self
  · intro r hr
    obtain ⟨c, hentry, hc⟩ := h.pending r hr
    exact ⟨c, hold hentry, hc⟩
  · intro r hr
    rcases h.delivered r hr with hout | ⟨req, signum, c, hmsg, hentry, hc⟩
    · exact .inl hout
    · exact .inr ⟨req, signum, c, hmsg, hold hentry, hc⟩

theorem Sound.serve (h : Sound false raised p) (hrun : p.running = none) (hlt : p.served < p.sent) :
    Sound false raised { p with running := some p.served, served := p.served + 1 } :=
  { h with
    idle := nofun
    executing := fun _ k hk => by
      cases hk
      exact ⟨h.idle rfl hrun, rfl⟩
    served := hlt }

/-- The request in execution is in flight under the number of the next reply. -/
theorem Sound.executing_entry (h : Sound false raised p) {k : Nat} (hrun : p.running = some k) :
    k = p.replied ∧ ∃ cmd, ((p.replied : Int), cmd) ∈ p.vh.comq.inflight.entries ∧ p.vh.comq.inflight.find k = some cmd := by
  obtain ⟨rfl, hserved⟩ := h.executing rfl k hrun
  have hlt : p.replied < p.sent := by
    have := h.served
    omega
  obtain ⟨e, he, hkey⟩ := List.mem_map.mp (h.waiting rfl p.replied (Nat.le_refl _) hlt)
  obtain ⟨k', cmd⟩ := e
  cases hkey
  exact ⟨rfl, cmd, he, BlockingMap.find_eq_some.mpr he⟩

theorem Sound.no_exception (h : Sound false raised p) {r : Int × Reply} (hr : r ∈ p.replies) : r.2.isException = false := by
  obtain ⟨cmd, -, hans | ⟨-, -, hdead⟩⟩ := h.pending r hr
  · cases hmsg : r.2 with
    | exception exc =>
      rw [hmsg] at hans
      cases hc : cmd.closure <;> rw [hc] at hans <;> cases hans
    | _ => rfl
  · cases hdead

/-- Before the process ends no signal was raised. -/
theorem Sound.raised_none (h : Sound false raised p) : raised = none := by
  cases raised with
  | none => rfl
  | some r =>
    rcases h.delivered r rfl with hout | ⟨req, signum, cmd, hmsg, -⟩
    · cases (h.only r hout).2.1
    · cases h.no_exception hmsg

theorem numbers_send {p : PeerState} (h : ∀ r ∈ p.replies, r.1 < p.replied) (msg : Reply) :
    ∀ r ∈ (p.send msg).replies, r.1 < (p.send msg).replied := by
  intro r hr
  have hreplied : (p.send msg).replied = p.replied + 1 := rfl
  rcases List.mem_append.mp hr with hr | hr
  · have := h r hr
    omega
  · cases List.mem_singleton.mp hr
    omega

theorem distinct_send {p : PeerState} (h : ∀ r ∈ p.replies, r.1 < p.replied) (hnodup : (p.replies.map Prod.fst).Nodup)
    (msg : Reply) : ((p.send msg).replies.map Prod.fst).Nodup := by
  rw [PeerState.send, List.map_append]
  refine hnodup.append (List.nodup_singleton _) ?_
  intro k hk hk'
  obtain ⟨r, hr, rfl⟩ := List.mem_map.mp hk
  have hlt := h r hr
  rw [List.mem_singleton.mp hk'] at hlt
  exact Int.lt_irrefl _ hlt

/-- The message that a VE thread sends about the request in execution, and what becomes of the thread. -/
theorem Sound.send (h : Sound false raised p) {k : Nat} (hrun : p.running = some k) (msg : Reply) {dead' : Bool}
    {raised' : Option ReqId} {running' : Option Nat} (hrunning : dead' = false → running' = none)
    (hmsg : ∀ cmd, p.vh.comq.inflight.find k = some cmd → cmd.closure.answeredBy msg = true ∨
      msg.isException = true ∧ raised' = some cmd.msgid ∧ dead' = true)
    (hdelivered : ∀ r, raised' = some r → ∃ signum cmd, msg = .exception signum ∧
      p.vh.comq.inflight.find k = some cmd ∧ cmd.msgid = r) :
    Sound dead' raised' { p.send msg with running := running' } := by
  obtain ⟨rfl, cmd, hentry, hfind⟩ := h.executing_entry hrun
  have hout : ∀ id, (id, .exception) ∉ p.outcome := fun id hid => by cases (h.only id hid).2.1
  refine { h with
    idle := ?_, executing := ?_, waiting := ?_, numbers := numbers_send h.numbers msg
    distinct := distinct_send h.numbers h.distinct msg, pending := ?_, last := ?_
    only := fun id hid => absurd hid (hout id), delivered := ?_ }
  · exact fun _ _ => (h.executing rfl _ hrun).2
  · intro hdead k hk
    rw [show running' = some k from hk] at hrunning
    cases hrunning hdead
  · exact fun _ k hle hlt => h.waiting rfl k (Nat.le_of_succ_le hle) hlt
  · intro r hr
    rcases List.mem_append.mp hr with hr | hr
    · obtain ⟨c, hc, hans | ⟨-, -, hdead⟩⟩ := h.pending r hr
      · exact ⟨c, hc, .inl hans⟩
      · cases hdead
    · cases List.mem_singleton.mp hr
      exact ⟨cmd, hentry, hmsg cmd hfind⟩
  · intro r hr
    rw [show ({ p.send msg with running := running' } : PeerState).replies = p.replies ++ [((p.replied : Int), msg)] from rfl,
      List.dropLast_concat] at hr
    exact h.no_exception hr
  · intro r hr
    obtain ⟨signum, c, rfl, hc, hid⟩ := hdelivered r hr
    refine .inr ⟨p.replied, signum, c, List.mem_append_right _ List.mem_cons_self, ?_, hid⟩
    exact BlockingMap.find_eq_some.mp hc

/-- The process ends; the other contexts are as they were. -/
theorem Sound.ended (h : Sound false raised p) : Sound true none p := by
  refine { h with
    idle := nofun, executing := nofun, waiting := nofun, pending := ?_, only := ?_, delivered := nofun }
  · intro r hr
    obtain ⟨c, hc, hans | ⟨-, -, hdead⟩⟩ := h.pending r hr
    · exact ⟨c, hc, .inl hans⟩
    · cases hdead
  · intro id hid
    cases (h.only id hid).2.1

/-- Everything is cancelled after the process has ended and the last reply was received. -/
theorem Sound.cancel (h : Sound true raised p) (hreplies : p.replies = []) : Sound true raised p.cancel := by
  obtain ⟨hempty, hcompl⟩ := p.vh.comq.cancelAll_spec
  have hin : p.cancel.vh.comq.inflight = .empty := hempty
  refine { h with
    keys := ?_, commands := ?_, idle := nofun, executing := nofun, waiting := nofun, pending := ?_, completion := ?_
    only := ?_, delivered := ?_ }
  · intro k hk
    rw [hin] at hk
    cases hk
  · intro e he
    rw [hin] at he
    cases he
  · intro r hr
    rw [show p.cancel.replies = [] from hreplies] at hr
    cases hr
  · intro e he
    rcases hcompl e he with hold | ⟨cmd, hmem, rfl⟩
    · exact List.mem_append_left _ (h.completion e hold)
    · exact List.mem_append_right _ (List.mem_map.mpr ⟨cmd, hmem, rfl⟩)
  · intro id hid
    rcases List.mem_append.mp hid with hold | hnew
    · exact h.only id hold
    · obtain ⟨cmd, -, heq⟩ := List.mem_map.mp hnew
      cases heq
  · intro r hr
    rcases h.delivered r hr with hout | ⟨req, signum, cmd, hmsg, -⟩
    · exact .inl (List.mem_append_left _ hout)
    · rw [hreplies] at hmsg
      cases hmsg

theorem Sound.retrieve (h : Sound dead raised p) (id : ReqId) :
    Sound dead raised { p with vh := (p.vh.peekResult none id).1 } := by
  obtain ⟨hin, hthrown, hcompl, -⟩ := peekResult_frame p.vh none id
  refine { h with
    keys := ?_, commands := ?_, waiting := ?_, pending := ?_, completion := ?_, matched := hthrown.trans h.matched
    delivered := ?_ } <;> simp only [hin]
  · exact h.keys
  · exact h.commands
  · exact h.waiting
  · exact h.pending
  · exact fun e he => h.completion e (hcompl e he)
  · exact h.delivered

/-- The command of the oldest reply leaves the map of commands in flight and is completed. -/
theorem Sound.complete (h : Sound dead raised p) {req : Int} {msg : Reply} {rest : List (Int × Reply)} {cmd : Command}
    {sh : Shared 0} {r : Shared 0 × Command × Bool} (hreplies : p.replies = (req, msg) :: rest)
    (hsh : { p.vh with comq := { p.vh.comq with inflight := p.vh.comq.inflight.erase req } } = sh) (hr : Unpacked sh cmd r)
    (hexc : r.2.1.status = .exception → raised = some cmd.msgid ∧ dead = true ∧ rest = [])
    (hmsg : msg.isException = true → r.2.1.status = .exception) :
    Sound dead raised { p with
      replies := rest
      vh := { r.1 with comq := r.1.comq.pushCompletion r.2.1 }
      outcome := p.outcome ++ [(r.2.1.msgid, r.2.1.status)] } := by
  subst hsh
  have hin : (r.1.comq.pushCompletion r.2.1).inflight = p.vh.comq.inflight.erase req := hr.inflight
  have hnodup := h.distinct
  rw [hreplies, List.map_cons, List.nodup_cons] at hnodup
  have hmem : ∀ {x}, x ∈ rest → x ∈ p.replies := fun hx => hreplies ▸ List.mem_cons_of_mem _ hx
  have hne : ∀ {x : Int × Reply}, x ∈ rest → x.1 ≠ req := fun hx heq => hnodup.1 (List.mem_map.mpr ⟨_, hx, heq⟩)
  -- The entries of the other pending replies stay.
  have hkeep : ∀ {k : Int} {c : Command}, k ≠ req → (k, c) ∈ p.vh.comq.inflight.entries →
      (k, c) ∈ (p.vh.comq.inflight.erase req).entries := fun hk hc => BlockingMap.mem_entries_erase.mpr ⟨hc, hk⟩
  have hout : ∀ id, (id, .exception) ∉ p.outcome := fun id hid => by
    have := (h.only id hid).2.2
    rw [hreplies] at this
    cases this
  refine { h with
    keys := ?_, commands := ?_, waiting := ?_, numbers := fun x hx => h.numbers x (hmem hx), distinct := hnodup.2
    pending := ?_, last := ?_, completion := ?_, only := ?_, matched := hr.thrown.trans h.matched, delivered := ?_ }
  · intro k hk
    rw [hin] at hk
    exact h.keys k (BlockingMap.mem_keys_erase.mp hk).1
  · intro e he
    rw [hin] at he
    exact h.commands e (BlockingMap.mem_entries_erase.mp he).1
  · intro hdead k hle hlt
    rw [hin]
    refine BlockingMap.mem_keys_erase.mpr ⟨h.waiting hdead k hle hlt, ?_⟩
    have hnumber : req < p.replied := h.numbers (req, msg) (hreplies ▸ List.mem_cons_self)
    have hle : p.replied ≤ k := hle
    omega
  · intro x hx
    obtain ⟨c, hc, hans⟩ := h.pending x (hmem hx)
    refine ⟨c, ?_, hans⟩
    rw [hin]
    exact hkeep (hne hx) hc
  · intro x hx
    refine h.last x ?_
    rw [hreplies]
    cases rest with
    | nil => cases hx
    | cons y ys => exact List.mem_cons_of_mem _ hx
  · intro e he
    rcases CommQueue.mem_completion_pushCompletion he with hold | rfl
    · exact List.mem_append_left _ (h.completion e (hr.completion e hold))
    · exact List.mem_append_right _ List.mem_cons_self
  · intro id hid
    rcases List.mem_append.mp hid with hold | hnew
    · exact absurd hold (hout id)
    · obtain ⟨rfl, hstatus⟩ := Prod.mk.inj (List.mem_singleton.mp hnew)
      obtain ⟨hraised, hdead, hrest⟩ := hexc hstatus.symm
      exact ⟨hr.msgid ▸ hraised, hdead, hrest⟩
  · intro id hid
    rcases h.delivered id hid with hold | ⟨req', signum, c, hpending, hc, hcid⟩
    · exact absurd hold (hout id)
    · rw [hreplies] at hpending
      rcases List.mem_cons.mp hpending with heq | hrest
      · cases heq
        have hstatus := hmsg rfl
        have hid' : cmd.msgid = id := Option.some.inj ((hexc hstatus).1.symm.trans hid)
        left
        rw [← hid', ← hr.msgid, ← hstatus]
        exact List.mem_append_right _ List.mem_cons_self
      · refine .inr ⟨req', signum, c, hrest, ?_, hcid⟩
        rw [hin]
        exact hkeep (hne hrest) hc

theorem Sound.receive (h : Sound dead raised p) {req : Int} {msg : Reply} {rest : List (Int × Reply)}
    (hreplies : p.replies = (req, msg) :: rest) :
    Sound dead raised ({ p with replies := rest }.receive req msg) := by
  obtain ⟨cmd, hentry, hmsg⟩ := h.pending (req, msg) (hreplies ▸ List.mem_cons_self)
  have hpop : p.vh.comq.popInFlight req =
      some (cmd, { p.vh.comq with inflight := p.vh.comq.inflight.erase req }) := by
    rw [CommQueue.popInFlight, BlockingMap.tryFind_eq_some.mpr ⟨hentry, rfl⟩, Option.map_some]
  simp only [PeerState.receive, hpop]
  generalize hsh : ({ p.vh with comq := { p.vh.comq with inflight := p.vh.comq.inflight.erase req } } : Shared 0) = sh
  rcases hmsg with hans | ⟨hisexc, hraised, hdead⟩
  · obtain ⟨hunpacked, hok, hstatus⟩ := @unpack_answered 0 sh none cmd msg hans
    rw [hok, if_neg Bool.false_ne_true]
    have hnot : (sh.unpack none cmd msg).2.1.status ≠ .exception := by
      intro hexc
      -- An exception in the completion map came with the last reply.
      obtain ⟨e, he, hest⟩ := hstatus hexc
      rw [← hsh] at he
      have hout := h.completion e he
      rw [hest] at hout
      have := (h.only e.1 hout).2.2
      rw [hreplies] at this
      cases this
    refine h.complete hreplies hsh hunpacked (fun hexc => absurd hexc hnot) fun hisexc => ?_
    cases hmsg' : msg with
    | exception exc =>
      rw [hmsg'] at hans
      cases hc : cmd.closure <;> rw [hc] at hans <;> cases hans
    | _ =>
      rw [hmsg'] at hisexc
      cases hisexc
  · cases hmsg' : msg with
    | exception exc =>
      obtain ⟨hunpacked, hfailed, hstatus⟩ := @unpack_exception 0 sh none cmd exc (h.commands _ hentry)
      have hrest : rest = [] := by
        cases rest with
        | nil => rfl
        | cons y ys =>
          have := h.last (req, msg) (by rw [hreplies]; exact List.mem_cons_self)
          rw [show (req, msg).2.isException = true from hisexc] at this
          cases this
      subst hdead hrest
      rw [hmsg'] at hreplies
      rw [hfailed, if_pos rfl]
      exact (h.complete hreplies hsh hunpacked (fun _ => ⟨hraised, rfl, rfl⟩) fun _ => hstatus).cancel rfl
    | _ =>
      rw [hmsg'] at hisexc
      cases hisexc

end

/-- The request in which the thread of a context raised a signal. -/
def raisedIn (s : Process m) (c : Fin (m + 1)) : Option ReqId :=
  s.raised.bind fun r => if r.1 = c then some r.2 else none

theorem raisedIn_eq_some {r : ReqId} : s.raisedIn c = some r ↔ s.raised = some (c, r) := by
  unfold raisedIn
  cases s.raised with
  | none => simp
  | some x =>
    obtain ⟨c', r'⟩ := x
    by_cases hc : c' = c
    · simp [hc]
    · simp [hc]

def AllSound (s : Process m) : Prop := ∀ c, Sound s.dead (s.raisedIn c) (s.peer c)

/-- A step that changes one context only. -/
theorem AllSound.setPeer (h : s.AllSound) {p : PeerState} (hp : Sound s.dead (s.raisedIn c) p) : (s.setPeer c p).AllSound := by
  intro c'
  by_cases hc : c' = c
  · subst hc
    rw [show (s.setPeer c' p).peer c' = p from Function.update_self _ _ _]
    exact hp
  · rw [show (s.setPeer c p).peer c' = s.peer c' from Function.update_of_ne hc _ _]
    exact h c'

/-- A signal in the thread of the main context. -/
theorem AllSound.signal (h : s.AllSound) (hdead : s.dead = false) {k : Nat} (hrun : (s.peer 0).running = some k)
    (signum : Word) :
    AllSound { s.setPeer 0 ((s.peer 0).send (.exception signum)) with
      dead := true
      raised := ((s.peer 0).vh.comq.inflight.find k).map fun cmd => (0, cmd.msgid) } := by
  have hmain := h 0
  rw [hdead] at hmain
  obtain ⟨-, cmd, -, hfind⟩ := hmain.executing_entry hrun
  rw [hfind]
  intro c
  change Sound true (if 0 = c then some cmd.msgid else none)
    (Function.update s.peer 0 ((s.peer 0).send (.exception signum)) c)
  by_cases hc : c = 0
  · subst hc
    rw [if_pos rfl, Function.update_self]
    exact hmain.send hrun (.exception signum) nofun
      (fun cmd' hcmd' => .inr ⟨rfl, by rw [Option.some.inj (hfind.symm.trans hcmd')], rfl⟩)
      fun r hr => ⟨signum, cmd, rfl, hfind, Option.some.inj hr⟩
  · have hother := h c
    rw [hdead] at hother
    rw [if_neg (Ne.symm hc), Function.update_of_ne hc]
    exact hother.ended

theorem AllSound.step (h : s.AllSound) (hstep : s.step l = some s') (hC : raisedOnMain s l s') : s'.AllSound := by
  cases l with
  | submit c id closure =>
    rw [Process.step] at hstep
    split at hstep
    · rename_i hnew
      cases hstep
      exact h.setPeer ((h c).submit id hnew.1)
    · cases hstep
  | serve c =>
    rw [Process.step] at hstep
    split at hstep
    · rename_i hserve
      cases hstep
      have hc := h c
      rw [hserve.1] at hc
      refine h.setPeer ?_
      rw [hserve.1]
      exact hc.serve hserve.2.1 hserve.2.2
    · cases hstep
  | reply c msg =>
    simp only [Process.step] at hstep
    split at hstep
    · cases hstep
    · rename_i k hrun
      split at hstep
      · rename_i hreply
        obtain ⟨hdead, -, hans⟩ := hreply
        cases hstep
        have hc := h c
        rw [hdead] at hc
        refine h.setPeer ?_
        rw [hdead, hc.raised_none]
        exact hc.send hrun msg (fun _ => rfl) (fun cmd hcmd => .inl (hans cmd hcmd)) (fun _ h => by cases h)
      · cases hstep
  | signal c signum =>
    simp only [Process.step] at hstep
    split at hstep
    · cases hstep
    · rename_i k hrun
      split at hstep
      · rename_i hdead
        cases hstep
        have hc : c = 0 := hC
        subst hc
        exact h.signal hdead hrun signum
      · cases hstep
  | poll c =>
    simp only [Process.step] at hstep
    split at hstep
    · cases hstep
    · rename_i req msg rest hreplies
      cases hstep
      exact h.setPeer ((h c).receive hreplies)
  | waitpid c =>
    rw [Process.step] at hstep
    split at hstep
    · rename_i hdead
      cases hstep
      have hc := h c
      rw [hdead] at hc
      refine h.setPeer ?_
      rw [hdead]
      exact hc.cancel hC
    · cases hstep
  | retrieve c id =>
    cases hstep
    exact h.setPeer ((h c).retrieve id)

theorem AllSound.of_reachable (hs : (process m).Reachable raisedOnMain s) : s.AllSound := by
  refine hs.invariant ?_ fun s l s' _ hstep hC h => h.step hstep hC
  rintro s rfl c
  exact sound_new false

theorem AllSound.attributed (h : s.AllSound) : s.Attributed where
  delivered c r hr := (h c).delivered r (raisedIn_eq_some.mpr hr)
  only c id hid := raisedIn_eq_some.mp ((h c).only id hid).1
  matched c := (h c).matched

/-- In every run in which the signals are the main context's own, and no pass gives the process up while a reply waits,
an exception reaches the request in which it was raised and no other. -/
theorem exception_attributed (hs : (process m).Reachable raisedOnMain s) : s.Attributed :=
  (AllSound.of_reachable hs).attributed

/-- The main context executes a call and is interrupted; another context has a call in flight. -/
def mainSignalTrace : List (Label 1) :=
  [.submit 0 5 .simpleCall, .submit 1 7 .simpleCall, .serve 1, .serve 0, .signal 0 11, .poll 0, .waitpid 1]

theorem exception_attributed_main :
    ∃ s : Process 1, (process 1).Reachable raisedOnMain s ∧ s.raised = some (0, 5) ∧
      (s.peer 0).outcome = [(5, .exception)] ∧ (s.peer 1).outcome = [(7, .error)] ∧ s.Attributed := by
  have hrun : ∃ s : Process 1, (process 1).Reachable raisedOnMain s ∧
      (s.raised = some (0, 5) && (s.peer 0).outcome = [(5, .exception)] && (s.peer 1).outcome = [(7, .error)]) = true :=
    Machine.exists_reachable_of_runCond (M := process 1) (s := Process.new 1)
      (c := fun s l _ => match l with
        | .signal c _ => c = 0
        | .waitpid c => (s.peer c).replies.isEmpty
        | _ => true)
      (by
        intro s l s' hc
        cases l with
        | signal c _ => exact (of_decide_eq_true hc : c = 0)
        | waitpid c => exact List.isEmpty_iff.mp hc
        | _ => trivial) mainSignalTrace _ rfl (by decide +kernel)
  obtain ⟨s, hs, hp⟩ := hrun
  simp only [Bool.and_eq_true, decide_eq_true_eq] at hp
  exact ⟨s, hs, hp.1.1, hp.1.2, hp.2, exception_attributed hs⟩

/-- The second context executes a call and is interrupted; a call of the main context is in flight. -/
def otherSignalTrace : List (Label 1) :=
  [.submit 0 5 .simpleCall, .submit 1 7 .simpleCall, .serve 1, .signal 1 11, .poll 0, .waitpid 1]

/-- The exception of a request of the second context completes a request of the main context; with nothing in flight the
main context cannot match the message; and a pass that finds the process terminated before it received the message
cancels the request in which the signal was raised. -/
theorem exception_misattributed :
    (∃ s : Process 1, (process 1).Reachable Machine.anyStep s ∧ s.raised = some (1, 7) ∧
      (s.peer 0).outcome = [(5, .exception)] ∧ (s.peer 1).outcome = [(7, .error)]) ∧
    (∃ s : Process 1, (process 1).Reachable Machine.anyStep s ∧ s.raised = some (1, 7) ∧ (s.peer 0).vh.thrown = true) ∧
    ∃ s : Process 0, (process 0).Reachable Machine.anyStep s ∧ s.raised = some (0, 5) ∧
      (s.peer 0).outcome = [(5, .error)] := by
  have hwrong : ∃ s : Process 1, (process 1).Reachable Machine.anyStep s ∧
      (s.raised = some (1, 7) && (s.peer 0).outcome = [(5, .exception)] && (s.peer 1).outcome = [(7, .error)]) = true :=
    Machine.exists_reachable_of_run (M := process 1) (s := Process.new 1) otherSignalTrace _ rfl (by decide +kernel)
  have hunmatched : ∃ s : Process 1, (process 1).Reachable Machine.anyStep s ∧
      (s.raised = some (1, 7) && (s.peer 0).vh.thrown) = true :=
    Machine.exists_reachable_of_run (M := process 1) (s := Process.new 1)
      [.submit 1 7 .simpleCall, .serve 1, .signal 1 11, .poll 0] _ rfl (by decide +kernel)
  have hrace : ∃ s : Process 0, (process 0).Reachable Machine.anyStep s ∧
      (s.raised = some (0, 5) && (s.peer 0).outcome = [(5, .error)]) = true :=
    Machine.exists_reachable_of_run (M := process 0) (s := Process.new 0)
      [.submit 0 5 .simpleCall, .serve 0, .signal 0 11, .waitpid 0] _ rfl (by decide +kernel)
  simp only [Bool.and_eq_true, decide_eq_true_eq, and_assoc] at hwrong hunmatched hrace
  exact ⟨hwrong, hunmatched, hrace⟩

end Process

end Aveo

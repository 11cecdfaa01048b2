import Aveo.Progress.Results
import Aveo.Ve.Peer

/-!
# A context and the VE thread of its peer

The machine of a context leaves open what the VE answers, and the machine of a VE thread leaves open which requests
come. Here the two run together: what a pass sends is queued for the VE thread, the VE thread handles one request after
the other, and a pass receives only what the VE thread sent. URPC numbers the requests and the replies that it sends from
zero and takes a reply for the answer to the request of the same number. NEWPEER requests go over the same peer.

However the threads of the VH interleave, a result function sees the reply that the VE thread gives when it handles the
requests one after the other in the order in which they were submitted, which is the order of the pushes.
-/

namespace Aveo

open Lib

variable {n : Nat}

/-! ### What a step of the context does to the peer -/

/-- What was sent on the peer: the request of a command, or a NEWPEER request of `openContext`. -/
inductive Job
  | command (id : ReqId)
  | newpeer
  deriving DecidableEq

def Job.command? : Job → Option ReqId
  | .command id => some id
  | .newpeer => none

/-- A step sends a request, or receives the reply to one. The reply to NEWPEER is not looked at. -/
inductive PeerUse
  | sends (req : Int) (job : Job)
  | receives (req : Int) (m : Option Reply)

/-- The use that a step makes of the peer. -/
def State.peerUse (s : State n) : Label n → Option PeerUse
  | .main (.sent req) =>
      match s.main with
      | .pass (.popped cmd) => some (.sends req (.command cmd.msgid))
      | _ => none
  | .main (.reply req m) => some (.receives req (some m))
  | .api t (.sent req) =>
      match (s.api t).phase, (s.api t).code with
      | .inPass (.popped cmd) _, _ => some (.sends req (.command cmd.msgid))
      | .run, .newpeerSend :: _ => some (.sends req .newpeer)
      | _, _ => none
  | .api t (.reply req m) =>
      match (s.api t).phase with
      | .inPass .poll _ => some (.receives req (some m))
      | _ => none
  | .api t .tau =>
      match (s.api t).phase, (s.api t).code with
      | .run, .newpeerWait :: _ => some (.receives (s.api t).regs.newpeerReq none)
      | _, _ => none
  | _ => none

/-- The environment decided about the peer. -/
def Env.usesPeer : Env → Bool
  | .sent _ | .reply _ _ => true
  | _ => false

/-- What a step of a pass does to the peer, by what the environment decided. -/
inductive PassUse (sh : Shared n) : PassPc → Env → Shared n → PassOut → Prop
  | submit {cmd : Command} {req : Int} (hreq : sh.accepts req = true) :
      PassUse sh (.popped cmd) (.sent req) ((sh.send req).emit (.submit cmd.msgid req))
        (.next (.submitted (cmd.setURPCReq req .unfinished)))
  | reply {req : Int} {m : Reply} {sh' : Shared n} (hlog : sh'.log = sh.log) :
      PassUse sh .poll (.reply req m) sh' (.next (.reply req m))
  | other {p : PassPc} {env : Env} {sh' : Shared n} {out : PassOut} (henv : env.usesPeer = false)
      (hout : out.movesPeer = false) (hsub : submissions sh'.log = submissions sh.log) : PassUse sh p env sh' out

theorem passStep_use {x : Bool} {t : Tid n} {sh sh' : Shared n} {p : PassPc} {env : Env} {out : PassOut}
    (h : passStep x t sh p env = some (sh', out)) : PassUse sh p env sh' out := by
  have hother : env.usesPeer = false → out.movesPeer = false → PassUse sh p env sh' out := fun henv hout =>
    .other henv hout ((passStep_effect h).submissions hout)
  cases env with
  | sent req =>
    cases p with
    | popped cmd =>
      simp only [passStep] at h
      split at h <;> cases h
      rename_i hand
      exact .submit (Bool.and_eq_true_iff.mp hand).2
    | _ => cases h
  | reply req m =>
    cases p with
    | poll =>
      simp only [passStep] at h
      split at h <;> cases h
      exact .reply rfl
    | _ => cases h
  | _ =>
    refine hother rfl ?_
    cases passStep_peer h with
    | same _ hout => exact hout
    | reply => cases h
    | submit =>
      simp only [passStep] at h
      (try split at h) <;> (try split at h) <;> cases h

/-- The cursor and the submissions after a step, by the use it makes of the peer. -/
inductive PeerStep (s s' : State n) : Option PeerUse → Prop
  | submit {cmd : Command} {req : Int} (hreq : s.sh.accepts req = true)
      (hp' : s'.cursor = some (.submitted (cmd.setURPCReq req .unfinished)))
      (hsub : submissions s'.sh.log = submissions s.sh.log ++ [(cmd.msgid, req)]) :
      PeerStep s s' (some (.sends req (.command cmd.msgid)))
  | reply {req : Int} {m : Reply} (hp' : s'.cursor = some (.reply req m))
      (hsub : submissions s'.sh.log = submissions s.sh.log) : PeerStep s s' (some (.receives req (some m)))
  | other {u : Option PeerUse} (hu : ∀ req id, u ≠ some (.sends req (.command id)))
      (hsub : submissions s'.sh.log = submissions s.sh.log)
      (hcur : ∀ req m, s'.cursor = some (.reply req m) → s.cursor = some (.reply req m)) : PeerStep s s' u

/-- A step of a pass, whichever thread makes it. -/
theorem PassUse.peerStep {s s' : State n} {p : PassPc} {env : Env} {sh : Shared n} {out : PassOut} {u : Option PeerUse}
    {b : Bool} (h : PassUse s.sh p env sh out) (hsh : s'.sh = { sh with terminated := b })
    (hcur : s'.cursor = out.passPc ∨ out = .throws ∧ s'.cursor = s.cursor)
    (hsubmit : ∀ cmd req, p = .popped cmd → env = .sent req → u = some (.sends req (.command cmd.msgid)))
    (hreply : ∀ req m, p = .poll → env = .reply req m → u = some (.receives req (some m)))
    (hother : env.usesPeer = false → u = none) : PeerStep s s' u := by
  cases h with
  | @submit cmd req hreq =>
    rw [hsubmit cmd req rfl rfl]
    refine .submit hreq (cursor_next hcur rfl) ?_
    rw [hsh]
    exact List.filterMap_append
  | @reply req m _ hlog =>
    rw [hreply req m rfl rfl]
    refine .reply (cursor_next hcur rfl) ?_
    rw [hsh]
    exact congrArg submissions hlog
  | other henv hout hsub =>
    rw [hother henv]
    refine .other (fun _ _ h => by cases h) (by rw [hsh]; exact hsub) fun req m hp' => ?_
    rcases hcur with hcur | ⟨-, hcur⟩
    · rw [hcur] at hp'
      cases out with
      | next p' => cases hp'; cases hout
      | ret | startVH | throws => cases hp'
    · rwa [← hcur]

theorem peerStep {s s' : State n} {l : Label n} (hB : Basic s) (hstep : s.step l = some s') :
    PeerStep s s' (s.peerUse l) := by
  have hB' := hB.step hstep
  have hnone : ∀ {u : Option PeerUse}, u = none → ∀ req id, u ≠ some (.sends req (.command id)) := by
    rintro _ rfl req id heq
    cases heq
  cases step_cases hstep with
  | @pass p env sh out hmain hpass =>
    obtain ⟨hcur, ⟨b, hsh⟩, hcur'⟩ := cursor_mainPass hB hB' hmain
    refine (passStep_use hpass).peerStep hsh hcur' ?_ ?_ ?_
    · rintro cmd req rfl rfl
      simp only [State.peerUse, hmain]
    · rintro req m - rfl
      rfl
    · intro henv
      cases env <;> first | rfl | cases henv
  | @apiPass t env p k sh sh' out a hphase hpass hout =>
    obtain ⟨hcur, ⟨b, hsh⟩, hcur'⟩ := cursor_apiPass hB hB' hphase hout
    have henv : ∀ e : Env, e.usesPeer = true → (if env = .uncaught then .tau else env) = e → env = e := by
      intro e he heq
      split at heq
      · subst heq
        cases he
      · exact heq
    refine (passStep_use hpass).peerStep hsh hcur' ?_ ?_ ?_
    · intro cmd req hp he
      subst hp
      rw [henv _ rfl he]
      simp only [State.peerUse, hphase]
    · intro req m hp he
      subst hp
      rw [henv _ rfl he]
      simp only [State.peerUse, hphase]
    · intro he
      cases env with
      | sent | reply => cases he
      | tau => simp only [State.peerUse, hphase]
      | _ => rfl
  | @exec t env i rest sh a hphase hcode hexec =>
    have heff := exec_effect hexec
    have hkept := cursorKept_exec hB hB' hphase (by rw [hcode]; exact List.cons_ne_nil _ _) heff
    refine .other (fun req id => ?_) heff.submissions (Peer.reply_of_kept hkept)
    cases env with
    | sent =>
      simp only [State.peerUse, hphase]
      split
      · rename_i heq
        cases heq
      · simp
      · simp
    | tau =>
      simp only [State.peerUse, hphase]
      split <;> simp
    | reply => simp [State.peerUse, hphase]
    | _ => simp [State.peerUse]
  | @out env sh main c hmain hmain' hq =>
    have hkept := cursorKept_main hB hB' (Main.isVH_of_isOut hmain).1
      ((Main.isVH_of_isOut hmain').2.trans (Main.isVH_of_isOut hmain).2.symm)
    refine .other (fun req id => ?_) hq.submissions (Peer.reply_of_kept hkept)
    cases env with
    | sent =>
      cases hm : s.main with
      | pass => rw [hm] at hmain; cases hmain
      | _ => simp [State.peerUse, hm]
    | _ => simp [State.peerUse]
  | execLock hmain | execUnlock hmain =>
    exact .other (hnone rfl) rfl
      (Peer.reply_of_kept (cursorKept_main hB hB' (by rw [hmain]; rfl) (by rw [hmain]; rfl)))
  | execTest hmain hmain' =>
    exact .other (hnone rfl) rfl (Peer.reply_of_kept (cursorKept_execTest hB hB' hmain hmain'))
  | vhReturn =>
    refine .other (hnone rfl) (submissions_append_of_none _ rfl) fun req m hp' => ?_
    cases (State.cursor_of_passOf hB' (t := none) rfl).symm.trans hp'
  | @unlock t env rv k m hphase hlock =>
    refine .other (fun req id => ?_) rfl (Peer.reply_of_kept (cursorKept_unlock hB hB' hphase))
    cases env <;> simp [State.peerUse, hphase]
  | @call t c hphase =>
    exact .other (hnone rfl) rfl (Peer.reply_of_kept (cursorKept_call hB hB' hphase))

theorem CursorStep.mem_submissions {s s' : State n} (hcs : CursorStep s s') {id : ReqId} {req : Int}
    (h : (id, req) ∈ submissions s.sh.log) : (id, req) ∈ submissions s'.sh.log :=
  Aveo.mem_submissions.mpr (hcs.mem_log (Aveo.mem_submissions.mp h))

/-- The commands in flight were submitted with their numbers. -/
structure Submitted (s : State n) : Prop where
  inflight : ∀ req cmd, (req, cmd) ∈ s.sh.comq.inflight.entries → (cmd.msgid, req) ∈ submissions s.sh.log
  entering : ∀ cmd, s.cursor = some (.submitted cmd) → (cmd.msgid, cmd.urpcReq) ∈ submissions s.sh.log

namespace Submitted

variable {s s' : State n}

theorem init : Submitted (State.new n) where
  inflight _ _ h := by cases h
  entering _ h := absurd h (State.cursor_new_ne _)

theorem of_kept (h : Submitted s) (hmem : ∀ {id req}, (id, req) ∈ submissions s.sh.log → (id, req) ∈ submissions s'.sh.log)
    (hcur : CursorKept s s') (hfli : s'.sh.comq.inflight = s.sh.comq.inflight) : Submitted s' where
  inflight req cmd he := hmem (h.inflight req cmd (hfli ▸ he))
  entering cmd hp := by
    rcases hcur with hcur | ⟨-, hcur⟩
    · exact hmem (h.entering cmd (hcur ▸ hp))
    · rw [hcur] at hp
      cases hp

theorem step (h : Submitted s) (hcs : CursorStep s s') : Submitted s' := by
  have hmem : ∀ {id req}, (id, req) ∈ submissions s.sh.log → (id, req) ∈ submissions s'.sh.log :=
    hcs.mem_submissions
  cases hcs with
  | exec _ heff _ hcur => exact h.of_kept hmem hcur heff.inflight.1
  | quiet hq hcur => exact h.of_kept hmem hcur hq.inflight
  | vhReturn _ _ hsh _ hcur' =>
    refine ⟨fun req cmd he => hmem (h.inflight req cmd (by rw [hsh] at he; exact he)), fun cmd hp => ?_⟩
    rw [hcur'] at hp
    cases hp
  | @pass x t p env sh out b hp hpass hsh hcur =>
    have heff := passStep_effect hpass
    constructor
    · intro req cmd he
      have hfli : s'.sh.comq.inflight = sh.comq.inflight := by rw [hsh]
      rw [hfli] at he
      cases heff.inflight with
      | same hfli | throws _ hfli =>
        rw [hfli] at he
        exact hmem (h.inflight req cmd he)
      | pop _ hfli | cancel _ hfli =>
        rw [hfli] at he
        exact hmem (h.inflight req cmd (BlockingMap.mem_entries_erase.mp he).1)
      | @push cmd' _ hfli =>
        rw [hfli] at he
        by_cases hkey : cmd'.urpcReq ∈ s.sh.comq.inflight.keys
        · rw [BlockingMap.insert_of_mem hkey] at he
          exact hmem (h.inflight req cmd he)
        · rw [BlockingMap.insert_entries hkey] at he
          rcases List.mem_cons.mp he with heq | he
          · cases heq
            exact hmem (h.entering cmd hp)
          · exact hmem (h.inflight req cmd he)
    · intro cmd hp'
      rcases hcur with hcur | ⟨-, hcur⟩
      · rw [hcur] at hp'
        cases passStep_use hpass with
        | @submit cmd' req hreq =>
          cases hp'
          rw [hsh]
          exact mem_submissions.mpr (List.mem_append_right _ (List.mem_singleton_self _))
        | reply => cases hp'
        | other _ hout =>
          cases out with
          | next p' => cases hp'; cases hout
          | ret | startVH | throws => cases hp'
      · exact hmem (h.entering cmd (hcur ▸ hp'))

theorem of_reachable {C : Machine.Cond (State n) (Label n)} (h : (context n).Reachable C s) : Submitted s := by
  refine h.invariant (I := Submitted) ?_ ?_
  · rintro s₀ rfl
    exact init
  · intro s l s' hr hstep _ hs
    exact hs.step (cursorStep (Basic.of_reachable hr) hstep)

end Submitted

/-- A pass is at a result function: it was there before, or it found the command of the reply it had. -/
theorem unpack_origin {s s' : State n} (hcs : CursorStep s s') {cmd : Command} {m : Reply}
    (hp' : s'.cursor = some (.unpack cmd m)) :
    s.cursor = some (.unpack cmd m) ∨
      ∃ req, s.cursor = some (.reply req m) ∧ (req, cmd) ∈ s.sh.comq.inflight.entries := by
  have hkept : CursorKept s s' → s.cursor = some (.unpack cmd m) := by
    rintro (hcur | ⟨-, hcur⟩)
    · exact hcur ▸ hp'
    · rw [hcur] at hp'
      cases hp'
  cases hcs with
  | exec _ _ _ hcur | quiet _ hcur => exact .inl (hkept hcur)
  | vhReturn _ _ _ _ hcur' =>
    rw [hcur'] at hp'
    cases hp'
  | @pass x t p env sh out b hp hpass hsh hcur =>
    rcases hcur with hcur | ⟨-, hcur⟩
    · rw [hcur] at hp'
      cases (passStep_effect hpass).inflight with
      | pop hentry => cases hp'; exact .inr ⟨_, hp, hentry⟩
      | throws | cancel | push => cases hp'
      | same _ _ _ hout =>
        cases out with
        | next p' => cases hp'; cases hout
        | ret | startVH | throws => cases hp'
    · exact .inl (hcur ▸ hp')

/-! ### The VH and the VE together -/

/-- The message of a handler as the result function of the command sees it. The result function of `recvBuffAsync`
compares the address and the size with its own. -/
def VeReply.toReply (r : VeRequest) : VeReply → Reply
  | .ack => .ack
  | .result val => .result val
  | .resStk val _ => .resStk val
  | .sendbuff dst buff =>
      match r with
      | .recvbuff _ dst' size => .sendbuff (dst' = dst && size.toNat = buff.length)
      | _ => .sendbuff false

/-- What the commands ask of the VE, by their IDs, what `pthread_create` returns in the handler of a NEWPEER request, and
what becomes of the reply to a request, both by its number. -/
structure Work where
  command : ReqId → VeRequest
  newpeer : Nat → BitVec 32
  out : Nat → SendEnd

namespace Work

def request (w : Work) (k : Nat) : Job → VeRequest
  | .command id => w.command id
  | .newpeer => .newpeer (w.newpeer k)

def label (w : Work) (k : Nat) (job : Job) : VeLabel := ⟨w.request k job, w.out k⟩

/-- The requests with their payloads, in the order in which they were sent. -/
def requests (w : Work) (sent : List Job) : List VeLabel := sent.mapIdx w.label

end Work

/-- A context with what was sent on its peer, and the VE thread of the peer. After an exception the VE thread sends an
EXCEPTION message and nothing else. -/
structure Offload (n : Nat) where
  ctx : State n
  sent : List Job
  ve : VePeer
  fault : Option Word

inductive OffloadLabel (n : Nat)
  /-- A thread of the VH takes a step. -/
  | vh (l : Label n)
  /-- The VE thread handles the next request. -/
  | serve
  /-- The signal handler of the VE sends its message. -/
  | signal (exc : Word)

namespace Offload

variable (w : Work) (symtable : List (String × Word)) (sp : Word) (v₀ : VePeer)

/-- The reply with a number, if the VE has sent it. -/
def reply (o : Offload n) (k : Nat) : Option Reply :=
  match o.ve.ve.replies[k]?, o.sent[k]? with
  | some r, some job => some (r.msg.toReply (w.request k job))
  | some _, none => none
  | none, _ => if k = o.ve.ve.replies.length then o.fault.map .exception else none

/-- What was sent after a step of the VH, if URPC lets the step happen. -/
def carry (o : Offload n) : Option PeerUse → Option (List Job)
  | none => some o.sent
  | some (.sends req job) => if req = o.sent.length then some (o.sent ++ [job]) else none
  | some (.receives req m) =>
      match o.reply w req.toNat with
      | none => none
      | some m' => if m = none ∨ m = some m' then some o.sent else none

def step (o : Offload n) : OffloadLabel n → Option (Offload n)
  | .vh l =>
      (o.ctx.step l).bind fun ctx =>
        (o.carry w (o.ctx.peerUse l)).map fun sent => { o with ctx := ctx, sent := sent }
  | .serve =>
      if o.fault.isSome then none
      else
        o.sent[o.ve.requests]?.bind fun job =>
          (VePeer.step symtable sp o.ve (w.label o.ve.requests job)).map fun ve => { o with ve := ve }
  | .signal exc => if o.fault.isSome || o.ve.exited then none else some { o with fault := some exc }

end Offload

/-- The machine of a context with the VE thread of its peer, which starts in a given state. -/
def offload (n : Nat) (w : Work) (symtable : List (String × Word)) (sp : Word) (v₀ : VePeer) :
    Machine (Offload n) (OffloadLabel n) where
  init o := o = ⟨.new n, [], v₀, none⟩ ∧ (vePeer symtable sp).init v₀
  step := Offload.step w symtable sp

/-- The requests that the VE thread handles are answerable. -/
def served (w : Work) (sp : Word) : Machine.Cond (Offload n) (OffloadLabel n) := fun o l o' =>
  match l, o.sent[o.ve.requests]? with
  | .serve, some job => answerable sp o.ve (w.label o.ve.requests job) o'.ve
  | _, _ => True

/-- Message `msg` is the reply of the VE thread to request `k`, in the state `v` that the thread is in when it has
handled the requests before it one after the other. -/
structure Work.Replies (w : Work) (symtable : List (String × Word)) (sp : Word) (v₀ : VePeer) (sent : List Job) (k : Nat)
    (v : VePeer) (msg : VeReply) : Prop where
  before : (vePeer symtable sp).run v₀ (w.requests (sent.take k)) = some v
  reply : ∃ job, sent[k]? = some job ∧
    (VePeer.handle symtable sp v.ve k (w.out k) (w.request k job)).1.replies = v.ve.replies ++ [⟨k, k, msg⟩]

theorem getElem?_grows {α : Type} {l l' : List α} (h : l <+: l') {k : Nat} {a : α} (ha : l[k]? = some a) :
    l'[k]? = some a := by
  obtain ⟨more, rfl⟩ := h
  rw [List.getElem?_append_left (List.getElem?_eq_some_iff.mp ha).1, ha]

namespace Work

variable {w : Work} {symtable : List (String × Word)} {sp : Word} {v₀ v : VePeer} {sent sent' : List Job} {k : Nat}

theorem requests_take_succ (w : Work) {job : Job} (hjob : sent[k]? = some job) :
    w.requests (sent.take (k + 1)) = w.requests (sent.take k) ++ [w.label k job] := by
  have hlen : (sent.take k).length = k := by
    rw [List.length_take, Nat.min_eq_left]
    exact Nat.le_of_lt (List.getElem?_eq_some_iff.mp hjob).1
  rw [List.take_add_one, hjob, requests, List.mapIdx_append, hlen]
  simp [requests]

theorem Replies.mono {msg : VeReply} (h : w.Replies symtable sp v₀ sent k v msg) (hmore : sent <+: sent') :
    w.Replies symtable sp v₀ sent' k v msg := by
  obtain ⟨hbefore, job, hjob, hreply⟩ := h
  refine ⟨?_, job, getElem?_grows hmore hjob, hreply⟩
  obtain ⟨more, rfl⟩ := hmore
  rwa [List.take_append_of_le_length (Nat.le_of_lt (List.getElem?_eq_some_iff.mp hjob).1)]

end Work

namespace Offload

variable {w : Work} {symtable : List (String × Word)} {sp : Word} {v₀ : VePeer} {o o' : Offload n}

/-- What a step can do. -/
inductive StepCase (w : Work) (symtable : List (String × Word)) (sp : Word) (o : Offload n) :
    OffloadLabel n → Offload n → Prop
  | vh {l : Label n} {ctx : State n} {sent : List Job} (hstep : o.ctx.step l = some ctx)
      (hcarry : o.carry w (o.ctx.peerUse l) = some sent) : StepCase w symtable sp o (.vh l) { o with ctx := ctx, sent := sent }
  | serve {job : Job} {ve : VePeer} (hfault : o.fault = none) (hjob : o.sent[o.ve.requests]? = some job)
      (hve : (vePeer symtable sp).step o.ve (w.label o.ve.requests job) = some ve) :
      StepCase w symtable sp o .serve { o with ve := ve }
  | signal {exc : Word} (hfault : o.fault = none) : StepCase w symtable sp o (.signal exc) { o with fault := some exc }

theorem stepCase {l : OffloadLabel n} (h : (offload n w symtable sp v₀).step o l = some o') :
    StepCase w symtable sp o l o' := by
  cases l with
  | vh l =>
    obtain ⟨ctx, hstep, h⟩ := Option.bind_eq_some_iff.mp h
    obtain ⟨sent, hcarry, rfl⟩ := Option.map_eq_some_iff.mp h
    exact .vh hstep hcarry
  | serve =>
    simp only [offload, step] at h
    split at h
    · cases h
    · rename_i hfault
      obtain ⟨job, hjob, h⟩ := Option.bind_eq_some_iff.mp h
      obtain ⟨ve, hve, rfl⟩ := Option.map_eq_some_iff.mp h
      exact .serve (by simpa using hfault) hjob hve
  | signal exc =>
    simp only [offload, step] at h
    split at h
    · cases h
    · rename_i hfault
      cases h
      simp only [Bool.or_eq_true, not_or, Option.not_isSome_iff_eq_none] at hfault
      exact .signal hfault.1

theorem carry_cases {u : Option PeerUse} {sent : List Job} (h : o.carry w u = some sent) :
    sent = o.sent ∧ (∀ req job, u ≠ some (.sends req job)) ∨
      ∃ req job, u = some (.sends req job) ∧ req = o.sent.length ∧ sent = o.sent ++ [job] := by
  cases u with
  | none => exact .inl ⟨(Option.some.inj h).symm, fun _ _ h => by cases h⟩
  | some u =>
    cases u with
    | sends req job =>
      simp only [carry] at h
      split at h <;> cases h
      rename_i hreq
      exact .inr ⟨req, job, rfl, hreq, rfl⟩
    | receives req m =>
      simp only [carry] at h
      split at h
      · cases h
      · split at h <;> cases h
        exact .inl ⟨rfl, fun _ _ h => by cases h⟩

theorem reply_of_carry {req : Int} {m : Reply} {sent : List Job}
    (h : o.carry w (some (.receives req (some m))) = some sent) : o.reply w req.toNat = some m := by
  simp only [carry] at h
  split at h
  · cases h
  · rename_i m' hreply
    split at h <;> cases h
    rename_i hm
    rcases hm with hm | hm
    · cases hm
    · rw [hreply, hm]

/-- What is sent stays sent, in both directions. -/
structure Extends (o o' : Offload n) : Prop where
  sent : o.sent <+: o'.sent
  replies : o.ve.ve.replies <+: o'.ve.ve.replies
  fault : ∀ exc, o.fault = some exc → o'.ve = o.ve ∧ o'.fault = some exc

/-- A handler leaves the replies before its own as they are. -/
theorem replies_of_step {s s' : VePeer} {l : VeLabel} (h : (vePeer symtable sp).step s l = some s') :
    s.exited = false ∧ s'.requests = s.requests + 1 ∧
      (s'.ve.replies = s.ve.replies ∨ ∃ msg, s'.ve.replies = s.ve.replies ++ [⟨s.ve.replies.length, s.requests, msg⟩] ∧
        s'.ve.replies = (VePeer.handle symtable sp s.ve s.requests l.out l.request).1.replies) := by
  simp only [vePeer, VePeer.step] at h
  split at h
  · cases h
  · rename_i hexit
    cases h
    refine ⟨by simpa using hexit, rfl, (VePeer.handle_replies s.ve s.requests l.out l.request).imp_right ?_⟩
    rintro ⟨msg, hmsg⟩
    exact ⟨msg, hmsg, rfl⟩

theorem StepCase.extends {l : OffloadLabel n} (h : StepCase w symtable sp o l o') : Extends o o' := by
  cases h with
  | vh hstep hcarry =>
    refine ⟨?_, List.prefix_refl _, fun exc hexc => ⟨rfl, hexc⟩⟩
    rcases carry_cases hcarry with ⟨rfl, -⟩ | ⟨req, job, -, -, rfl⟩
    · exact List.prefix_refl _
    · exact List.prefix_append _ _
  | @serve job ve hfault hjob hve =>
    refine ⟨List.prefix_refl _, ?_, fun exc hexc => by rw [hfault] at hexc; cases hexc⟩
    obtain ⟨-, -, hsame | ⟨msg, hmsg, -⟩⟩ := replies_of_step hve
    · rw [hsame]
    · rw [hmsg]
      exact List.prefix_append _ _
  | signal hfault =>
    exact ⟨List.prefix_refl _, List.prefix_refl _, fun exc hexc => by rw [hfault] at hexc; cases hexc⟩

/-- A reply that was sent stays the reply to its request. -/
theorem Extends.reply (h : Extends o o') {k : Nat} {m : Reply} (hm : o.reply w k = some m) : o'.reply w k = some m := by
  cases hr : o.ve.ve.replies[k]? with
  | some r =>
    cases hj : o.sent[k]? with
    | some job =>
      simp only [Offload.reply, hr, hj] at hm
      simp only [Offload.reply, getElem?_grows h.sent hj, getElem?_grows h.replies hr, hm]
    | none =>
      simp only [Offload.reply, hr, hj] at hm
      cases hm
  | none =>
    simp only [Offload.reply, hr] at hm
    split at hm
    · rename_i hk
      obtain ⟨exc, hexc, rfl⟩ := Option.map_eq_some_iff.mp hm
      obtain ⟨hve, hfault⟩ := h.fault exc hexc
      simp [Offload.reply, hve, hk, hfault]
    · cases hm

/-! ### The VE side -/

/-- The VE thread is where its own machine is after the requests that were sent, and its replies are the replies of that
run. -/
structure Serving (w : Work) (symtable : List (String × Word)) (sp : Word) (v₀ : VePeer) (o : Offload n) : Prop where
  run : (vePeer symtable sp).run v₀ (w.requests (o.sent.take o.ve.requests)) = some o.ve
  le : o.ve.requests ≤ o.sent.length
  lockstep : o.ve.Lockstep
  replies : ∀ k r, o.ve.ve.replies[k]? = some r → ∃ v, w.Replies symtable sp v₀ o.sent k v r.msg

namespace Serving

theorem init (hv : (vePeer symtable sp).init v₀) : Serving w symtable sp v₀ (⟨.new n, [], v₀, none⟩ : Offload n) := by
  refine ⟨?_, ?_, VePeer.lockstep_init hv, ?_⟩
  · rw [List.take_nil]
    rfl
  · rw [hv.2.1]
    exact Nat.le_refl _
  · intro k r hr
    rw [hv.1] at hr
    cases hr

theorem step {l : OffloadLabel n} (h : Serving w symtable sp v₀ o) (hstep : StepCase w symtable sp o l o')
    (hC : served w sp o l o') : Serving w symtable sp v₀ o' := by
  have hext := hstep.extends
  have hold : ∀ k r, o.ve.ve.replies[k]? = some r → ∃ v, w.Replies symtable sp v₀ o'.sent k v r.msg := by
    intro k r hr
    obtain ⟨v, hv⟩ := h.replies k r hr
    exact ⟨v, hv.mono hext.sent⟩
  cases hstep with
  | signal => exact ⟨h.run, h.le, h.lockstep, hold⟩
  | vh =>
    obtain ⟨more, hmore⟩ := hext.sent
    dsimp only at hmore
    subst hmore
    refine ⟨?_, ?_, h.lockstep, hold⟩
    · rw [List.take_append_of_le_length h.le]
      exact h.run
    · rw [List.length_append]
      exact Nat.le_add_right_of_le h.le
  | @serve job ve hfault hjob hve =>
    obtain ⟨hexit, hrequests, hreplies⟩ := replies_of_step hve
    have hanswerable : answerable sp o.ve (w.label o.ve.requests job) ve := by
      simpa only [served, hjob] using hC
    refine ⟨?_, ?_, (VePeer.lockstep_step_iff h.lockstep hve).mpr hanswerable, ?_⟩
    · rw [hrequests, w.requests_take_succ hjob, Machine.run_append, h.run]
      simpa [Machine.run] using hve
    · rw [hrequests]
      exact (List.getElem?_eq_some_iff.mp hjob).1
    · intro k r hr
      rcases hreplies with hsame | ⟨msg, hmsg, hhandle⟩
      · exact hold k r (hsame ▸ hr)
      have hlen := h.lockstep.length hexit
      rw [hmsg] at hr
      rw [List.getElem?_append] at hr
      split at hr
      · exact hold k r hr
      · -- the new reply has the number of the request that was handled
        have hk : k = o.ve.requests := by
          have := (List.getElem?_eq_some_iff.mp hr).1
          simp only [List.length_singleton] at this
          omega
        subst hk
        rw [hlen, Nat.sub_self] at hr
        cases hr
        exact ⟨o.ve, h.run, job, hjob, hhandle.symm.trans (by rw [hmsg, hlen])⟩

theorem of_reachable (h : (offload n w symtable sp v₀).Reachable (served w sp) o) : Serving w symtable sp v₀ o := by
  refine h.invariant (I := Serving w symtable sp v₀) ?_ ?_
  · rintro o₀ ⟨rfl, hv⟩
    exact init hv
  · intro o l o' _ hstep hC ho
    exact ho.step (stepCase hstep) hC

end Serving

/-! ### The VH side -/

/-- The steps of the VH are steps of its context. -/
theorem reachable_ctx {C : Machine.Cond (Offload n) (OffloadLabel n)} (h : (offload n w symtable sp v₀).Reachable C o) :
    (context n).Reachable Machine.anyStep o.ctx := by
  refine h.invariant (I := fun o => (context n).Reachable Machine.anyStep o.ctx) ?_ ?_
  · rintro o₀ ⟨rfl, -⟩
    exact .init rfl
  · intro o l o' _ hstep _ ho
    cases stepCase hstep with
    | vh hctx => exact ho.step hctx trivial
    | serve | signal => exact ho

/-- Commands were sent in the order of their submission under their numbers, and the reply at hand is the reply to the
request of its command. -/
structure Matched (w : Work) (o : Offload n) : Prop where
  sent : ∀ id req, (id, req) ∈ submissions o.ctx.sh.log → o.sent[req.toNat]? = some (.command id)
  order : o.sent.filterMap Job.command? = (submissions o.ctx.sh.log).map Prod.fst
  reply : ∀ req m, o.ctx.cursor = some (.reply req m) → o.reply w req.toNat = some m
  unpack : ∀ cmd m, o.ctx.cursor = some (.unpack cmd m) →
    ∃ req, (cmd.msgid, req) ∈ submissions o.ctx.sh.log ∧ o.reply w req.toNat = some m

namespace Matched

theorem init : Matched w (⟨.new n, [], v₀, none⟩ : Offload n) where
  sent _ _ h := by cases h
  order := rfl
  reply _ _ h := absurd h (State.cursor_new_ne _)
  unpack _ _ h := absurd h (State.cursor_new_ne _)

/-- What a step of the VH sends. -/
theorem sent_step (h : Matched w o) {u : Option PeerUse} {ctx : State n} {sent : List Job} (hpeer : PeerStep o.ctx ctx u)
    (hcarry : o.carry w u = some sent) :
    (∀ id req, (id, req) ∈ submissions ctx.sh.log → sent[req.toNat]? = some (.command id)) ∧
      sent.filterMap Job.command? = (submissions ctx.sh.log).map Prod.fst := by
  have hmore : o.sent <+: sent → ∀ id req, (id, req) ∈ submissions o.ctx.sh.log →
      sent[req.toNat]? = some (.command id) := fun hmore id req hid => getElem?_grows hmore (h.sent id req hid)
  cases hpeer with
  | @submit cmd req hreq hp' hsub =>
    obtain ⟨-, hne⟩ | ⟨req', job, heq, hlen, rfl⟩ := carry_cases hcarry
    · exact absurd rfl (hne _ _)
    cases heq
    rw [hsub]
    refine ⟨fun id r hid => ?_, ?_⟩
    · rcases List.mem_append.mp hid with hid | hid
      · exact hmore (List.prefix_append _ _) id r hid
      · cases List.mem_singleton.mp hid
        rw [hlen, Int.toNat_natCast]
        exact List.getElem?_concat_length
    · rw [List.filterMap_append, h.order, List.map_append]
      rfl
  | reply hp' hsub =>
    obtain ⟨rfl, -⟩ | ⟨_, _, heq, -⟩ := carry_cases hcarry
    · rw [hsub]
      exact ⟨h.sent, h.order⟩
    · cases heq
  | other hu hsub =>
    rw [hsub]
    obtain ⟨rfl, -⟩ | ⟨req, job, rfl, -, rfl⟩ := carry_cases hcarry
    · exact ⟨h.sent, h.order⟩
    · cases job with
      | command id => exact absurd rfl (hu req id)
      | newpeer =>
        refine ⟨hmore (List.prefix_append _ _), ?_⟩
        rw [List.filterMap_append, h.order]
        exact List.append_nil _

theorem step {l : OffloadLabel n} (hr : (context n).Reachable Machine.anyStep o.ctx) (h : Matched w o)
    (hstep : StepCase w symtable sp o l o') : Matched w o' := by
  have hext := hstep.extends
  have hreply : ∀ {k m}, o.reply w k = some m → o'.reply w k = some m := hext.reply
  cases hstep with
  | serve | signal =>
    refine ⟨h.sent, h.order, fun req m hp => hreply (h.reply req m hp), fun cmd m hp => ?_⟩
    obtain ⟨req, hsub, hm⟩ := h.unpack cmd m hp
    exact ⟨req, hsub, hreply hm⟩
  | @vh l ctx sent hstep hcarry =>
    have hB := Basic.of_reachable hr
    have hcs := cursorStep hB hstep
    have hpeer := peerStep hB hstep
    obtain ⟨hsent, horder⟩ := h.sent_step hpeer hcarry
    refine ⟨hsent, horder, fun req m hp => ?_, fun cmd m hp => ?_⟩
    · generalize hu : o.ctx.peerUse l = u at hpeer hcarry
      cases hpeer with
      | submit _ hp' =>
        rw [hp'] at hp
        cases hp
      | reply hp' =>
        rw [hp'] at hp
        cases hp
        exact hreply (reply_of_carry hcarry)
      | other _ _ hcur => exact hreply (h.reply req m (hcur req m hp))
    · rcases unpack_origin hcs hp with hp | ⟨req, hp, hentry⟩
      · obtain ⟨req, hsub, hm⟩ := h.unpack cmd m hp
        exact ⟨req, hcs.mem_submissions hsub, hreply hm⟩
      · exact ⟨req, hcs.mem_submissions ((Submitted.of_reachable hr).inflight req cmd hentry), hreply (h.reply req m hp)⟩

theorem of_reachable {C : Machine.Cond (Offload n) (OffloadLabel n)} (h : (offload n w symtable sp v₀).Reachable C o) :
    Matched w o := by
  refine h.invariant (I := Matched w) ?_ ?_
  · rintro o₀ ⟨rfl, -⟩
    exact init
  · intro o l o' hr hstep _ ho
    exact ho.step (reachable_ctx hr) (stepCase hstep)

end Matched

/-- A reply is the one that the VE thread sends to the request, or the message of its signal handler. -/
theorem reply_cases (hS : Serving w symtable sp v₀ o) {k : Nat} {job : Job} (hjob : o.sent[k]? = some job) {m : Reply}
    (hm : o.reply w k = some m) :
    (∃ v msg, w.Replies symtable sp v₀ o.sent k v msg ∧ m = msg.toReply (w.request k job)) ∨
      ∃ exc, o.fault = some exc ∧ k = o.ve.ve.replies.length ∧ m = .exception exc := by
  cases hr : o.ve.ve.replies[k]? with
  | some r =>
    obtain ⟨v, hv⟩ := hS.replies k r hr
    simp only [reply, hr, hjob, Option.some.injEq] at hm
    exact .inl ⟨v, r.msg, hv, hm.symm⟩
  | none =>
    simp only [reply, hr] at hm
    split at hm
    · rename_i hk
      obtain ⟨exc, hexc, rfl⟩ := Option.map_eq_some_iff.mp hm
      exact .inr ⟨exc, hexc, hk, rfl⟩
    · cases hm

/-- Requests reach the VE in the order of the pushes. Every result function is called with the reply that the VE thread
gives to the request of its command when it handles the requests that were sent before it one after the other, or with
the message of the signal handler that ended the VE thread. -/
theorem result_function_sees_sequential_reply (h : (offload n w symtable sp v₀).Reachable (served w sp) o) {cmd : Command}
    {m : Reply} (hp : o.ctx.cursor = some (.unpack cmd m)) :
    (o.sent.filterMap Job.command?).Sublist (pushedIds o.ctx.sh.log) ∧
      ∃ k, o.sent[k]? = some (.command cmd.msgid) ∧
        ((∃ v msg, w.Replies symtable sp v₀ o.sent k v msg ∧ m = msg.toReply (w.command cmd.msgid)) ∨
          ∃ exc, o.fault = some exc ∧ k = o.ve.ve.replies.length ∧ m = .exception exc) := by
  have hM := Matched.of_reachable h
  obtain ⟨req, hsub, hm⟩ := hM.unpack cmd m hp
  have hjob := hM.sent _ _ hsub
  refine ⟨?_, req.toNat, hjob, reply_cases (Serving.of_reachable h) hjob hm⟩
  rw [hM.order]
  exact (Tracked.of_reachable (reachable_ctx h)).submissions_sublist

/-- Calls of a function that adds its registers. -/
def sumWork : Work := ⟨fun _ => .call .call ⟨8, [1, 2], 0, 0, []⟩ VePeer.sumRegs, fun _ => 1, fun _ => .sent⟩

theorem served_sumWork (o : Offload n) (l : OffloadLabel n) (o' : Offload n) : served sumWork 64 o l o' := by
  unfold served
  split
  · rename_i job _
    cases job with
    | command => exact ⟨.inl rfl, .inl rfl⟩
    | newpeer => exact ⟨.inl (show (1 : BitVec 32) ≠ 0 by decide), rfl⟩
  · trivial

/-- A user thread makes a call and submits it, the VE thread handles it, and the pass takes the reply. -/
def callTrace : List (OffloadLabel 1) :=
  List.flatten [[.vh (.call (some 0) .callAsync)], List.replicate 11 (.vh (.api (some 0) .tau)),
    [.vh (.api (some 0) (.sent 0)), .serve, .vh (.api (some 0) .tau), .vh (.api (some 0) (.reply 0 (.result 3))),
      .vh (.api (some 0) .tau)]]

/-- The result functions that passes are at. -/
def atResult (o : Offload n) : Option (Command × Reply) :=
  match o.ctx.cursor with
  | some (.unpack cmd m) => some (cmd, m)
  | _ => none

theorem cursor_of_atResult {cmd : Command} {m : Reply} (h : o.atResult = some (cmd, m)) :
    o.ctx.cursor = some (.unpack cmd m) := by
  unfold atResult at h
  split at h
  · rename_i hp
    cases h
    exact hp
  · cases h

theorem exists_sumWork_run (trace : List (OffloadLabel 1)) (p : Offload 1 → Bool)
    (h : ((offload 1 sumWork [] 64 VePeer.start).run ⟨.new 1, [], VePeer.start, none⟩ trace).map p = some true) :
    ∃ o, (offload 1 sumWork [] 64 VePeer.start).Reachable (served sumWork 64) o ∧ p o = true := by
  obtain ⟨o, ho, hp⟩ := Machine.exists_reachable_of_run (M := offload 1 sumWork [] 64 VePeer.start) trace p
    ⟨rfl, rfl, rfl, rfl, rfl⟩ h
  exact ⟨o, ho.mono fun o l o' _ => served_sumWork o l o', hp⟩

theorem result_function_sees_sequential_reply_sum :
    ∃ (o : Offload 1) (cmd : Command), (offload 1 sumWork [] 64 VePeer.start).Reachable (served sumWork 64) o ∧
      o.ctx.cursor = some (.unpack cmd (.result 3)) ∧
      ∃ k, o.sent[k]? = some (.command cmd.msgid) ∧
        ((∃ v msg, sumWork.Replies [] 64 VePeer.start o.sent k v msg ∧
            Reply.result 3 = msg.toReply (sumWork.command cmd.msgid)) ∨
          ∃ exc, o.fault = some exc ∧ k = o.ve.ve.replies.length ∧ Reply.result 3 = .exception exc) := by
  obtain ⟨o, ho, hp⟩ := exists_sumWork_run callTrace
    (fun o => o.atResult = some (⟨0, 0, 0, .unfinished, false, .simpleCall⟩, .result 3)) (by decide +kernel)
  have hcur := cursor_of_atResult (of_decide_eq_true hp)
  exact ⟨o, _, ho, hcur, (result_function_sees_sequential_reply ho hcur).2⟩

/-! ### Results of calls -/

/-- Every result of a call that is OK was unpacked from the reply of the sequential run to its request. -/
def CallResults (w : Work) (symtable : List (String × Word)) (sp : Word) (v₀ : VePeer) (o : Offload n) : Prop :=
  ∀ id c, o.ctx.Result id c → c.closure = .simpleCall → c.status = .ok →
    ∃ k v msg, o.sent[k]? = some (.command id) ∧ w.Replies symtable sp v₀ o.sent k v msg ∧
      unpackCallResult (msg.toReply (w.command id)) = (true, c.retval)

/-- The result function of a call sets OK only after it unpacked a result. -/
theorem unpackCallResult_of_ok {sh sh' : Shared n} {t : Tid n} {cmd c : Command} {m : Reply} {failed : Bool}
    (h : sh.unpack t cmd m = (sh', c, failed)) (hclosure : cmd.closure = .simpleCall) (hok : c.status = .ok) :
    unpackCallResult m = (true, c.retval) := by
  simp only [Shared.unpack, hclosure, Shared.unpackResult] at h
  split at h
  · rename_i val hval
    cases h
    exact hval
  · cases h
    cases hok

theorem CallResults.of_reachable (h : (offload n w symtable sp v₀).Reachable (served w sp) o) :
    CallResults w symtable sp v₀ o := by
  refine h.invariant (I := CallResults w symtable sp v₀) ?_ ?_
  · rintro o₀ ⟨rfl, -⟩ id c hres
    rcases hres with hentry | ⟨p, hp, -⟩
    · cases hentry
    · exact absurd hp (State.cursor_new_ne _)
  · intro o l o' hr hstep hC ih id c hres hclosure hok
    have hcase := stepCase hstep
    have hsent := hcase.extends.sent
    have hmono : (∃ k v msg, o.sent[k]? = some (.command id) ∧ w.Replies symtable sp v₀ o.sent k v msg ∧
        unpackCallResult (msg.toReply (w.command id)) = (true, c.retval)) →
        ∃ k v msg, o'.sent[k]? = some (.command id) ∧ w.Replies symtable sp v₀ o'.sent k v msg ∧
          unpackCallResult (msg.toReply (w.command id)) = (true, c.retval) := by
      rintro ⟨k, v, msg, hk, hv, hval⟩
      exact ⟨k, v, msg, getElem?_grows hsent hk, hv.mono hsent, hval⟩
    refine hmono ?_
    cases hcase with
    | serve | signal => exact ih id c hres hclosure hok
    | @vh l ctx sent hctx hcarry =>
      have hctxr := reachable_ctx hr
      rcases result_step (Basic.of_reachable hctxr) hctx hres with hold | ⟨hnew, rfl⟩
      · exact ih id c hold hclosure hok
      cases hnew with
      | failed hstatus =>
        rw [hstatus] at hok
        cases hok
      | @executed cmd val hmain _ hc =>
        have hvh := (built_of_vh hctxr (show o.ctx.main.vhCmd = some cmd by rw [hmain]; rfl)).2
        have hsame := sameCommand_vhResult cmd (o.ctx.api none).regs val
        rw [← hc] at hsame
        rw [← hsame.closure, hclosure] at hvh
        cases hvh
      | @unpacked t cmd m sh failed hp hunpack _ hcmd =>
        have hval := unpackCallResult_of_ok hunpack (hcmd.closure ▸ hclosure) hok
        have hM := Matched.of_reachable hr
        obtain ⟨req, hsub, hm⟩ := hM.unpack cmd m hp
        have hjob := hM.sent _ _ hsub
        rw [hcmd.msgid]
        rcases reply_cases (Serving.of_reachable hr) hjob hm with ⟨v, msg, hv, rfl⟩ | ⟨exc, -, -, rfl⟩
        · exact ⟨req.toNat, v, msg, hjob, hv, hval⟩
        · cases hval

/-- The reply of a call that returned. -/
theorem callHandler_result {ve : Ve} {k : Nat} {cmd : CallCmd} {p : CallPayload} {fn : VeFunction} {msg : VeReply}
    {val : Word} {out : SendEnd} (haddr : p.addr ≠ 0)
    (hreply : (callHandler sp ve k cmd p fn out).1.replies = ve.replies ++ [⟨k, k, msg⟩])
    (hval : unpackCallResult (msg.toReply (.call cmd p fn)) = (true, val)) :
    ∃ mem, fn p.addr (p.regs.take maxArgsInRegs) (stackIn cmd p ve.mem) = some (val, mem) := by
  have hne : ve.replies ≠ ve.replies ++ [⟨k, k, msg⟩] := fun heq => by simpa using congrArg List.length heq
  unfold callHandler at hreply
  generalize (if cmd = .call then 0 else p.recvSp) = recvSp at hreply
  simp only [haddr, and_false, if_false] at hreply
  split at hreply
  · exact absurd hreply hne
  · split at hreply
    · exact absurd hreply hne
    · rename_i result mem hfn
      refine ⟨mem, hfn.trans ?_⟩
      obtain rfl : msg = callReply cmd p result mem := congrArg SentReply.msg (Ve.eq_of_send_replies hreply)
      have hres : unpackCallResult ((callReply cmd p result mem).toReply (.call cmd p fn)) = (true, result) := by
        unfold callReply
        split <;> rfl
      rw [hres] at hval
      cases hval
      rfl

/-- A call whose result is OK has the value that its function returns in the memory that the VE has after the requests
that were sent before it, handled one after the other. -/
theorem call_result_is_sequential (h : (offload n w symtable sp v₀).Reachable (served w sp) o) {id : ReqId} {c : Command}
    (hentry : (id, c) ∈ o.ctx.sh.comq.completion.entries) (hclosure : c.closure = .simpleCall) (hok : c.status = .ok)
    {cmd : CallCmd} {p : CallPayload} {fn : VeFunction} (hcall : w.command id = .call cmd p fn) (haddr : p.addr ≠ 0) :
    ∃ k v mem, o.sent[k]? = some (.command id) ∧
      (vePeer symtable sp).run v₀ (w.requests (o.sent.take k)) = some v ∧
      fn p.addr (p.regs.take maxArgsInRegs) (stackIn cmd p v.ve.mem) = some (c.retval, mem) := by
  obtain ⟨k, v, msg, hk, ⟨hrun, job, hjob, hreply⟩, hval⟩ := CallResults.of_reachable h id c (.inl hentry) hclosure hok
  rw [hk] at hjob
  cases hjob
  simp only [Work.request, hcall] at hreply
  rw [hcall] at hval
  obtain ⟨mem, hmem⟩ := callHandler_result haddr hreply hval
  exact ⟨k, v, mem, hk, hrun, hmem⟩

theorem call_result_is_sequential_sum :
    ∃ (o : Offload 1) (c : Command), (offload 1 sumWork [] 64 VePeer.start).Reachable (served sumWork 64) o ∧
      (0, c) ∈ o.ctx.sh.comq.completion.entries ∧ c.retval = 3 ∧
      ∃ k v mem, o.sent[k]? = some (.command 0) ∧
        (vePeer [] 64).run VePeer.start (sumWork.requests (o.sent.take k)) = some v ∧
        VePeer.sumRegs 8 [1, 2] v.ve.mem = some (3, mem) := by
  obtain ⟨o, ho, hp⟩ := exists_sumWork_run (callTrace ++ List.replicate 2 (.vh (.api (some 0) .tau)))
    (fun o => o.ctx.sh.comq.completion.entries = [(0, ⟨0, 3, 0, .ok, false, .simpleCall⟩)]) (by decide +kernel)
  have hentry : (0, (⟨0, 3, 0, .ok, false, .simpleCall⟩ : Command)) ∈ o.ctx.sh.comq.completion.entries := by
    rw [of_decide_eq_true hp]
    exact List.mem_singleton_self _
  exact ⟨o, _, ho, hentry, rfl, call_result_is_sequential ho hentry rfl rfl rfl (by decide)⟩

end Offload

end Aveo

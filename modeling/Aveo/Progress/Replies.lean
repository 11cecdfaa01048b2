import Aveo.Progress.Conservation

/-!
# Replies and the commands they belong to

Almost every request that is sent on a peer is in the map of commands in flight, or about to enter it, until
its reply is received. `openContext` is the exception: it sends NEWPEER on the peer of the main context and
waits for the reply itself, without `prog_mtx`. A pass that receives this reply finds no command for it and
throws, and `prog_mtx` stays locked.
-/

namespace Aveo

open Lib

variable {n : Nat}

/-! ### What a step does to the URPC peer -/

/-- The requests without a reply, the request numbers handed out, and the requests of `openContext`. -/
structure SamePeer (sh sh' : Shared n) : Prop where
  pending : sh'.pending = sh.pending
  used : sh'.used = sh.used
  direct : sh'.direct = sh.direct

theorem Shared.accepts_fresh {sh : Shared n} {req : Int} (h : sh.accepts req = true) : req ∉ sh.used := by
  simp only [Shared.accepts, Bool.and_eq_true, decide_eq_true_eq] at h
  exact h.1.1

/-- What an instruction does to the peer, and to the variable that has the number of the NEWPEER request. -/
inductive PeerExec (sh : Shared n) (r : Regs) (sh' : Shared n) (r' : Regs) : Prop
  | same (h : SamePeer sh sh') (hr : r'.newpeerReq = r.newpeerReq)
  | newpeer {req : Int} (hreq : sh.accepts req = true) (h : SamePeer { sh.send req with direct := req :: sh.direct } sh')
      (hr : r'.newpeerReq = req)
  | wait (hreq : r.newpeerReq ∈ sh.pending) (h : SamePeer { sh with pending := sh.pending.erase r.newpeerReq } sh')
      (hr : r'.newpeerReq = r.newpeerReq)

theorem exec_peer {t : Tid n} {exited : Bool} {sh sh' : Shared n} {r : Regs} {rest : List Instr} {i : Instr} {env : Env}
    {a : Api} (h : exec t exited sh r rest i env = some (sh', a)) : PeerExec sh r sh' a.regs := by
  have hrefl : SamePeer sh sh := ⟨rfl, rfl, rfl⟩
  have hpeek : ∀ id, SamePeer sh (sh.peekResult t id).1 := by
    intro id
    obtain ⟨q, rem, log, heq⟩ := sh.peekResult_eq t id
    rw [heq]
    exact ⟨rfl, rfl, rfl⟩
  cases i with
  | newpeerSend =>
    cases env with
    | sent req =>
      simp only [exec] at h
      split at h <;> cases h
      rename_i hreq
      exact .newpeer hreq ⟨rfl, rfl, rfl⟩ rfl
    | refused => cases h; exact .same hrefl rfl
    | _ => cases h
  | newpeerWait =>
    cases env with
    | tau =>
      simp only [exec] at h
      split at h <;> cases h
      rename_i hreq
      exact .wait hreq ⟨rfl, rfl, rfl⟩ rfl
    | timeout => cases h; exact .same hrefl rfl
    | _ => cases h
  | peekResult id =>
    cases env <;> cases h
    exact .same ⟨(hpeek id).pending, (hpeek id).used, (hpeek id).direct⟩ rfl
  | finPeek sub id =>
    cases env <;> cases h
    exact .same ⟨(hpeek id).pending, (hpeek id).used, (hpeek id).direct⟩ (by cases sub <;> rfl)
  | waitPeek id =>
    cases env with
    | tau =>
      simp only [exec] at h
      split at h <;> cases h <;> exact .same ⟨(hpeek id).pending, (hpeek id).used, (hpeek id).direct⟩ rfl
    | _ => cases h
  | setNowait | pushRequest | waitCompletion | lockSubmit | unlockSubmit | reqBlockBegin | reqBlockEnd =>
    cases env with
    | tau =>
      obtain ⟨c, -, heq⟩ := Option.map_eq_some_iff.mp h
      cases heq
      exact .same ⟨rfl, rfl, rfl⟩ rfl
    | _ => cases h
  | save sub => cases env <;> cases h; exact .same ⟨rfl, rfl, rfl⟩ (by cases sub <;> rfl)
  | remInsert | clearPrev | terminate | setExit | unlockCtx | notifyAll | waitNotify | syncReturn =>
    cases env <;> cases h
    exact .same ⟨rfl, rfl, rfl⟩ rfl
  | isAlive | issue | progress | join | syncWait | lockCtx | progressTry | peekTry | waitTry | waitCheck | waitErase =>
    cases env <;> simp only [exec] at h <;> (try split at h) <;> cases h <;> exact .same ⟨rfl, rfl, rfl⟩ rfl

/-- A step that received a reply or sent a request. -/
def PassOut.movesPeer : PassOut → Bool
  | .next (.reply _ _) | .next (.submitted _) => true
  | _ => false

inductive PeerPass (sh : Shared n) : PassPc → Shared n → PassOut → Prop
  | same {p : PassPc} {sh' : Shared n} {out : PassOut} (h : SamePeer sh sh') (hout : out.movesPeer = false) :
      PeerPass sh p sh' out
  | reply {req : Int} {m : Reply} {sh' : Shared n} (hreq : req ∈ sh.pending)
      (h : sh' = { sh with pending := sh.pending.erase req }) : PeerPass sh .poll sh' (.next (.reply req m))
  | submit {cmd : Command} {req : Int} {sh' : Shared n} (hreq : sh.accepts req = true) (h : SamePeer (sh.send req) sh')
      (hcomq : sh'.comq = sh.comq) :
      PeerPass sh (.popped cmd) sh' (.next (.submitted (cmd.setURPCReq req .unfinished)))

theorem passStep_peer {x : Bool} {t : Tid n} {sh sh' : Shared n} {p : PassPc} {env : Env} {out : PassOut}
    (h : passStep x t sh p env = some (sh', out)) : PeerPass sh p sh' out := by
  unfold passStep at h
  split at h
  case h_1 =>
    split at h <;> cases h
    rename_i hreq
    exact .reply hreq rfl
  case h_5 cmd m =>
    obtain ⟨q, rem, log, st, heq⟩ := sh.unpack_eq t cmd m
    cases h
    rw [heq]
    exact .same ⟨rfl, rfl, rfl⟩ rfl
  case h_6 cmd failed =>
    cases h
    cases cmd.nowait <;> cases failed <;> exact .same ⟨rfl, rfl, rfl⟩ rfl
  case h_15 =>
    split at h <;> cases h
    rename_i hand
    exact .submit (Bool.and_eq_true_iff.mp hand).2 ⟨rfl, rfl, rfl⟩ rfl
  case h_19 cmd defer =>
    cases h
    cases defer <;> exact .same ⟨rfl, rfl, rfl⟩ rfl
  all_goals (try split at h) <;> (try split at h) <;> cases h <;> exact .same ⟨rfl, rfl, rfl⟩ rfl

/-- The command that is about to enter the map of commands in flight. -/
def PassPc.entering : PassPc → Option Command
  | .submitted cmd => some cmd
  | _ => none

/-- A step that found the command of a reply. -/
def PassOut.unpacks : PassOut → Bool
  | .next (.unpack _ _) => true
  | _ => false

theorem PassPc.unpacks_of_hand {p : PassPc} (h : p.hand = none) : (PassOut.next p).unpacks = false := by
  cases p <;> first | rfl | cases h

theorem PassOut.unpacks_of_hand {out : PassOut} (h : out.hand = none) : out.unpacks = false := by
  cases out with
  | next p => exact PassPc.unpacks_of_hand h
  | ret | startVH | throws => rfl

/-- What a step of a pass does to the commands in flight. -/
inductive InflightPass (sh : Shared n) : PassPc → Shared n → PassOut → Prop
  | same {p : PassPc} {sh' : Shared n} {out : PassOut} (h : sh'.comq.inflight = sh.comq.inflight)
      (hp : p.entering = none) (hne : out ≠ .throws) (hout : out.unpacks = false) : InflightPass sh p sh' out
  | throws {req : Int} {m : Reply} {sh' : Shared n} (hreq : req ∉ sh.comq.inflight.keys)
      (h : sh'.comq.inflight = sh.comq.inflight) : InflightPass sh (.reply req m) sh' .throws
  | pop {req : Int} {m : Reply} {cmd : Command} {sh' : Shared n} (hentry : (req, cmd) ∈ sh.comq.inflight.entries)
      (h : sh'.comq.inflight = sh.comq.inflight.erase req) : InflightPass sh (.reply req m) sh' (.next (.unpack cmd m))
  | cancel {req : Int} {cmd : Command} {sh' : Shared n} (hentry : (req, cmd) ∈ sh.comq.inflight.entries)
      (h : sh'.comq.inflight = sh.comq.inflight.erase req) :
      InflightPass sh .cancelInflight sh' (.next (.cancelledInflight cmd))
  | push {cmd : Command} {sh' : Shared n} (h : sh'.comq.inflight = sh.comq.inflight.insert cmd.urpcReq cmd) :
      InflightPass sh (.submitted cmd) sh' (.next .poll)

theorem PassEffect.inflight {x : Bool} {t : Tid n} {p : PassPc} {sh sh' : Shared n} {out : PassOut}
    (h : PassEffect x t sh p sh' out) : InflightPass sh p sh' out := by
  cases h with
  | quiet hp hout hne hq =>
    refine .same hq.inflight ?_ hne (PassOut.unpacks_of_hand hout)
    cases p <;> first | rfl | cases hp
  | throws hreq => exact .throws hreq rfl
  | popInFlight hentry => exact .pop hentry rfl
  | cancelInflight hentry => exact .cancel hentry rfl
  | unpack hpeek =>
    refine .same ?_ rfl nofun rfl
    cases hpeek with
    | quiet hq => exact hq.inflight
    | take _ hq => exact hq.inflight
  | complete hp hp' =>
    refine .same rfl ?_ nofun (PassPc.unpacks_of_hand hp')
    obtain ⟨failed, rfl, -⟩ | rfl | rfl | rfl | rfl := hp <;> rfl
  | discard _ hp' => exact .same rfl rfl nofun (PassPc.unpacks_of_hand hp')
  | popRequest | cancelRequest | startVH | submit | reject | defer => exact .same rfl rfl nofun rfl
  | pushInFlight => exact .push rfl
  | pushRequestFront hout => rcases hout with rfl | rfl <;> exact .same rfl rfl nofun rfl

/-! ### Requests without a reply -/

/-- The requests without a reply are distinct and were handed out; a reply that was received is not awaited. -/
structure Peer (s : State n) : Prop where
  nodup : s.sh.pending.Nodup
  used : s.sh.pending ⊆ s.sh.used
  reply : ∀ req m, s.cursor = some (.reply req m) → req ∉ s.sh.pending ∧ req ∈ s.sh.used

namespace Peer

variable {s s' : State n}

theorem init : Peer (State.new n) := ⟨List.nodup_nil, List.nil_subset _, nofun⟩

/-- A request is sent. -/
theorem send (h : Peer s) {req : Int} (hreq : s.sh.accepts req = true) (hpend : s'.sh.pending = s.sh.pending ++ [req])
    (hused : s'.sh.used = req :: s.sh.used)
    (hcur : ∀ r m, s'.cursor = some (.reply r m) → s.cursor = some (.reply r m)) : Peer s' := by
  have hfresh := Shared.accepts_fresh hreq
  refine ⟨?_, ?_, fun r m hr => ?_⟩
  · rw [hpend]
    exact List.nodup_append'.mpr ⟨h.nodup, List.nodup_singleton _, fun r hr hr' =>
      hfresh (h.used (List.mem_singleton.mp hr' ▸ hr))⟩
  · rw [hpend, hused]
    intro r hr
    rcases List.mem_append.mp hr with hr | hr
    · exact List.mem_cons_of_mem _ (h.used hr)
    · exact List.mem_singleton.mp hr ▸ List.mem_cons_self
  · obtain ⟨hnot, hin⟩ := h.reply r m (hcur r m hr)
    rw [hpend, hused]
    refine ⟨fun hmem => ?_, List.mem_cons_of_mem _ hin⟩
    rcases List.mem_append.mp hmem with hmem | hmem
    · exact hnot hmem
    · exact hfresh (List.mem_singleton.mp hmem ▸ hin)

/-- Nothing is sent. -/
theorem shrink (h : Peer s) (hpend : s'.sh.pending.Sublist s.sh.pending) (hused : s'.sh.used = s.sh.used)
    (hcur : ∀ r m, s'.cursor = some (.reply r m) → s.cursor = some (.reply r m)) : Peer s' := by
  refine ⟨hpend.nodup h.nodup, fun r hr => hused ▸ h.used (hpend.subset hr), fun r m hr => ?_⟩
  obtain ⟨hnot, hin⟩ := h.reply r m (hcur r m hr)
  exact ⟨fun hmem => hnot (hpend.subset hmem), hused ▸ hin⟩

theorem reply_of_kept (h : CursorKept s s') (r : Int) (m : Reply) (hr : s'.cursor = some (.reply r m)) :
    s.cursor = some (.reply r m) := by
  rcases h with heq | ⟨-, heq⟩
  · rwa [← heq]
  · rw [heq] at hr
    cases hr

theorem step (h : Peer s) (hcs : CursorStep s s') : Peer s' := by
  cases hcs with
  | @pass x t p env sh out b hp hpass hsh hcur =>
    cases passStep_peer hpass with
    | same hsame hout =>
      refine h.shrink (by rw [hsh]; exact hsame.pending ▸ List.Sublist.refl _) (by rw [hsh]; exact hsame.used) fun r m hr => ?_
      rcases hcur with hcur | ⟨-, hcur⟩
      · rw [hcur] at hr
        cases out with
        | next p' => cases hr; cases hout
        | ret | startVH | throws => cases hr
      · rwa [← hcur]
    | @reply req m sh' hreq heq =>
      subst heq
      have hcur' := cursor_next hcur rfl
      refine ⟨?_, ?_, fun r m' hr => ?_⟩
      · rw [hsh]
        exact h.nodup.erase req
      · rw [hsh]
        exact fun r hr => h.used (List.mem_of_mem_erase hr)
      · rw [hcur'] at hr
        cases hr
        rw [hsh]
        exact ⟨h.nodup.not_mem_erase, h.used hreq⟩
    | submit hreq hsame =>
      refine h.send hreq (by rw [hsh]; exact hsame.pending) (by rw [hsh]; exact hsame.used) fun r m hr => ?_
      rw [cursor_next hcur rfl] at hr
      cases hr
  | vhReturn hmain hcmd hsh hcur hcur' =>
    refine h.shrink (by rw [hsh]; exact List.Sublist.refl _) (by rw [hsh]; rfl) fun r m hr => ?_
    rw [hcur'] at hr
    cases hr
  | exec hcode heff hapi hcur hvh hexec =>
    cases exec_peer hexec with
    | same hsame => exact h.shrink (hsame.pending ▸ List.Sublist.refl _) hsame.used (reply_of_kept hcur)
    | newpeer hreq hsame => exact h.send hreq hsame.pending hsame.used (reply_of_kept hcur)
    | wait _ hsame => exact h.shrink (hsame.pending ▸ List.erase_sublist) hsame.used (reply_of_kept hcur)
  | quiet hq hcur hvh hsh =>
    exact h.shrink (by rw [hsh]) (by rw [hsh]) (reply_of_kept hcur)

theorem of_reachable {C : Machine.Cond (State n) (Label n)} (h : (context n).Reachable C s) : Peer s := by
  refine h.invariant (I := Peer) ?_ fun s₀ l s₁ hr hstep _ hs => hs.step (cursorStep (Basic.of_reachable hr) hstep)
  intro s₀ h0
  rw [h0]
  exact init

end Peer

/-! ### Every reply has a command -/

/-- The part of a pass after a failure. -/
def PassPc.isCancel : PassPc → Bool
  | .failed | .cancelRequest | .cancelledRequest _ | .cancelInflight | .cancelledInflight _ => true
  | _ => false

/-- A pass gets to the cancellation only through a failure. -/
theorem passStep_isCancel {x : Bool} {t : Tid n} {sh sh' : Shared n} {p p' : PassPc} {env : Env}
    (h : passStep x t sh p env = some (sh', .next p')) (hp : p.isCancel = false) (hne : p' ≠ .failed) :
    p'.isCancel = false := by
  cases p with
  | failed | cancelRequest | cancelledRequest | cancelInflight | cancelledInflight => cases hp
  | received cmd failed =>
    cases env <;> cases h
    cases failed with
    | true => exact absurd rfl hne
    | false => rfl
  | putBack cmd defer =>
    cases env <;> cases defer <;> cases h
    rfl
  | unpack => cases env <;> cases h; rfl
  | idle =>
    cases env <;> simp only [passStep] at h <;> (try split at h) <;> cases h <;> exact absurd rfl hne
  | poll | reply | tryPop | popped | submitted | rejected | executed =>
    cases env <;> simp only [passStep] at h <;> (try split at h) <;> (try split at h) <;> cases h <;> rfl

/-- Nothing fails: there is no exception on the VE, and the VE process does not terminate. -/
def noFailure : Machine.Cond (State n) (Label n) := fun _ _ s' => s'.cursor ≠ some .failed

/-- No pass receives a reply while a NEWPEER request waits for one, and nothing fails. -/
def undisturbed : Machine.Cond (State n) (Label n) := fun s l s' =>
  (∀ req m, s.cursor = some .poll → s'.cursor = some (.reply req m) → ∀ r ∈ s.sh.direct, r ∉ s.sh.pending) ∧
    noFailure s l s'

structure Answered (s : State n) : Prop where
  thrown : s.sh.thrown = false
  calm : ∀ p, s.cursor = some p → p.isCancel = false
  pending : ∀ r ∈ s.sh.pending, r ∈ s.sh.direct ∨ r ∈ s.sh.comq.inflight.keys ∨
    ∃ cmd, s.cursor = some (.submitted cmd) ∧ cmd.urpcReq = r
  reply : ∀ req m, s.cursor = some (.reply req m) → req ∈ s.sh.comq.inflight.keys

namespace Answered

variable {s s' : State n}

theorem init : Answered (State.new n) := by
  refine ⟨rfl, fun p hp => ?_, nofun, nofun⟩
  cases hp

/-- A step outside the pass, which may send or receive for `openContext`. -/
theorem of_kept (h : Answered s) (hcur : CursorKept s s') (hinf : s'.sh.comq.inflight = s.sh.comq.inflight)
    (hthrown : s'.sh.thrown = s.sh.thrown)
    (hpend : ∀ r ∈ s'.sh.pending, r ∈ s'.sh.direct ∨ r ∈ s.sh.pending) (hdirect : s.sh.direct ⊆ s'.sh.direct) :
    Answered s' := by
  have hkept : ∀ {p}, s'.cursor = some p → p = .poll ∨ s.cursor = some p := by
    intro p hp
    rcases hcur with heq | ⟨-, heq⟩
    · exact .inr (heq ▸ hp)
    · rw [heq] at hp
      cases hp
      exact .inl rfl
  refine ⟨hthrown.trans h.thrown, fun p hp => ?_, fun r hr => ?_, fun req m hp => ?_⟩
  · rcases hkept hp with rfl | hp
    · rfl
    · exact h.calm p hp
  · rcases hpend r hr with hr | hr
    · exact .inl hr
    · rcases h.pending r hr with hr | hr | ⟨cmd, hcmd, heq⟩
      · exact .inl (hdirect hr)
      · exact .inr (.inl (hinf ▸ hr))
      · rcases hcur with hkeep | ⟨hnone, -⟩
        · exact .inr (.inr ⟨cmd, hkeep ▸ hcmd, heq⟩)
        · rw [hnone] at hcmd
          cases hcmd
  · rcases hkept hp with hp | hp
    · cases hp
    · rw [hinf]
      exact h.reply req m hp

theorem step (h : Answered s) (hP : Peer s) {l : Label n} (hC : undisturbed s l s') (hcs : CursorStep s s') :
    Answered s' := by
  cases hcs with
  | @pass x t p env sh out b hp hpass hsh hcur =>
    have hframe := passStep_frame hpass
    have hdirect : s'.sh.direct = s.sh.direct := by rw [hsh]; exact hframe.direct
    have hne : out ≠ .throws := by
      rintro rfl
      cases (passStep_effect hpass).inflight with
      | same _ _ hne => exact hne rfl
      | throws hreq _ => exact hreq (h.reply _ _ hp)
    have hout : s'.cursor = out.passPc := hcur.resolve_right fun hthrow => hne hthrow.1
    have hcalm : ∀ q, s'.cursor = some q → q.isCancel = false := by
      intro q hq
      rw [hout] at hq
      cases out with
      | next p' =>
        cases hq
        refine passStep_isCancel hpass (h.calm p hp) fun hfail => hC.2 ?_
        rw [hout, hfail]
        rfl
      | ret | startVH | throws => cases hq
    have hthrown : s'.sh.thrown = false := by
      rw [hsh]
      exact (hframe.thrown.trans (if_neg hne)).trans h.thrown
    -- Where an awaited reply belongs while the pass is not about to put a command in flight.
    have hold : p.entering = none → ∀ r ∈ s.sh.pending, r ∈ s.sh.direct ∨ r ∈ s.sh.comq.inflight.keys := by
      intro hsub r hr
      rcases h.pending r hr with hr | hr | ⟨cmd, hcmd, -⟩
      · exact .inl hr
      · exact .inr hr
      · rw [hp] at hcmd
        cases hcmd
        cases hsub
    have hpeer := passStep_peer hpass
    cases (passStep_effect hpass).inflight with
    | throws => exact absurd rfl hne
    | cancel => exact absurd (h.calm _ hp) nofun
    | same hinf hsub =>
      have hinf' : s'.sh.comq.inflight = s.sh.comq.inflight := by rw [hsh]; exact hinf
      cases hpeer with
      | same hsame hmoves =>
        have hpend : s'.sh.pending = s.sh.pending := by rw [hsh]; exact hsame.pending
        refine ⟨hthrown, hcalm, fun r hr => ?_, fun req m hr => ?_⟩
        · rw [hdirect, hinf']
          exact (hold hsub r (hpend ▸ hr)).imp_right .inl
        · rw [hout] at hr
          cases out with
          | next p' => cases hr; cases hmoves
          | ret | startVH | throws => cases hr
      | @reply req m _ hreq heq =>
        subst heq
        have hpend : s'.sh.pending = s.sh.pending.erase req := by rw [hsh]
        refine ⟨hthrown, hcalm, fun r hr => ?_, fun r m' hr => ?_⟩
        · rw [hdirect, hinf']
          exact (hold hsub r (List.mem_of_mem_erase (hpend ▸ hr))).imp_right .inl
        · rw [hout] at hr
          cases hr
          rw [hinf']
          exact (hold hsub req hreq).resolve_left fun hd => hC.1 req m hp hout req hd hreq
      | @submit cmd req _ hreq hsame hcomq =>
        have hpend : s'.sh.pending = s.sh.pending ++ [req] := by rw [hsh]; exact hsame.pending
        refine ⟨hthrown, hcalm, fun r hr => ?_, fun r m' hr => ?_⟩
        · rw [hpend] at hr
          rw [hdirect, hinf']
          rcases List.mem_append.mp hr with hr | hr
          · exact (hold hsub r hr).imp_right .inl
          · exact .inr (.inr ⟨_, hout, (List.mem_singleton.mp hr).symm⟩)
        · rw [hout] at hr
          cases hr
    | @pop req m cmd _ hentry hinf =>
      have hinf' : s'.sh.comq.inflight = s.sh.comq.inflight.erase req := by rw [hsh]; exact hinf
      cases hpeer with
      | same hsame =>
        have hpend : s'.sh.pending = s.sh.pending := by rw [hsh]; exact hsame.pending
        refine ⟨hthrown, hcalm, fun r hr => ?_, fun r m' hr => ?_⟩
        · rw [hpend] at hr
          rw [hdirect, hinf']
          refine (hold rfl r hr).imp_right fun hkey => .inl (BlockingMap.mem_keys_erase.mpr ⟨hkey, ?_⟩)
          rintro rfl
          exact (hP.reply _ _ hp).1 hr
        · rw [hout] at hr
          cases hr
    | @push cmd _ hinf =>
      have hinf' : s'.sh.comq.inflight = s.sh.comq.inflight.insert cmd.urpcReq cmd := by rw [hsh]; exact hinf
      cases hpeer with
      | same hsame =>
        have hpend : s'.sh.pending = s.sh.pending := by rw [hsh]; exact hsame.pending
        refine ⟨hthrown, hcalm, fun r hr => ?_, fun r m' hr => ?_⟩
        · rw [hdirect, hinf']
          rcases h.pending r (hpend ▸ hr) with hr | hr | ⟨cmd', hcmd, rfl⟩
          · exact .inl hr
          · exact .inr (.inl (BlockingMap.mem_keys_insert.mpr (.inr hr)))
          · rw [hp] at hcmd
            cases hcmd
            exact .inr (.inl (BlockingMap.mem_keys_insert.mpr (.inl rfl)))
        · rw [hout] at hr
          cases hr
  | vhReturn hmain hcmd hsh hcur hcur' =>
    refine ⟨by rw [hsh]; exact h.thrown, fun p hp => ?_, fun r hr => ?_, fun req m hr => ?_⟩
    · rw [hcur'] at hp
      cases hp
      rfl
    · rw [hsh] at hr ⊢
      rcases h.pending r hr with hr | hr | ⟨cmd, hcmd, -⟩
      · exact .inl hr
      · exact .inr (.inl hr)
      · rw [hcur] at hcmd
        cases hcmd
    · rw [hcur'] at hr
      cases hr
  | exec hcode heff hapi hcur hvh hexec =>
    have hthrown : s'.sh.thrown = s.sh.thrown := by
      generalize s'.sh = sh' at heff
      cases heff with
      | quiet hq | issue _ hq | nowait _ hq | take _ hq => exact hq.thrown
      | push | lock => rfl
    cases exec_peer hexec with
    | same hsame =>
      exact h.of_kept hcur heff.inflight.1 hthrown (fun r hr => .inr (hsame.pending ▸ hr)) (hsame.direct ▸ List.Subset.refl _)
    | @newpeer req hreq hsame =>
      refine h.of_kept hcur heff.inflight.1 hthrown (fun r hr => ?_) ?_
      · rw [hsame.pending] at hr
        rw [hsame.direct]
        rcases List.mem_append.mp hr with hr | hr
        · exact .inr hr
        · exact .inl (List.mem_cons.mpr (.inl (List.mem_singleton.mp hr)))
      · rw [hsame.direct]
        exact List.subset_cons_self _ _
    | wait _ hsame =>
      refine h.of_kept hcur heff.inflight.1 hthrown (fun r hr => .inr ?_) (hsame.direct ▸ List.Subset.refl _)
      rw [hsame.pending] at hr
      exact List.mem_of_mem_erase hr
  | quiet hq hcur hvh hsh =>
    exact h.of_kept hcur hq.inflight hq.thrown (fun r hr => .inr (by rwa [hsh] at hr)) (by rw [hsh]; exact List.Subset.refl _)

theorem of_reachable (h : (context n).Reachable undisturbed s) : Answered s := by
  refine h.invariant (I := Answered) ?_ fun s₀ l s₁ hr hstep hC hs =>
    hs.step (Peer.of_reachable hr) hC (cursorStep (Basic.of_reachable hr) hstep)
  intro s₀ h0
  rw [h0]
  exact init

end Answered

/-- In every run in which no pass receives a reply while a NEWPEER request waits for one, and in which nothing
fails, every reply that a pass has received belongs to a command in flight, no pass throws, and a thread holds
`prog_mtx` exactly as often as it is in a pass or about to release the mutex after one. -/
theorem reply_has_command {s : State n} (h : (context n).Reachable undisturbed s) :
    (∀ req m, s.cursor = some (.reply req m) → req ∈ s.sh.comq.inflight.keys) ∧ s.sh.thrown = false ∧
      ∀ t, s.sh.progMtx.depth t = s.passDepth t := by
  have hA := Answered.of_reachable h
  exact ⟨hA.reply, hA.thrown, (Basic.of_reachable h).exact hA.thrown⟩

/-- A call that receives the reply to its own request. -/
def ownReplyTrace : List (Label 1) :=
  List.flatten [[.call (some 0) .callAsync], List.replicate 11 (.api (some 0) .tau),
    [.api (some 0) (.sent 0), .api (some 0) .tau, .api (some 0) (.reply 0 (.result 5))]]

theorem reply_has_command_own :
    ∃ s : State 1, (context 1).Reachable undisturbed s ∧ s.cursor = some (.reply 0 (.result 5)) ∧
      (∀ req m, s.cursor = some (.reply req m) → req ∈ s.sh.comq.inflight.keys) ∧ s.sh.thrown = false ∧
        ∀ t, s.sh.progMtx.depth t = s.passDepth t := by
  have hrun : ∃ s : State 1, (context 1).Reachable undisturbed s ∧ decide (s.cursor = some (.reply 0 (.result 5))) = true := by
    refine Machine.exists_reachable_of_runCond (M := context 1) (s := State.new 1)
      (c := fun s _ s' => decide (s.sh.direct = [] ∧ s'.cursor ≠ some .failed)) (fun s l s' hc => ?_)
      ownReplyTrace _ rfl (by decide +kernel)
    obtain ⟨hdirect, hfail⟩ := of_decide_eq_true hc
    refine ⟨fun req m _ _ r hr => ?_, hfail⟩
    rw [hdirect] at hr
    cases hr
  obtain ⟨s, hs, hp⟩ := hrun
  exact ⟨s, hs, of_decide_eq_true hp, reply_has_command hs⟩

/-- Thread 1 opens a context: `synchronize` returns and the NEWPEER request is sent. Thread 0 asks for a result
and its pass receives the reply to NEWPEER. -/
def newpeerTrace : List (Label 2) :=
  List.flatten [[.call (some 0) .callVHAsync], List.replicate 7 (.api (some 0) .tau), [.call (some 1) .openContext],
    List.replicate 10 (.api (some 1) .tau), List.replicate 6 (.main .tau), [.main (.vhReturn 0)],
    List.replicate 4 (.main .tau), [.main (.vhReturn 0)], List.replicate 7 (.main .tau),
    [.api (some 1) .tau, .api (some 1) .noSlot], List.replicate 3 (.api (some 1) .tau), [.api (some 1) (.sent 0),
      .call (some 0) (.callPeekResult 0), .api (some 0) .tau, .api (some 0) (.reply 0 .ack), .api (some 0) .tau]]

/-- Nothing fails, and yet the pass throws, and the call is over with `prog_mtx` locked. -/
theorem newpeer_reply_thrown :
    ∃ s : State 2, (context 2).Reachable noFailure s ∧ s.sh.direct = [0] ∧ s.sh.thrown = true ∧
      (s.api (some 0)).phase = .run ∧ (s.api (some 0)).code = [] ∧ s.sh.progMtx.depth (some 0) = 1 := by
  have hrun : ∃ s : State 2, (context 2).Reachable noFailure s ∧
      decide (s.sh.direct = [0] ∧ s.sh.thrown = true ∧ (s.api (some 0)).phase = .run ∧ (s.api (some 0)).code = [] ∧
        s.sh.progMtx.depth (some 0) = 1) = true :=
    Machine.exists_reachable_of_runCond (M := context 2) (s := State.new 2)
      (c := fun _ _ s' => decide (s'.cursor ≠ some .failed)) (fun _ _ _ hc => of_decide_eq_true hc)
      newpeerTrace _ rfl (by decide +kernel)
  obtain ⟨s, hs, hp⟩ := hrun
  exact ⟨s, hs, of_decide_eq_true hp⟩

end Aveo

import Aveo.Progress.Pipeline
import Aveo.Progress.Replies
import Aveo.Progress.Retrieval
import Aveo.Progress.VH

/-!
# Replies in the order of submission

URPC answers the requests of a peer in the order in which they were sent. Then, when the reply to a request is at hand,
nothing that was submitted before it is in flight any more, and everything pushed before it is completed, up to the VH
function that may be running.
-/

namespace Aveo

open Lib

variable {n : Nat}

/-- Passes receive replies in the order of the requests. -/
def inOrder : Machine.Cond (State n) (Label n) := fun s _ s' =>
  ∀ req m, s.cursor = some .poll → s'.cursor = some (.reply req m) → s.sh.pending.head? = some req

/-! ### Submissions -/

def Event.submission : Event n → Option (ReqId × Int)
  | .submit id req => some (id, req)
  | _ => none

/-- The requests that were submitted, with their URPC numbers, in the order of submission. -/
def submissions (log : List (Event n)) : List (ReqId × Int) := log.filterMap Event.submission

def submittedReqs (log : List (Event n)) : List Int := (submissions log).map Prod.snd

theorem mem_submissions {log : List (Event n)} {id : ReqId} {req : Int} : (id, req) ∈ submissions log ↔ .submit id req ∈ log := by
  rw [submissions, List.mem_filterMap]
  constructor
  · rintro ⟨e, he, heq⟩
    cases e with
    | submit => cases heq; exact he
    | _ => cases heq
  · intro he
    exact ⟨_, he, rfl⟩

theorem submissions_append_of_none (log : List (Event n)) {e : Event n} (he : e.submission = none) :
    submissions (log ++ [e]) = submissions log := by
  simp [submissions, he]

/-- VE commands are submitted in the order in which requests leave the queue. -/
theorem submissions_sublist_started (log : List (Event n)) : ((submissions log).map Prod.fst).Sublist (startedIds log) := by
  induction log with
  | nil => exact List.Sublist.refl _
  | cons e log ih =>
    cases e with
    | submit id req => exact ih.cons_cons id
    | cancel id queued =>
      cases queued with
      | true => exact ih.cons id
      | false => exact ih
    | reject id | vhStart id => exact ih.cons id
    | nowait | push | vhReturn | discard | deliver | answer | syncReturn => exact ih

/-- VE commands are submitted in the order in which they were pushed. -/
theorem Tracked.submissions_sublist {s : State n} (h : Tracked s) :
    ((submissions s.sh.log).map Prod.fst).Sublist (pushedIds s.sh.log) := by
  rw [h.ordered.pushed]
  exact (submissions_sublist_started _).trans (List.sublist_append_left _ _)

theorem Quiet.submissions {sh sh' : Shared n} (h : Quiet sh sh') : submissions sh'.log = Aveo.submissions sh.log :=
  h.filterMap_log fun e he => by cases e <;> first | rfl | cases he

theorem Peeked.submissions {t : Tid n} {sh sh' : Shared n} (h : Peeked t sh sh') :
    submissions sh'.log = Aveo.submissions sh.log := by
  cases h with
  | quiet h => exact h.submissions
  | take hentry h => exact h.submissions.trans (submissions_append_of_none _ rfl)

theorem ExecEffect.submissions {t : Tid n} {sh sh' : Shared n} {r : Regs} {i : Instr} {a : Api}
    (h : ExecEffect t sh r i sh' a) : submissions sh'.log = Aveo.submissions sh.log := by
  cases h with
  | quiet h | issue _ h => exact h.submissions
  | nowait _ h | take _ h => exact h.submissions.trans (submissions_append_of_none _ rfl)
  | push => exact submissions_append_of_none _ rfl
  | lock => rfl

/-- A step of a pass that is not a submission. -/
theorem PassEffect.submissions {x : Bool} {t : Tid n} {p : PassPc} {sh sh' : Shared n} {out : PassOut}
    (h : PassEffect x t sh p sh' out) (hout : out.movesPeer = false) :
    submissions sh'.log = Aveo.submissions sh.log := by
  cases h with
  | quiet _ _ _ hq => exact hq.submissions
  | unpack hpeek => exact hpeek.submissions
  | throws | popInFlight | complete | popRequest | defer | pushInFlight | pushRequestFront => rfl
  | cancelInflight | discard | cancelRequest | startVH | reject => exact submissions_append_of_none _ rfl
  | submit => cases hout

/-- A reply, its command or a submission is at hand. -/
def PassPc.arrives : PassPc → Bool
  | .reply _ _ | .unpack _ _ | .submitted _ => true
  | _ => false

theorem PassOut.arrives_of {out : PassOut} (hmoves : out.movesPeer = false) (hunpacks : out.unpacks = false) {p : PassPc}
    (hp : out.passPc = some p) : p.arrives = false := by
  cases out with
  | next q =>
    cases hp
    cases p <;> first | rfl | (cases hmoves; done) | cases hunpacks
  | ret | startVH | throws => cases hp

/-- A pass with a reply finds its command or throws. -/
theorem passStep_reply {x : Bool} {t : Tid n} {sh sh' : Shared n} {req : Int} {m : Reply} {env : Env} {out : PassOut}
    (h : passStep x t sh (.reply req m) env = some (sh', out)) : out = .throws ∨ out.unpacks = true := by
  cases env with
  | tau =>
    simp only [passStep] at h
    split at h <;> cases h
    · exact .inl rfl
    · exact .inr rfl
  | _ => cases h

/-! ### The invariant -/

/-- What is submitted and not answered is awaited in the order of submission. -/
structure Arrival (s : State n) : Prop where
  nodup : (submittedReqs s.sh.log).Nodup
  used : submittedReqs s.sh.log ⊆ s.sh.used
  direct : ∀ r ∈ s.sh.direct, r ∈ s.sh.used ∧ r ∉ submittedReqs s.sh.log
  pending : (s.sh.pending.filter (· ∉ s.sh.direct)).Sublist (submittedReqs s.sh.log)
  nonneg : ∀ r ∈ s.sh.pending, 0 ≤ r
  newpeer : ∀ t, (s.api t).regs.newpeerReq = -1 ∨ (s.api t).regs.newpeerReq ∈ s.sh.direct
  inflight : ∀ req cmd, (req, cmd) ∈ s.sh.comq.inflight.entries →
    (cmd.msgid, req) ∈ submissions s.sh.log ∧ (req ∈ s.sh.pending ∨ ∃ m, s.cursor = some (.reply req m))
  entering : ∀ cmd, s.cursor = some (.submitted cmd) →
    (cmd.msgid, cmd.urpcReq) ∈ submissions s.sh.log ∧ cmd.urpcReq ∈ s.sh.pending
  reply : ∀ req m, s.cursor = some (.reply req m) → req ∈ submittedReqs s.sh.log →
    ∀ r ∈ s.sh.pending, r ∈ submittedReqs s.sh.log → Pipeline.Precedes (submittedReqs s.sh.log) req r
  unpack : ∀ cmd m, s.cursor = some (.unpack cmd m) → (∃ req, (cmd.msgid, req) ∈ submissions s.sh.log) ∧
    ∀ c ∈ s.sh.comq.inflight.values, Pipeline.Precedes (pushedIds s.sh.log) cmd.msgid c.msgid

namespace Arrival

variable {s s' : State n}

theorem init : Arrival (State.new n) where
  nodup := List.nodup_nil
  used := List.nil_subset _
  direct _ hr := absurd hr List.not_mem_nil
  pending := List.Sublist.refl _
  nonneg _ hr := absurd hr List.not_mem_nil
  newpeer _ := .inl rfl
  inflight _ _ hentry := absurd hentry List.not_mem_nil
  entering _ hp := absurd hp (State.cursor_new_ne _)
  reply _ _ hp := absurd hp (State.cursor_new_ne _)
  unpack _ _ hp := absurd hp (State.cursor_new_ne _)

/-- A step in which nothing is submitted and no pass gets to another point: what is awaited shrinks, or a NEWPEER request
is sent. -/
theorem of_kept (h : Arrival s) (hcur : CursorKept s s') (hsub : submissions s'.sh.log = submissions s.sh.log)
    (hinf : s'.sh.comq.inflight = s.sh.comq.inflight) (hpushed : pushedIds s.sh.log <+: pushedIds s'.sh.log)
    (hused : s.sh.used ⊆ s'.sh.used) (hdirect : ∀ r ∈ s'.sh.direct, r ∈ s'.sh.used ∧ r ∉ submittedReqs s.sh.log)
    (hmono : s.sh.direct ⊆ s'.sh.direct)
    (hpending : (s'.sh.pending.filter (· ∉ s'.sh.direct)).Sublist (submittedReqs s.sh.log))
    (hnonneg : ∀ r ∈ s'.sh.pending, 0 ≤ r)
    (hpend : ∀ r ∈ submittedReqs s.sh.log, r ∈ s'.sh.pending ↔ r ∈ s.sh.pending)
    (hnewpeer : ∀ t, (s'.api t).regs.newpeerReq = (s.api t).regs.newpeerReq ∨ (s'.api t).regs.newpeerReq ∈ s'.sh.direct ∨
      (s'.api t).regs.newpeerReq = -1) : Arrival s' := by
  have hreqs : submittedReqs s'.sh.log = submittedReqs s.sh.log := congrArg (List.map Prod.snd) hsub
  have hold : ∀ {p}, p ≠ .poll → s'.cursor = some p → s.cursor = some p := by
    intro p hne hp
    rcases hcur with heq | ⟨-, heq⟩
    · rwa [← heq]
    · rw [heq] at hp
      cases hp
      exact absurd rfl hne
  have hmem : ∀ {id req}, (id, req) ∈ submissions s.sh.log → req ∈ submittedReqs s.sh.log := fun hm =>
    List.mem_map.mpr ⟨_, hm, rfl⟩
  obtain ⟨new, hnew⟩ := hpushed
  refine ⟨?_, ?_, ?_, ?_, hnonneg, fun t => ?_, fun req cmd hentry => ?_, fun cmd hp => ?_, fun req m hp => ?_, fun cmd m hp => ?_⟩
  · rw [hreqs]
    exact h.nodup
  · rw [hreqs]
    exact List.Subset.trans h.used hused
  · rw [hreqs]
    exact hdirect
  · rw [hreqs]
    exact hpending
  · rcases hnewpeer t with heq | hin | hneg
    · rw [heq]
      exact (h.newpeer t).imp_right fun hin => hmono hin
    · exact .inr hin
    · exact .inl hneg
  · rw [hinf] at hentry
    obtain ⟨hs, hor⟩ := h.inflight req cmd hentry
    refine ⟨by rwa [hsub], hor.imp (hpend req (hmem hs)).mpr fun ⟨m, hm⟩ => ⟨m, ?_⟩⟩
    rcases hcur with heq | ⟨hnone, -⟩
    · rwa [heq]
    · rw [hnone] at hm
      cases hm
  · obtain ⟨hs, hin⟩ := h.entering cmd (hold nofun hp)
    exact ⟨by rwa [hsub], (hpend _ (hmem hs)).mpr hin⟩
  · rw [hreqs]
    exact fun hreq r hr hrs => h.reply req m (hold nofun hp) hreq r ((hpend r hrs).mp hr) hrs
  · rw [hsub, hinf, ← hnew]
    obtain ⟨hs, hprec⟩ := h.unpack cmd m (hold nofun hp)
    exact ⟨hs, fun c hc => (hprec c hc).append new⟩

/-- A pass gets to a point where no reply and no submission is at hand. -/
theorem of_pass (h : Arrival s) (hsub : submissions s'.sh.log = submissions s.sh.log) (hpeer : SamePeer s.sh s'.sh)
    (hnewpeer : ∀ t, (s'.api t).regs.newpeerReq = -1 ∨ (s'.api t).regs.newpeerReq ∈ s'.sh.direct)
    (hcur : ∀ p, s'.cursor = some p → p.arrives = false)
    (hinf : ∀ req cmd, (req, cmd) ∈ s'.sh.comq.inflight.entries →
      (cmd.msgid, req) ∈ submissions s.sh.log ∧ req ∈ s.sh.pending) : Arrival s' := by
  have hreqs : submittedReqs s'.sh.log = submittedReqs s.sh.log := congrArg (List.map Prod.snd) hsub
  have hnone : ∀ {p}, p.arrives = true → s'.cursor ≠ some p := by
    intro p hp heq
    rw [hcur p heq] at hp
    cases hp
  refine ⟨hreqs ▸ h.nodup, ?_, ?_, ?_, ?_, hnewpeer, fun req cmd hentry => ?_, fun cmd hp => absurd hp (hnone rfl),
    fun req m hp => absurd hp (hnone rfl), fun cmd m hp => absurd hp (hnone rfl)⟩
  · rw [hreqs, hpeer.used]
    exact h.used
  · rw [hreqs, hpeer.used, hpeer.direct]
    exact h.direct
  · rw [hreqs, hpeer.pending, hpeer.direct]
    exact h.pending
  · rw [hpeer.pending]
    exact h.nonneg
  · rw [hsub, hpeer.pending]
    exact (hinf req cmd hentry).imp_right .inl

/-- A request that was submitted is not one of `openContext`. -/
theorem not_direct (h : Arrival s) {req : Int} (hreq : req ∈ submittedReqs s.sh.log) : req ∉ s.sh.direct :=
  fun hd => (h.direct req hd).2 hreq

/-- The reply to the first of the requests that are awaited is received. -/
theorem of_reply (h : Arrival s) {req : Int} {m : Reply} (hhead : s.sh.pending.head? = some req)
    (hp : s.cursor = some .poll) (hp' : s'.cursor = some (.reply req m)) (hlog : s'.sh.log = s.sh.log)
    (hpending : s'.sh.pending = s.sh.pending.erase req) (hused : s'.sh.used = s.sh.used)
    (hdirect : s'.sh.direct = s.sh.direct) (hinf : s'.sh.comq.inflight = s.sh.comq.inflight)
    (hnewpeer : ∀ t, (s'.api t).regs.newpeerReq = -1 ∨ (s'.api t).regs.newpeerReq ∈ s'.sh.direct) : Arrival s' := by
  obtain ⟨rest, hrest⟩ : ∃ rest, s.sh.pending = req :: rest := by
    cases hpend : s.sh.pending with
    | nil => rw [hpend] at hhead; cases hhead
    | cons r rest => rw [hpend] at hhead; cases hhead; exact ⟨rest, rfl⟩
  have hpend' : s'.sh.pending = rest := by rw [hpending, hrest, List.erase_cons_head]
  have hsubl := h.pending
  rw [hrest] at hsubl
  have hnonneg := h.nonneg
  rw [hrest] at hnonneg
  refine ⟨?_, ?_, ?_, ?_, ?_, hnewpeer, fun r cmd hentry => ?_, fun cmd hc => ?_, fun r m' hc hr r' hr' hrs => ?_, fun cmd m' hc => ?_⟩
  · rw [hlog]
    exact h.nodup
  · rw [hlog, hused]
    exact h.used
  · rw [hlog, hused, hdirect]
    exact h.direct
  · rw [hlog, hdirect, hpend']
    exact ((List.sublist_cons_self req rest).filter _).trans hsubl
  · rw [hpend']
    exact fun r hr => hnonneg r (List.mem_cons_of_mem _ hr)
  · rw [hinf] at hentry
    obtain ⟨hs, hor⟩ := h.inflight r cmd hentry
    refine ⟨by rwa [hlog], ?_⟩
    rcases hor with hin | ⟨m', hm⟩
    · rw [hrest] at hin
      rw [hpend']
      rcases List.mem_cons.mp hin with rfl | hin
      · exact .inr ⟨m, hp'⟩
      · exact .inl hin
    · rw [hp] at hm
      cases hm
  · rw [hp'] at hc
    cases hc
  · rw [hp'] at hc
    cases hc
    rw [hlog] at hr hrs ⊢
    rw [hpend'] at hr'
    rw [List.filter_cons, if_pos (by simpa using h.not_direct hr)] at hsubl
    refine Pipeline.precedes_iff_sublist.mpr (List.Sublist.trans ?_ hsubl)
    refine List.Sublist.cons_cons _ (List.singleton_sublist.mpr (List.mem_filter.mpr ⟨hr', ?_⟩))
    simpa using h.not_direct hrs
  · rw [hp'] at hc
    cases hc

/-- A command is submitted. -/
theorem of_submit (h : Arrival s) {cmd : Command} {req : Int} (hreq : s.sh.accepts req = true)
    (hp : s.cursor = some (.popped cmd)) (hp' : s'.cursor = some (.submitted (cmd.setURPCReq req .unfinished)))
    (hsub : submissions s'.sh.log = submissions s.sh.log ++ [(cmd.msgid, req)]) (hpeer : SamePeer (s.sh.send req) s'.sh)
    (hinf : s'.sh.comq.inflight = s.sh.comq.inflight)
    (hnewpeer : ∀ t, (s'.api t).regs.newpeerReq = -1 ∨ (s'.api t).regs.newpeerReq ∈ s'.sh.direct) : Arrival s' := by
  have hreqs : submittedReqs s'.sh.log = submittedReqs s.sh.log ++ [req] := by simp [submittedReqs, hsub]
  have hfresh := Shared.accepts_fresh hreq
  have hpending : s'.sh.pending = s.sh.pending ++ [req] := hpeer.pending
  have hused : s'.sh.used = req :: s.sh.used := hpeer.used
  have hdirect : s'.sh.direct = s.sh.direct := hpeer.direct
  refine ⟨?_, ?_, ?_, ?_, fun r hr => ?_, hnewpeer, fun r c hentry => ?_, fun c hc => ?_, fun r m hc => ?_, fun c m hc => ?_⟩
  · rw [hreqs]
    exact List.nodup_append'.mpr ⟨h.nodup, List.nodup_singleton _, fun r hr hr' =>
      hfresh (h.used (List.mem_singleton.mp hr' ▸ hr))⟩
  · rw [hreqs, hused]
    refine List.append_subset.mpr ⟨fun r hr => List.mem_cons_of_mem _ (h.used hr), fun r hr => ?_⟩
    exact List.mem_singleton.mp hr ▸ List.mem_cons_self
  · rw [hdirect, hreqs, hused]
    intro r hr
    obtain ⟨hin, hnot⟩ := h.direct r hr
    refine ⟨List.mem_cons_of_mem _ hin, fun hmem => ?_⟩
    rcases List.mem_append.mp hmem with hmem | hmem
    · exact hnot hmem
    · exact hfresh (List.mem_singleton.mp hmem ▸ hin)
  · rw [hpending, hdirect, hreqs, List.filter_append]
    exact h.pending.append List.filter_sublist
  · rw [hpending] at hr
    rcases List.mem_append.mp hr with hr | hr
    · exact h.nonneg r hr
    · rw [List.mem_singleton.mp hr]
      simp only [Shared.accepts, Bool.and_eq_true, decide_eq_true_eq] at hreq
      exact hreq.1.2
  · rw [hinf] at hentry
    obtain ⟨hs, hor⟩ := h.inflight r c hentry
    rw [hsub, hpending]
    refine ⟨List.mem_append_left _ hs, .inl (List.mem_append_left _ (hor.resolve_right fun hreply => ?_))⟩
    obtain ⟨m, hm⟩ := hreply
    rw [hp] at hm
    cases hm
  · rw [hp'] at hc
    cases hc
    rw [hsub, hpending]
    exact ⟨List.mem_append_right _ (List.mem_singleton_self _), List.mem_append_right _ (List.mem_singleton_self _)⟩
  · rw [hp'] at hc
    cases hc
  · rw [hp'] at hc
    cases hc

/-- When the command of a reply is found, everything in flight was submitted after it. -/
theorem of_pop (hT : Tracked s) (h : Arrival s) {req : Int} {m : Reply} {cmd : Command} (hp : s.cursor = some (.reply req m))
    (hentry : (req, cmd) ∈ s.sh.comq.inflight.entries) (hp' : s'.cursor = some (.unpack cmd m))
    (hlog : s'.sh.log = s.sh.log) (hpeer : SamePeer s.sh s'.sh) (hinf : s'.sh.comq.inflight = s.sh.comq.inflight.erase req)
    (hnewpeer : ∀ t, (s'.api t).regs.newpeerReq = -1 ∨ (s'.api t).regs.newpeerReq ∈ s'.sh.direct) : Arrival s' := by
  have hfound := (h.inflight req cmd hentry).1
  have hreq : req ∈ submittedReqs s.sh.log := List.mem_map.mpr ⟨_, hfound, rfl⟩
  have hlater : ∀ r c, (r, c) ∈ s'.sh.comq.inflight.entries → (c.msgid, r) ∈ submissions s.sh.log ∧ r ∈ s.sh.pending := by
    intro r c hrc
    rw [hinf] at hrc
    obtain ⟨hold, hne⟩ := BlockingMap.mem_entries_erase.mp hrc
    obtain ⟨hs, hor⟩ := h.inflight r c hold
    refine ⟨hs, hor.resolve_right fun ⟨m', hm⟩ => hne ?_⟩
    rw [hp] at hm
    cases hm
    rfl
  refine ⟨hlog ▸ h.nodup, ?_, ?_, ?_, ?_, hnewpeer, fun r c hrc => ?_, fun c hc => ?_, fun r m' hc => ?_, fun c m' hc => ?_⟩
  · rw [hlog, hpeer.used]
    exact h.used
  · rw [hlog, hpeer.used, hpeer.direct]
    exact h.direct
  · rw [hlog, hpeer.pending, hpeer.direct]
    exact h.pending
  · rw [hpeer.pending]
    exact h.nonneg
  · rw [hlog, hpeer.pending]
    exact (hlater r c hrc).imp_right .inl
  · rw [hp'] at hc
    cases hc
  · rw [hp'] at hc
    cases hc
  · rw [hp'] at hc
    cases hc
    rw [hlog]
    refine ⟨⟨req, hfound⟩, fun c hc => ?_⟩
    obtain ⟨⟨r, c⟩, hrc, rfl⟩ := List.mem_map.mp hc
    obtain ⟨hs, hin⟩ := hlater r c hrc
    have hr : r ∈ submittedReqs s.sh.log := List.mem_map.mpr ⟨_, hs, rfl⟩
    -- The order of the URPC numbers is the one of the submissions, and that is the one of the pushes.
    obtain ⟨l, hl, heq⟩ := List.sublist_map_iff.mp (Pipeline.precedes_iff_sublist.mp (h.reply req m hp hreq r hin hr))
    obtain ⟨e, e', rfl⟩ : ∃ e e', l = [e, e'] := List.length_eq_two.mp (by simpa using (congrArg List.length heq).symm)
    simp only [List.map_cons, List.map_nil, List.cons.injEq, and_true] at heq
    have hinj := List.inj_on_of_nodup_map h.nodup
    have he : e = (cmd.msgid, req) := hinj (hl.subset List.mem_cons_self) hfound heq.1.symm
    have he' : e' = (c.msgid, r) := hinj (hl.subset (List.mem_cons_of_mem _ List.mem_cons_self)) hs heq.2.symm
    rw [he, he'] at hl
    exact Pipeline.precedes_iff_sublist.mpr ((hl.map Prod.fst).trans hT.submissions_sublist)

theorem newpeer_step {l : Label n} (h : Arrival s) (hstep : s.step l = some s') (hmono : s.sh.direct ⊆ s'.sh.direct) (t : Tid n) :
    (s'.api t).regs.newpeerReq = -1 ∨ (s'.api t).regs.newpeerReq ∈ s'.sh.direct := by
  have hold := (h.newpeer t).imp_right fun hin => hmono hin
  cases threadStep hstep t with
  | same _ hregs | resumed _ _ hregs | unwound _ hregs => rwa [hregs]
  | @called c _ _ hregs =>
    rw [hregs]
    cases c <;> exact .inl rfl
  | vh _ _ _ hregs =>
    rw [hregs]
    exact .inl rfl
  | exec hl hphase hcode hexec =>
    cases exec_peer hexec with
    | same _ hr | wait _ _ hr => rwa [hr]
    | newpeer _ hsame hr =>
      rw [hr, hsame.direct]
      exact .inr List.mem_cons_self

theorem step_pass (hT : Tracked s) (h : Arrival s) {x : Bool} {t : Tid n} {p : PassPc} {env : Env} {sh : Shared n} {out : PassOut}
    {b : Bool} (hp : s.cursor = some p) (hpass : passStep x t s.sh p env = some (sh, out))
    (hsh : s'.sh = { sh with terminated := b }) (hcur : s'.cursor = out.passPc ∨ out = .throws ∧ s'.cursor = s.cursor)
    (hC : ∀ req m, s.cursor = some .poll → s'.cursor = some (.reply req m) → s.sh.pending.head? = some req)
    (hnewpeer : ∀ t, (s'.api t).regs.newpeerReq = -1 ∨ (s'.api t).regs.newpeerReq ∈ s'.sh.direct) : Arrival s' := by
  have heff := passStep_effect hpass
  have hinf := heff.inflight
  have hlog : s'.sh.log = sh.log := by rw [hsh]
  have hcomq : s'.sh.comq = sh.comq := by rw [hsh]
  have hsame : SamePeer s.sh sh → SamePeer s.sh s'.sh := by
    rw [hsh]
    exact fun hs => ⟨hs.pending, hs.used, hs.direct⟩
  -- What is in flight is awaited, when the pass has no reply at hand.
  have hawaited : (∀ req m, p ≠ .reply req m) → ∀ req cmd, (req, cmd) ∈ s.sh.comq.inflight.entries →
      (cmd.msgid, req) ∈ submissions s.sh.log ∧ req ∈ s.sh.pending := by
    intro hne req cmd hentry
    obtain ⟨hs, hor⟩ := h.inflight req cmd hentry
    refine ⟨hs, hor.resolve_right fun hreply => ?_⟩
    obtain ⟨m, hm⟩ := hreply
    refine hne req m ?_
    rw [hp] at hm
    exact Option.some.inj hm
  cases passStep_peer hpass with
  | @reply req m _ hreq heq =>
    have hp' := cursor_next hcur rfl
    subst heq
    exact h.of_reply (hC req m hp hp') hp hp' hlog (by rw [hsh]) (by rw [hsh]) (by rw [hsh]) (by rw [hcomq]) hnewpeer
  | @submit cmd req _ hreq hpeer hq =>
    have hsub : submissions s'.sh.log = submissions s.sh.log ++ [(cmd.msgid, req)] := by
      cases heff with
      | quiet _ hout => cases hout
      | complete _ hp' => cases hp'
      | submit => rw [hlog, submissions, Shared.emit, List.filterMap_append]; rfl
    exact h.of_submit hreq hp (cursor_next hcur rfl) hsub
      (by rw [hsh]; exact ⟨hpeer.pending, hpeer.used, hpeer.direct⟩) (by rw [hcomq, hq]) hnewpeer
  | same hpeer hmoves =>
    have hsub : submissions s'.sh.log = submissions s.sh.log := by rw [hlog]; exact heff.submissions hmoves
    cases hinf with
    | same hinf hent hne hunp =>
      have hnr : ∀ req m, p ≠ .reply req m := by
        rintro req m rfl
        rcases passStep_reply hpass with heq | heq
        · exact hne heq
        · rw [hunp] at heq
          cases heq
      refine h.of_pass hsub (hsame hpeer) hnewpeer (fun q hq => ?_) fun req cmd hentry => ?_
      · exact PassOut.arrives_of hmoves hunp ((hcur.resolve_right fun hthrow => hne hthrow.1) ▸ hq)
      · rw [hcomq, hinf] at hentry
        exact hawaited hnr req cmd hentry
    | @throws req m _ hreq hinf =>
      have hentries : ∀ r cmd, (r, cmd) ∈ s'.sh.comq.inflight.entries →
          (cmd.msgid, r) ∈ submissions s.sh.log ∧ r ∈ s.sh.pending := by
        intro r cmd hentry
        rw [hcomq, hinf] at hentry
        obtain ⟨hs, hor⟩ := h.inflight r cmd hentry
        refine ⟨hs, hor.resolve_right fun hreply => ?_⟩
        obtain ⟨m', hm⟩ := hreply
        rw [hp] at hm
        cases hm
        exact hreq (BlockingMap.mem_keys_of_entry hentry)
      rcases hcur with hcur | ⟨-, hcur⟩
      · exact h.of_pass hsub (hsame hpeer) hnewpeer (fun q hq => by rw [hcur] at hq; cases hq) hentries
      · have hs := hsame hpeer
        refine h.of_kept (.inl hcur) hsub (by rw [hcomq, hinf]) ?_ (hs.used ▸ List.Subset.refl _) ?_
          (hs.direct ▸ List.Subset.refl _) ?_ (hs.pending ▸ h.nonneg) (fun r _ => by rw [hs.pending]) fun t => ?_
        · rw [hlog]
          exact heff.log_grows.filterMap _
        · rw [hs.used, hs.direct]
          exact h.direct
        · rw [hs.pending, hs.direct]
          exact h.pending
        · exact .inr ((hnewpeer t).symm)
    | @pop req m cmd _ hentry hinf =>
      have hloge : sh.log = s.sh.log := by
        cases heff with
        | quiet _ hout => cases hout
        | complete _ hp' => cases hp'
        | popInFlight => rfl
      exact h.of_pop hT hp hentry (cursor_next hcur rfl) (hlog.trans hloge) (hsame hpeer) (by rw [hcomq, hinf]) hnewpeer
    | @cancel req cmd _ hentry hinf =>
      refine h.of_pass hsub (hsame hpeer) hnewpeer (fun q hq => ?_) fun r c hrc => ?_
      · rw [cursor_next hcur rfl] at hq
        cases hq
        rfl
      · rw [hcomq, hinf] at hrc
        exact hawaited (fun _ _ h => by cases h) r c (BlockingMap.mem_entries_erase.mp hrc).1
    | @push cmd _ hinf =>
      refine h.of_pass hsub (hsame hpeer) hnewpeer (fun q hq => ?_) fun r c hrc => ?_
      · rw [cursor_next hcur rfl] at hq
        cases hq
        rfl
      · rw [hcomq, hinf] at hrc
        by_cases hkey : cmd.urpcReq ∈ s.sh.comq.inflight.keys
        · rw [BlockingMap.insert_of_mem hkey] at hrc
          exact hawaited (fun _ _ h => by cases h) r c hrc
        · rw [BlockingMap.insert_entries hkey] at hrc
          rcases List.mem_cons.mp hrc with heq | hrc
          · cases heq
            exact h.entering cmd hp
          · exact hawaited (fun _ _ h => by cases h) r c hrc

theorem step (hT : Tracked s) (h : Arrival s) {l : Label n} (hstep : s.step l = some s') (hC : inOrder s l s') : Arrival s' := by
  have hcs := cursorStep hT.basic hstep
  have hpushed : pushedIds s.sh.log <+: pushedIds s'.sh.log := hcs.log_grows.filterMap _
  cases hcs with
  | pass hp hpass hsh hcur =>
    have hdirect : s'.sh.direct = s.sh.direct := by rw [hsh]; exact (passStep_frame hpass).direct
    exact h.step_pass hT hp hpass hsh hcur hC (h.newpeer_step hstep (hdirect ▸ List.Subset.refl _))
  | vhReturn hmain hcmd hsh hcur hcur' =>
    refine h.of_pass (by rw [hsh]; exact submissions_append_of_none _ rfl) (by rw [hsh]; exact ⟨rfl, rfl, rfl⟩)
      (h.newpeer_step hstep (by rw [hsh]; exact List.Subset.refl _)) (fun q hq => ?_) fun req cmd hentry => ?_
    · rw [hcur'] at hq
      cases hq
      rfl
    · rw [hsh] at hentry
      obtain ⟨hs, hor⟩ := h.inflight req cmd hentry
      refine ⟨hs, hor.resolve_right fun ⟨m, hm⟩ => ?_⟩
      rw [hcur] at hm
      cases hm
  | exec hcode heff hapi hcur hvh hexec =>
    have hsub := heff.submissions
    have hinf := heff.inflight
    cases exec_peer hexec with
    | same hpeer =>
      have hmono : s.sh.direct ⊆ s'.sh.direct := hpeer.direct ▸ List.Subset.refl _
      refine h.of_kept hcur hsub hinf.1 hpushed hinf.2 ?_ hmono ?_ (hpeer.pending ▸ h.nonneg) (fun r _ => by rw [hpeer.pending])
        fun t => .inr ((h.newpeer_step hstep hmono t).symm)
      · rw [hpeer.used, hpeer.direct]
        exact h.direct
      · rw [hpeer.pending, hpeer.direct]
        exact h.pending
    | @newpeer req hreq hpeer =>
      have hfresh := Shared.accepts_fresh hreq
      have hpending : s'.sh.pending = s.sh.pending ++ [req] := hpeer.pending
      have hdirect : s'.sh.direct = req :: s.sh.direct := hpeer.direct
      have hused : s'.sh.used = req :: s.sh.used := hpeer.used
      have hmono : s.sh.direct ⊆ s'.sh.direct := hdirect ▸ List.subset_cons_self _ _
      refine h.of_kept hcur hsub hinf.1 hpushed hinf.2 (fun r hr => ?_) hmono ?_ (fun r hr => ?_) (fun r hr => ?_)
        fun t => .inr ((h.newpeer_step hstep hmono t).symm)
      · rw [hdirect] at hr
        rw [hused]
        rcases List.mem_cons.mp hr with rfl | hr
        · exact ⟨List.mem_cons_self, fun hmem => hfresh (h.used hmem)⟩
        · exact ⟨List.mem_cons_of_mem _ (h.direct r hr).1, (h.direct r hr).2⟩
      · have hlast : [req].filter (· ∉ s'.sh.direct) = [] := by
          rw [hdirect]
          simp
        rw [hpending, List.filter_append, hlast, List.append_nil]
        refine (List.monotone_filter_right _ fun r hr => ?_).trans h.pending
        rw [hdirect] at hr
        simp only [List.mem_cons, decide_eq_true_eq, not_or] at hr ⊢
        exact hr.2
      · rw [hpending] at hr
        rcases List.mem_append.mp hr with hr | hr
        · exact h.nonneg r hr
        · rw [List.mem_singleton.mp hr]
          simp only [Shared.accepts, Bool.and_eq_true, decide_eq_true_eq] at hreq
          exact hreq.1.2
      · rw [hpending, List.mem_append, List.mem_singleton]
        refine ⟨fun hor => hor.resolve_right fun heq => ?_, .inl⟩
        exact hfresh (heq ▸ h.used hr)
    | wait hin hpeer =>
      have hpending : s'.sh.pending = s.sh.pending.erase _ := hpeer.pending
      have hmono : s.sh.direct ⊆ s'.sh.direct := hpeer.direct ▸ List.Subset.refl _
      refine h.of_kept hcur hsub hinf.1 hpushed hinf.2 ?_ hmono ?_ (fun r hr => ?_) (fun r hr => ?_)
        fun t => .inr ((h.newpeer_step hstep hmono t).symm)
      · rw [hpeer.used, hpeer.direct]
        exact h.direct
      · rw [hpending, hpeer.direct]
        exact (List.erase_sublist.filter _).trans h.pending
      · rw [hpending] at hr
        exact h.nonneg r (List.mem_of_mem_erase hr)
      · -- The reply that `openContext` takes is the one to its own request.
        rw [hpending]
        refine ⟨List.mem_of_mem_erase, fun hmem => (List.mem_erase_of_ne ?_).mpr hmem⟩
        rintro rfl
        rcases h.newpeer _ with hneg | hd
        · have := h.nonneg _ hin
          rw [hneg] at this
          exact absurd this (by decide)
        · exact h.not_direct hr hd
  | quiet hq hcur hvh hsh =>
    have hmono : s.sh.direct ⊆ s'.sh.direct := by rw [hsh]; exact List.Subset.refl _
    refine h.of_kept hcur hq.submissions (by rw [hsh]) hpushed (by rw [hsh]; exact List.Subset.refl _) (by rw [hsh]; exact h.direct) hmono
      (by rw [hsh]; exact h.pending) (by rw [hsh]; exact h.nonneg) (fun r _ => by rw [hsh])
      fun t => .inr ((h.newpeer_step hstep hmono t).symm)

theorem of_reachable (h : (context n).Reachable inOrder s) : Arrival s := by
  refine h.invariant (I := Arrival) ?_ fun s₀ l s₁ hr hstep hC hs => hs.step (Tracked.of_reachable hr) hstep hC
  intro s₀ h0
  rw [h0]
  exact init

end Arrival

/-- When the result function of a command runs, everything pushed before it is completed or is the VH command whose
function runs. -/
theorem completed_of_unpack {s : State n} (h : (context n).Reachable inOrder s) {cmd : Command} {m : Reply}
    (hp : s.cursor = some (.unpack cmd m)) {x : ReqId} (hx : Pipeline.Precedes (pushedIds s.sh.log) x cmd.msgid) :
    s.sh.Completed x ∨ ∃ c, s.main.vhCmd = some c ∧ c.msgid = x := by
  have hT := Tracked.of_reachable h
  obtain ⟨⟨req, hsub⟩, hafter⟩ := (Arrival.of_reachable h).unpack cmd m hp
  have hstarted : cmd.msgid ∈ startedIds s.sh.log := mem_startedIds.mpr (.inl ⟨req, mem_submissions.mp hsub⟩)
  have hxs : x ∈ startedIds s.sh.log := by
    obtain ⟨l₁, l₂, heq⟩ := List.append_of_mem hstarted
    have hpushed := hT.ordered.pushed
    rw [heq, List.append_assoc] at hpushed
    rw [heq]
    exact List.mem_append_left _ (hx.mem_of_eq hT.pushed_nodup hpushed)
  rcases hT.started_iff.mp hxs with hinf | (⟨p, c, hp', -, hc, rfl⟩ | hvh) | hdone
  · obtain ⟨c, hc, rfl⟩ := List.mem_map.mp hinf
    exact absurd (hafter c hc) (hx.asymm hT.pushed_nodup)
  · rw [hp] at hp'
    cases hp'
    cases hc
    exact absurd hx (hx.asymm hT.pushed_nodup)
  · exact .inr hvh
  · exact .inl hdone

end Aveo

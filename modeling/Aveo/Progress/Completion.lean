import Aveo.Progress.Passes
import Aveo.Progress.Regular

/-!
# Requests can be completed

In a regular run the progress thread may sleep although a request is waiting. Unless it does, whatever the other threads
are in the middle of, every request that was pushed can still be completed by the threads that are there: the pass that is
going on ends, since its weight falls, and then the progress thread receives every reply and submits every request.
-/

namespace Aveo

open Lib

variable {n : Nat}

/-! ### What is chosen for a pass -/

/-- Nobody starts a call, and no wakeup is spurious. -/
def Label.unaided : Label n → Bool
  | .call _ _ | .main .spurious => false
  | _ => true

/-- The threads are left to themselves, and push nothing. -/
def unaided : Machine.Cond (State n) (Label n) := fun s l s' =>
  regular s l s' ∧ l.unaided = true ∧ pushedIds s'.sh.log = pushedIds s.sh.log

theorem Label.regular_of_unaided {l : Label n} (h : l.unaided = true) : l.regular = true := by
  cases l with
  | call => cases h
  | main | api => rfl

/-- A state of a regular run in which URPC can still number every request. -/
structure Ready (s : State n) : Prop where
  reachable : (context n).Reachable regular s
  count : (pushedIds s.sh.log).length ≤ 2 ^ 31

theorem steps_unaided {s s' : State n} {l : Label n} (hstep : s.step l = some s') (hC : unaided s l s') :
    (context n).Steps unaided s s' := .tail (.refl s) hstep hC

namespace Ready

variable {s s' : State n}

theorem regular (h : Ready s) : s.Regular := (State.Regular.of_reachable h.reachable).1

theorem answered (h : Ready s) : Answered s := .of_reachable (State.Regular.of_reachable h.reachable).2

theorem basic (h : Ready s) : Basic s := .of_reachable h.reachable

theorem arrival (h : Ready s) : Arrival s := .of_reachable (h.reachable.mono fun _ _ _ hC => hC.2.2.1)

theorem tracked (h : Ready s) : Tracked s := .of_reachable h.reachable

theorem step (h : Ready s) {l : Label n} (hstep : s.step l = some s') (hC : unaided s l s') : Ready s' :=
  ⟨h.reachable.step hstep hC.1, by rw [hC.2.2]; exact h.count⟩

end Ready

/-- URPC has a number for a request as long as it has handed out less than `2 ^ 31`. -/
theorem Shared.exists_accepts {sh : Shared n} (h : sh.used.length < 2 ^ 31) : ∃ req, sh.accepts req = true := by
  by_contra hnone
  have hsub : (List.range (2 ^ 31)).map Int.ofNat ⊆ sh.used := by
    intro req hreq
    obtain ⟨k, hk, rfl⟩ := List.mem_map.mp hreq
    have hlt := List.mem_range.mp hk
    by_contra hfree
    refine hnone ⟨Int.ofNat k, ?_⟩
    simp only [Shared.accepts, Bool.and_eq_true, decide_eq_true_eq]
    exact ⟨⟨hfree, Int.natCast_nonneg k⟩, Int.ofNat_lt.mpr hlt⟩
  have hnodup : ((List.range (2 ^ 31)).map Int.ofNat).Nodup := List.nodup_range.map fun _ _ heq => Int.ofNat.inj heq
  have hle := (List.subperm_of_subset hnodup hsub).length_le
  rw [List.length_map, List.length_range] at hle
  omega

/-- There is a number for the request that a pass has taken from the queue. -/
theorem Ready.exists_accepts {s : State n} (h : Ready s) {cmd : Command} (hp : s.cursor = some (.popped cmd)) :
    ∃ req, s.sh.accepts req = true := by
  refine Shared.exists_accepts ?_
  have hstarted := (submissions_sublist_started s.sh.log).length_le
  have hpushed := congrArg List.length h.tracked.ordered.pushed
  have hund : undecidedIds s.cursor = [cmd.msgid] := by
    rw [hp]
    rfl
  have hcount := h.count
  simp only [hund, List.length_append, List.length_singleton, List.length_map] at hstarted hpushed
  rw [h.regular.shared.used]
  omega

/-- Where a pass of the progress thread is once it has polled: nothing is in flight when it takes a request. -/
def PassPc.draining (q : CommQueue) : PassPc → Prop
  | .tryPop | .popped _ => q.inflight.isEmpty = true
  | .idle => q.Drained
  | .putBack _ _ | .rejected _ => False
  | _ => True

def PassOut.draining (q : CommQueue) : PassOut → Prop
  | .next p => p.draining q
  | .ret _ => q.Drained
  | .startVH _ => True
  | .throws => False

/-- A VH function catches what a pass throws, and the progress thread wakes when it is notified. -/
def Env.orderly : Env → Bool
  | .uncaught | .spurious => false
  | _ => true

theorem Label.unaided_main {env : Env} (h : env.orderly = true) : (Label.main env : Label n).unaided = true := by
  cases env <;> first | rfl | cases h

/-- A step of a pass that a regular run can make. -/
structure Chosen (s : State n) (x : Bool) (p : PassPc) (env : Env) (sh : Shared n) (out : PassOut) : Prop where
  env : env.orderly = true
  survival : sh.procSurvival = s.sh.procSurvival
  reply : ∀ req m, out = .next (.reply req m) → s.sh.pending.head? = some req ∧
    ∀ cmd, (req, cmd) ∈ s.sh.comq.inflight.entries → cmd.closure.takes m = true
  drains : x = true → p.draining s.sh.comq → out.draining sh.comq

/-- A pass that has nothing in flight looks for a request, and otherwise the oldest reply can arrive. -/
theorem Ready.poll {s : State n} (h : Ready s) (x : Bool) (t : Tid n) (hp : s.cursor = some .poll) :
    ∃ env sh out, passStep x t s.sh .poll env = some (sh, out) ∧ Chosen s x .poll env sh out := by
  cases hinf : s.sh.comq.inflight.entries with
  | nil =>
    refine ⟨.tau, s.sh, .next .tryPop, rfl, rfl, rfl, fun _ _ heq => (by cases heq), ?_⟩
    intro _ _
    exact List.isEmpty_iff.mpr hinf
  | cons e rest =>
    have hmem : (e.1, e.2) ∈ s.sh.comq.inflight.entries := hinf ▸ List.mem_cons_self
    have hpend : e.1 ∈ s.sh.pending := by
      refine (h.arrival.inflight e.1 e.2 hmem).2.resolve_right ?_
      rintro ⟨m, hm⟩
      rw [hp] at hm
      cases hm
    obtain ⟨req, rest', hlist⟩ := List.exists_cons_of_ne_nil (List.ne_nil_of_mem hpend)
    have hreq : req ∈ s.sh.pending := hlist ▸ List.mem_cons_self
    -- its command is in flight
    have hkey : req ∈ s.sh.comq.inflight.keys := by
      rcases h.answered.pending req hreq with hd | hkey | ⟨cmd, hcmd, -⟩
      · rw [h.regular.shared.direct] at hd
        cases hd
      · exact hkey
      · rw [hp] at hcmd
        cases hcmd
    obtain ⟨⟨k, cmd⟩, hentry, rfl⟩ := List.mem_map.mp hkey
    obtain ⟨m, hm⟩ := cmd.closure.exists_takes
    refine ⟨.reply k m, _, _, if_pos hreq, rfl, rfl, fun req' m' heq => ?_,
      fun _ _ => trivial⟩
    cases heq
    refine ⟨by rw [hlist]; rfl, fun cmd' hcmd' => ?_⟩
    have heq : (k, cmd') = (k, cmd) := List.inj_on_of_nodup_map s.sh.comq.inflight.nodupKeys hcmd' hentry rfl
    rw [(Prod.mk.inj heq).2]
    exact hm

theorem Ready.exists_passStep {s : State n} (h : Ready s) (x : Bool) (t : Tid n) {p : PassPc} (hp : s.cursor = some p) :
    ∃ env sh out, passStep x t s.sh p env = some (sh, out) ∧ Chosen s x p env sh out := by
  have hregular := h.regular.cursor p hp
  cases p with
  | failed | cancelRequest | cancelledRequest | cancelInflight | cancelledInflight => cases hregular
  | poll => exact h.poll x t hp
  | reply req m =>
    obtain ⟨⟨k, cmd⟩, hentry, rfl⟩ := List.mem_map.mp (h.answered.reply req m hp)
    have hpop := CommQueue.popInFlight_eq_some.mpr ⟨hentry, rfl⟩
    refine ⟨.tau, { s.sh with comq := { s.sh.comq with inflight := s.sh.comq.inflight.erase k } }, .next (.unpack cmd m), ?_,
      rfl, rfl, fun _ _ heq => (by cases heq), fun _ _ => trivial⟩
    simp only [passStep, hpop]
  | unpack cmd m =>
    obtain ⟨q, rem, log, st, heq⟩ := s.sh.unpack_eq t cmd m
    refine ⟨.tau, _, _, rfl, rfl, by rw [heq], fun _ _ heq => (by cases heq), fun _ _ => trivial⟩
  | received cmd b =>
    cases b with
    | true => cases hregular
    | false =>
      refine ⟨.tau, _, _, rfl, rfl, by cases cmd.nowait <;> rfl, fun _ _ heq => (by cases heq), fun _ _ => trivial⟩
  | tryPop =>
    cases hreq : s.sh.comq.request with
    | nil =>
      have hpop := CommQueue.tryPopRequest_eq_none.mpr hreq
      refine ⟨.tau, s.sh, .next .idle, by simp only [passStep, hpop], rfl, rfl, fun _ _ heq => (by cases heq), ?_⟩
      exact fun _ hempty => ⟨hreq, hempty⟩
    | cons cmd rest =>
      have hpop : s.sh.comq.tryPopRequest = some (cmd, { s.sh.comq with request := rest }) := by
        rw [CommQueue.tryPopRequest, hreq]
      refine ⟨.tau, { s.sh with comq := { s.sh.comq with request := rest } }, .next (.popped cmd), ?_, rfl, rfl,
        fun _ _ heq => (by cases heq), fun _ hempty => hempty⟩
      simp only [passStep, hpop]
  | popped cmd =>
    cases hvh : cmd.isVH with
    | true =>
      by_cases hexec : (s.sh.comq.emptyInFlight && x) = true
      · refine ⟨.tau, s.sh.emit (.vhStart cmd.msgid), .startVH cmd, ?_, rfl, rfl, fun _ _ heq => (by cases heq), fun _ _ => trivial⟩
        simp only [passStep, hvh, hexec, if_true]
      · refine ⟨.tau, s.sh, .next (.putBack cmd true), ?_, rfl, rfl, fun _ _ heq => (by cases heq), fun hx hempty => ?_⟩
        · rw [Bool.not_eq_true] at hexec
          simp only [passStep, hvh, hexec, if_true, Bool.false_eq_true, if_false]
        · exact absurd (Bool.and_eq_true_iff.mpr ⟨hempty, hx⟩) hexec
    | false =>
      obtain ⟨req, hreq⟩ := h.exists_accepts hp
      refine ⟨.sent req, (s.sh.send req).emit (.submit cmd.msgid req), .next (.submitted (cmd.setURPCReq req .unfinished)), ?_,
        rfl, rfl, fun _ _ heq => (by cases heq), fun _ _ => trivial⟩
      simp only [passStep, hvh, hreq, Bool.not_false, Bool.and_self, if_true]
  | submitted cmd => exact ⟨.tau, _, _, rfl, rfl, rfl, fun _ _ heq => (by cases heq), fun _ _ => trivial⟩
  | putBack cmd defer =>
    refine ⟨.tau, _, _, rfl, rfl, rfl, fun _ _ heq => ?_, fun _ hd => hd.elim⟩
    cases defer <;> cases heq
  | rejected cmd => exact ⟨.tau, _, _, rfl, rfl, rfl, fun _ _ heq => (by cases heq), fun _ hd => hd.elim⟩
  | executed cmd => exact ⟨.tau, _, _, rfl, rfl, rfl, fun _ _ heq => (by cases heq), fun _ _ => trivial⟩
  | idle =>
    refine ⟨.tau, { s.sh with count := s.sh.count + 1 }, .ret 0, ?_, rfl, rfl, fun _ _ heq => (by cases heq), fun _ hd => hd⟩
    simp [passStep, h.regular.shared.survival]

/-! ### The pass that is going on -/

section

variable {s s' : State n}

theorem State.step_main (hrun : s.sh.terminated = false) (env : Env) : s.step (.main env) = mainStep s env := by
  simp only [State.step, hrun, Bool.false_eq_true, if_false]

theorem State.step_apiPass (hrun : s.sh.terminated = false) {t : Tid n} {p : PassPc} {k : After} {env : Env} {sh : Shared n}
    {out : PassOut} {a : Api} (hphase : (s.api t).phase = .inPass p k) (henv : env ≠ .uncaught)
    (h : passStep false t s.sh p env = some (sh, out)) (hout : (s.api t).afterPass t k false sh out = some (sh, a)) :
    s.step (.api t env) = some (({ s with sh := sh } : State n).setApi t a) := by
  simp only [State.step, hrun, Bool.false_eq_true, if_false, apiStep, hphase, h, Option.bind_some, henv, decide_false,
    hout, Option.map_some]

/-- A chosen step of the pass, whichever thread makes it. -/
theorem Ready.pass_unaided (h : Ready s) {x : Bool} {t : Tid n} {p : PassPc} {env : Env} {sh : Shared n} {out : PassOut}
    {l : Label n} (hp : s.cursor = some p) (hpass : passStep x t s.sh p env = some (sh, out)) (hc : Chosen s x p env sh out)
    (hstep : s.step l = some s') (hsh : s'.sh = sh) (hcur : s'.cursor = out.passPc) (hpassing : s.passing l = true)
    (hl : l.unaided = true) : unaided s l s' ∧ s'.weight < s.weight := by
  have hnext : ∀ {req m}, s'.cursor = some (.reply req m) → out = .next (.reply req m) := by
    intro req m hr
    rw [hcur] at hr
    cases out with
    | next q => cases hr; rfl
    | ret | startVH | throws => cases hr
  have hpushed : pushedIds s'.sh.log = pushedIds s.sh.log := by
    rw [hsh]
    exact (passStep_effect hpass).order.1
  have hunaided : unaided s l s' := by
    refine ⟨⟨Label.regular_of_unaided hl, ?_, fun req m _ hr => (hc.reply req m (hnext hr)).1, fun req m cmd hr hentry => ?_⟩,
      hl, hpushed⟩
    · rw [hsh]
      exact hc.survival.trans h.regular.shared.survival
    · refine (hc.reply req m (hnext hr)).2 cmd ?_
      rw [hsh] at hentry
      rw [hnext hr] at hpass
      cases passStep_peer hpass with
      | same _ hout => cases hout
      | reply _ heq => rwa [heq] at hentry
  refine ⟨hunaided, ?_⟩
  have hweight := weight_step h.basic hstep
  have hbegins : s.begins s' = false := decide_eq_false fun hb => by rw [hp] at hb; cases hb.1
  have halive := (h.step hstep hunaided).regular.shared.alive
  have hpaid : s'.sh.paid = s.sh.paid := by
    unfold Shared.paid
    rw [hpushed, hsh, (passStep_frame hpass).direct]
  rw [hpassing, hbegins, halive, hpaid] at hweight
  simp only [Bool.toNat_true, Bool.toNat_false] at hweight
  omega

theorem Ready.mainPass (h : Ready s) {p : PassPc} (hmain : s.main = .pass p) :
    ∃ env sh out, s.step (.main env) = some (s.afterPass sh out) ∧ unaided s (.main env) (s.afterPass sh out) ∧
      (s.afterPass sh out).weight < s.weight ∧ out ≠ .throws ∧ (p.draining s.sh.comq → out.draining sh.comq) := by
  have hB := h.basic
  have hp : s.cursor = some p := by
    refine State.cursor_of_passOf hB (t := none) ?_
    rw [passOf_none_main hB (by rw [hmain]; rfl), hmain]
    rfl
  obtain ⟨env, sh, out, hpass, hc⟩ := h.exists_passStep true none hp
  have hne := State.Regular.not_throws h.answered hp hpass
  have hstep : s.step (.main env) = some (s.afterPass sh out) := by
    rw [State.step_main h.regular.shared.alive]
    simp only [mainStep, hmain, hpass, Option.map_some]
  obtain ⟨-, -, hcur⟩ := cursor_mainPass hB (hB.step hstep) hmain
  have hsh : (s.afterPass sh out).sh = sh := by
    cases out with
    | next | ret | startVH => rfl
    | throws => exact absurd rfl hne
  obtain ⟨hunaided, hweight⟩ := h.pass_unaided hp hpass hc hstep hsh (hcur.resolve_right fun ht => hne ht.1)
    (by simp [State.passing, hmain, Main.passPc]) (Label.unaided_main hc.env)
  exact ⟨env, sh, out, hstep, hunaided, hweight, hne, hc.drains rfl⟩

/-- A pass in a call goes on, or is over. -/
theorem Ready.apiPass (h : Ready s) {i : Fin n} {p : PassPc} {k : After} (hphase : (s.api (some i)).phase = .inPass p k) :
    ∃ l s', s.step l = some s' ∧ unaided s l s' ∧ s'.weight < s.weight ∧ s'.main = s.main ∧
      s'.sh.comq.reqFliCond = s.sh.comq.reqFliCond := by
  have hB := h.basic
  have hp : s.cursor = some p := State.cursor_of_passOf hB (t := some i) (by rw [State.passOf, hphase]; rfl)
  obtain ⟨env, sh, out, hpass, hc⟩ := h.exists_passStep false (some i) hp
  have henv : env ≠ .uncaught := by
    rintro rfl
    cases hc.env
  have hne := State.Regular.not_throws h.answered hp hpass
  obtain ⟨a, hout⟩ : ∃ a, (s.api (some i)).afterPass (some i) k false sh out = some (sh, a) := by
    cases out with
    | next | ret => exact ⟨_, rfl⟩
    | throws => exact absurd rfl hne
    | startVH cmd =>
      cases passStep_effect hpass with
      | startVH _ _ hexec => cases hexec
      | quiet _ hout => cases hout
      | pushRequestFront hout => rcases hout with hout | hout <;> cases hout
  have hstep := State.step_apiPass h.regular.shared.alive hphase henv hpass hout
  obtain ⟨-, -, hcur⟩ := cursor_apiPass hB (hB.step hstep) hphase hout
  obtain ⟨hunaided, hweight⟩ := h.pass_unaided hp hpass hc hstep rfl (hcur.resolve_right fun ht => hne ht.1)
    (by simp [State.passing, hphase, Phase.passPc]) rfl
  exact ⟨_, _, hstep, hunaided, hweight, rfl, (passStep_wait hpass).reqFliCond⟩

/-- A step outside the pass. -/
theorem Ready.kept_unaided (h : Ready s) {l : Label n} (hkept : CursorKept s s')
    (hinf : s'.sh.comq.inflight = s.sh.comq.inflight) (hsurv : s'.sh.procSurvival = s.sh.procSurvival)
    (hlog : pushedIds s'.sh.log = pushedIds s.sh.log) (hl : l.unaided = true) : unaided s l s' := by
  refine ⟨⟨Label.regular_of_unaided hl, hsurv.trans h.regular.shared.survival, fun req m hp hr => ?_,
    fun req m cmd hr hentry => ?_⟩, hl, hlog⟩
  · rcases hkept with heq | ⟨hnone, -⟩
    · rw [heq, hp] at hr
      cases hr
    · rw [hnone] at hp
      cases hp
  · rw [hinf] at hentry
    exact h.regular.reply req m cmd (Peer.reply_of_kept hkept req m hr) hentry

/-! ### Calls leave their passes -/

/-- No call is in a pass. -/
def State.CallsRun (s : State n) : Prop := ∀ i : Fin n, (s.api (some i)).phase = .run

theorem Ready.unlock (h : Ready s) {i : Fin n} {rv : Int} {k : After} (hphase : (s.api (some i)).phase = .unlock rv k) :
    ∃ l s', s.step l = some s' ∧ unaided s l s' ∧ s'.weight = s.weight ∧ s.sh.progMtx.isSome = true ∧
      s'.sh.progMtx = none ∧ s'.main = s.main ∧ s'.sh.comq = s.sh.comq := by
  have hdepth := h.basic.exact h.answered.thrown (some i)
  simp only [State.passDepth, reduceCtorEq, if_false, hphase, Phase.holds] at hdepth
  have hlock := RecMutex.unlock_of_depth_eq_one hdepth
  have hsome : s.sh.progMtx.isSome = true := by
    refine Option.isSome_iff_ne_none.mpr fun hnone => ?_
    rw [hnone] at hdepth
    cases hdepth
  have hstep : s.step (.api (some i) .tau) = some (({ s with sh := { s.sh with progMtx := none } } : State n).setApi (some i)
      { s.api (some i) with phase := .run, code := k.code rv (s.api (some i)).code }) := by
    simp only [State.step, h.regular.shared.alive, Bool.false_eq_true, if_false, apiStep, hphase, hlock, Option.map_some]
  have hkept := cursorKept_unlock h.basic (h.basic.step hstep) hphase
  have hcur := hkept.resolve_right fun hpoll => by
    have hnone := hpoll.2
    rw [State.cursor] at hnone
    cases hnone
  refine ⟨_, _, hstep, h.kept_unaided hkept rfl rfl rfl rfl, ?_,
    hsome, rfl, rfl, rfl⟩
  unfold State.weight State.passWeight
  rw [hcur]
  rfl

/-- The pass that a call makes comes to its end. -/
theorem Ready.leave_passes (h : Ready s) : ∃ s', (context n).Steps unaided s s' ∧ Ready s' ∧ s'.CallsRun ∧ s'.main = s.main ∧
    s'.sh.comq.reqFliCond = s.sh.comq.reqFliCond := by
  have hrun := Machine.exists_steps_of_rank (M := context n) (C := unaided) (s := s)
    (P := fun t => Ready t ∧ t.main = s.main ∧ t.sh.comq.reqFliCond = s.sh.comq.reqFliCond) (Q := State.CallsRun)
    (fun t => 2 * t.weight + t.sh.progMtx.isSome.toNat) (fun t ht => ?_) ⟨h, rfl, rfl⟩
  · obtain ⟨s', hsteps, ⟨hready, hmain, hcond⟩, hcalls⟩ := hrun
    exact ⟨s', hsteps, hready, hcalls, hmain, hcond⟩
  · obtain ⟨hready, hmain, hcond⟩ := ht
    by_cases hcalls : t.CallsRun
    · exact .inl hcalls
    · obtain ⟨i, hi⟩ := not_forall.mp hcalls
      right
      cases hphase : (t.api (some i)).phase with
      | run => exact absurd hphase hi
      | inPass p k =>
        obtain ⟨l, t', hstep, hC, hweight, hmain', hcond'⟩ := hready.apiPass hphase
        have hone := t'.sh.progMtx.isSome.toNat_le
        exact ⟨t', steps_unaided hstep hC, ⟨hready.step hstep hC, hmain'.trans hmain, hcond'.trans hcond⟩, by omega⟩
      | unlock rv k =>
        obtain ⟨l, t', hstep, hC, hweight, hsome, hnone, hmain', hcomq⟩ := hready.unlock hphase
        refine ⟨t', steps_unaided hstep hC, ⟨hready.step hstep hC, hmain'.trans hmain, by rw [hcomq, hcond]⟩, ?_⟩
        rw [hsome, hnone, hweight]
        exact Nat.lt_succ_self _

/-- Then `prog_mtx` is free. -/
theorem Ready.progMtx_of_callsRun (h : Ready s) (hcalls : s.CallsRun) (hmain : s.main.holds = 0) : s.sh.progMtx = none := by
  cases hm : s.sh.progMtx with
  | none => rfl
  | some o =>
    have hdepth := h.basic.exact h.answered.thrown o.1
    rw [hm, RecMutex.depth, if_pos rfl, State.passDepth, hmain, ite_self] at hdepth
    cases ho : o.1 with
    | none =>
      rw [ho, h.regular.vh.1] at hdepth
      cases hdepth
    | some i =>
      rw [ho, hcalls i] at hdepth
      cases hdepth

/-! ### The progress thread executes -/

theorem Ready.cursor_of_main (h : Ready s) (hholds : s.main.holds = 1) (hpc : s.main.passPc = none) : s.cursor = none := by
  refine State.cursor_eq_none fun u => ?_
  cases u with
  | none => rw [State.passOf, hpc, h.regular.vh.1]; rfl
  | some i => exact State.passOf_eq_none_of_main h.basic hholds (fun hu => by cases hu)

/-- The finaliser retrieves its sub-requests. -/
theorem Ready.finPeek (h : Ready s) {i : Instr} {rest : List Instr} (hcode : (s.api none).code = i :: rest) :
    ∃ l s', s.step l = some s' ∧ unaided s l s' ∧ s'.main = s.main ∧ (s'.api none).code = rest ∧ s'.weight = s.weight := by
  obtain ⟨sub, id, rfl⟩ := h.regular.vh.2 i (hcode ▸ List.mem_cons_self)
  have hphase := h.regular.vh.1
  have hexec : exec none (s.main = .exited) s.sh (s.api none).regs rest (.finPeek sub id) .tau =
      some ((s.sh.peekResult none id).1, ⟨.run, rest, (s.api none).regs.seen (s.sh.peekResult none id).2.1
        (s.sh.peekResult none id).2.2 sub⟩) := rfl
  have hstep : s.step (.api none .tau) = some (({ s with sh := (s.sh.peekResult none id).1 } : State n).setApi none
      ⟨.run, rest, (s.api none).regs.seen (s.sh.peekResult none id).2.1 (s.sh.peekResult none id).2.2 sub⟩) := by
    simp only [State.step, h.regular.shared.alive, Bool.false_eq_true, if_false, apiStep, hphase, hcode, hexec, Option.map_some]
  have hpeek := peeked_peekResult s.sh none id
  have hservice := exec_service hexec rfl
  have hcur : (({ s with sh := (s.sh.peekResult none id).1 } : State n).setApi none ⟨.run, rest, (s.api none).regs.seen
      (s.sh.peekResult none id).2.1 (s.sh.peekResult none id).2.2 sub⟩).cursor = s.cursor := by
    refine State.cursor_eq_of_passOf h.basic (h.basic.step hstep) fun u => ?_
    cases u with
    | none => simp only [State.passOf, State.setApi_main, State.setApi_api_self, hphase]
    | some i => exact State.passOf_setApi_ne (fun hu => by cases hu)
  refine ⟨_, _, hstep, h.kept_unaided (.inl hcur) hpeek.queues.2 hservice.survival hpeek.order.1 rfl, rfl,
    by rw [State.setApi_api_self], ?_⟩
  unfold State.weight State.passWeight Shared.load
  rw [hcur, State.setApi_main, State.setApi_sh, hpeek.queues.1, hpeek.queues.2, hservice.peer.pending]

/-- A VH function comes to its end. -/
theorem Ready.vh_over (h : Ready s) {cmd : Command} (hmain : s.main = .vh cmd) :
    ∃ s' cmd', (context n).Steps unaided s s' ∧ Ready s' ∧ s'.main = .pass (.executed cmd') ∧ s'.weight < s.weight := by
  obtain ⟨t, hrun, ⟨hready, hmain', hweight⟩, hcode⟩ := Machine.exists_steps_of_rank (M := context n) (C := unaided) (s := s)
    (P := fun t => Ready t ∧ t.main = .vh cmd ∧ t.weight = s.weight) (Q := fun t => (t.api none).code = [])
    (fun t => (t.api none).code.length) (fun t ht => by
      cases hcode : (t.api none).code with
      | nil => exact .inl rfl
      | cons i rest =>
        obtain ⟨l, t', hstep, hC, hmain', hcode', hweight'⟩ := ht.1.finPeek hcode
        exact .inr ⟨t', steps_unaided hstep hC, ⟨ht.1.step hstep hC, hmain'.trans ht.2.1, hweight'.trans ht.2.2⟩, by
          rw [hcode']
          exact Nat.lt_succ_self _⟩) ⟨h, hmain, rfl⟩
  have hstep : t.step (.main (.vhReturn 0)) = some { t with
      sh := t.sh.emit (.vhReturn cmd.msgid)
      main := .pass (.executed (vhResult cmd (t.api none).regs 0)) } := by
    rw [State.step_main hready.regular.shared.alive]
    simp only [mainStep, hmain', hready.regular.vh.1, hcode, and_self, if_true]
  have hnone : t.cursor = none := hready.cursor_of_main (by rw [hmain']; rfl) (by rw [hmain']; rfl)
  have hcur' := State.cursor_of_passOf (hready.basic.step hstep) (t := none) rfl
  have hC : unaided t (.main (.vhReturn 0)) { t with
      sh := t.sh.emit (.vhReturn cmd.msgid)
      main := .pass (.executed (vhResult cmd (t.api none).regs 0)) } := by
    refine ⟨⟨rfl, hready.regular.shared.survival, fun req m hp => ?_, fun req m c hr => ?_⟩, rfl,
      pushedIds_append_of_none _ rfl⟩
    · rw [hnone] at hp
      cases hp
    · rw [hcur'] at hr
      cases hr
  have hload : (t.sh.emit (.vhReturn cmd.msgid)).load = t.sh.load := rfl
  refine ⟨_, _, hrun.trans (steps_unaided hstep hC), hready.step hstep hC, rfl, ?_⟩
  rw [← hweight]
  simp only [hload, State.weight, State.passWeight, hcur', hnone, hmain', Main.vhCmd, Option.map_some, Option.map_none,
    Option.getD_some, Option.getD_none, PassPc.weight, Option.isSome_some, Option.isSome_none, Bool.false_eq_true, if_true,
    if_false, vhWeight]
  omega

/-- The progress thread is in a pass, or back from it. -/
def State.Executing (s : State n) (d : Prop) : Prop :=
  (∃ p, s.main = .pass p ∧ (d → p.draining s.sh.comq)) ∨ (∃ cmd, s.main = .vh cmd) ∨
    s.main = .execTest ∧ (d → s.sh.comq.Drained)

/-- A pass of the progress thread comes to its end, and one that has polled leaves nothing behind. -/
theorem Ready.pass_over (h : Ready s) {d : Prop} (hexec : s.Executing d) :
    ∃ s', (context n).Steps unaided s s' ∧ Ready s' ∧ s'.main = .execTest ∧ (d → s'.sh.comq.Drained) := by
  have hrun := Machine.exists_steps_of_rank (M := context n) (C := unaided) (s := s)
    (P := fun t => Ready t ∧ t.Executing d) (Q := fun t => t.main = .execTest ∧ (d → t.sh.comq.Drained))
    State.weight (fun t ht => ?_) ⟨h, hexec⟩
  · obtain ⟨s', hsteps, ⟨hready, -⟩, hend⟩ := hrun
    exact ⟨s', hsteps, hready, hend⟩
  · obtain ⟨hready, ⟨p, hmain, hdrain⟩ | ⟨cmd, hmain⟩ | hend⟩ := ht
    · obtain ⟨env, sh, out, hstep, hC, hweight, hne, hdrains⟩ := hready.mainPass hmain
      refine .inr ⟨_, steps_unaided hstep hC, ⟨hready.step hstep hC, ?_⟩, hweight⟩
      cases out with
      | next p' => exact .inl ⟨p', rfl, fun hd => hdrains (hdrain hd)⟩
      | ret rv => exact .inr (.inr ⟨rfl, fun hd => hdrains (hdrain hd)⟩)
      | startVH cmd => exact .inr (.inl ⟨cmd, rfl⟩)
      | throws => exact absurd rfl hne
    · obtain ⟨t', cmd', hsteps, hready', hmain', hweight⟩ := hready.vh_over hmain
      exact .inr ⟨t', hsteps, ⟨hready', .inl ⟨_, hmain', fun _ => trivial⟩⟩, hweight⟩
    · exact .inl hend

/-- A step of the progress thread outside its passes. -/
theorem Ready.mainMove (h : Ready s) {sh : Shared n} {main : Main}
    (hstep : s.step (.main .tau) = some { s with sh := sh, main := main }) (hvh : s.main.isVH = false)
    (hpc : main.passPc = s.main.passPc) (hinf : sh.comq.inflight = s.sh.comq.inflight)
    (hsurv : sh.procSurvival = s.sh.procSurvival) (hlog : sh.log = s.sh.log) :
    unaided s (.main .tau) { s with sh := sh, main := main } :=
  h.kept_unaided (cursorKept_main h.basic (h.basic.step hstep) hvh hpc) hinf hsurv (congrArg pushedIds hlog) rfl

/-- From the test for work on, everything is completed. -/
theorem Ready.drain (h : Ready s) (hmain : s.main = .execTest) :
    ∃ s', (context n).Steps unaided s s' ∧ ∀ id ∈ pushedIds s'.sh.log, s'.sh.Completed id := by
  have hdone : ∀ {t : State n}, Ready t → t.main = .execTest → t.sh.comq.Drained →
      ∀ id ∈ pushedIds t.sh.log, t.sh.Completed id := fun ht hmain hdrained =>
    ht.tracked.completed_of_drained hdrained (ht.cursor_of_main (by rw [hmain]; rfl) (by rw [hmain]; rfl)) (by rw [hmain]; rfl)
  cases hactive : s.sh.comq.isActive with
  | false => exact ⟨s, .refl s, hdone h hmain (CommQueue.drained_of_not_isActive hactive)⟩
  | true =>
    have hstep : s.step (.main .tau) = some { s with main := .pass .poll } := by
      rw [State.step_main h.regular.shared.alive]
      simp only [mainStep, hmain, hactive, if_true]
    have hC : unaided s (.main .tau) { s with main := .pass .poll } :=
      h.kept_unaided (cursorKept_execTest h.basic (h.basic.step hstep) hmain (.inl rfl)) rfl rfl rfl rfl
    obtain ⟨s', hsteps, hready, hmain', hdrained⟩ := (h.step hstep hC).pass_over (d := True) (.inl ⟨.poll, rfl, fun _ => trivial⟩)
    exact ⟨s', (steps_unaided hstep hC).trans hsteps, hdone hready hmain' (hdrained trivial)⟩

/-! ### The progress thread outside its passes -/

theorem Ready.from_execLock (h : Ready s) (hcalls : s.CallsRun) (hmain : s.main = .execLock) :
    ∃ s', (context n).Steps unaided s s' ∧ Ready s' ∧ s'.main = .execTest := by
  have hstep : s.step (.main .tau) = some { s with sh := { s.sh with progMtx := some (none, 0) }, main := .execTest } := by
    rw [State.step_main h.regular.shared.alive]
    simp only [mainStep, hmain, h.progMtx_of_callsRun hcalls (by rw [hmain]; rfl), RecMutex.tryLock, Option.map_some]
  have hC := h.mainMove hstep (by rw [hmain]; rfl) (by rw [hmain]; rfl) rfl rfl rfl
  exact ⟨_, steps_unaided hstep hC, h.step hstep hC, rfl⟩

theorem Ready.from_waitRequest (h : Ready s) (hcalls : s.CallsRun) (hwork : ¬ s.sh.comq.Drained)
    (hmain : s.main = .waitRequest) : ∃ s', (context n).Steps unaided s s' ∧ Ready s' ∧ s'.main = .execTest := by
  have hbusy : (s.sh.comq.request.isEmpty && s.sh.comq.inflight.isEmpty) = false := by
    refine Bool.eq_false_iff.mpr fun hempty => hwork ?_
    obtain ⟨hreq, hinf⟩ := Bool.and_eq_true_iff.mp hempty
    exact ⟨List.isEmpty_iff.mp hreq, hinf⟩
  have hstep : s.step (.main .tau) = some { s with sh := s.sh, main := .execLock } := by
    rw [State.step_main h.regular.shared.alive]
    simp only [mainStep, hmain, hbusy, h.regular.shared.flag, Bool.false_and, Bool.false_eq_true, if_false]
  have hC := h.mainMove hstep (by rw [hmain]; rfl) (by rw [hmain]; rfl) rfl rfl rfl
  obtain ⟨s', hsteps, hend⟩ := (h.step hstep hC).from_execLock hcalls rfl
  exact ⟨s', (steps_unaided hstep hC).trans hsteps, hend⟩

theorem Ready.from_stateTest (h : Ready s) (hcalls : s.CallsRun) (hwork : ¬ s.sh.comq.Drained)
    (hmain : s.main = .stateTest) : ∃ s', (context n).Steps unaided s s' ∧ Ready s' ∧ s'.main = .execTest := by
  have hstep : s.step (.main .tau) = some { s with sh := s.sh, main := .waitRequest } := by
    rw [State.step_main h.regular.shared.alive]
    simp only [mainStep, hmain, h.regular.shared.running, reduceCtorEq, if_false]
  have hC := h.mainMove hstep (by rw [hmain]; rfl) (by rw [hmain]; rfl) rfl rfl rfl
  obtain ⟨s', hsteps, hend⟩ := (h.step hstep hC).from_waitRequest hcalls hwork rfl
  exact ⟨s', (steps_unaided hstep hC).trans hsteps, hend⟩

/-- The progress thread gets to the test for work as long as there is work. -/
theorem Ready.to_execTest (h : Ready s) (hcalls : s.CallsRun) (hwork : ¬ s.sh.comq.Drained) (hpc : s.main.passPc = none)
    (hvh : s.main.isVH = false) (hawake : s.main = .cvWait → s.sh.comq.reqFliCond = .notified) :
    ∃ s', (context n).Steps unaided s s' ∧ Ready s' ∧ s'.main = .execTest := by
  cases hmain : s.main with
  | execTest => exact ⟨s, .refl s, h, hmain⟩
  | exited => exact absurd hmain h.regular.main
  | pass p => rw [hmain] at hpc; cases hpc
  | vh cmd => rw [hmain] at hvh; cases hvh
  | execLock => exact h.from_execLock hcalls hmain
  | waitRequest => exact h.from_waitRequest hcalls hwork hmain
  | stateTest => exact h.from_stateTest hcalls hwork hmain
  | cvWait =>
    have hstep : s.step (.main .tau) = some { s with
        sh := { s.sh with comq := { s.sh.comq with reqFliCond := .idle } }
        main := .execLock } := by
      rw [State.step_main h.regular.shared.alive]
      simp only [mainStep, hmain, hawake hmain, h.regular.shared.flag, and_self, true_or, if_true, Bool.false_eq_true, if_false]
    have hC := h.mainMove hstep hvh (by rw [hmain]; rfl) rfl rfl rfl
    obtain ⟨s', hsteps, hend⟩ := (h.step hstep hC).from_execLock hcalls rfl
    exact ⟨s', (steps_unaided hstep hC).trans hsteps, hend⟩
  | execUnlock =>
    -- the mutex is held once
    have hdepth := h.basic.exact h.answered.thrown none
    simp only [State.passDepth, if_true, hmain, Main.holds, h.regular.vh.1, Phase.holds] at hdepth
    have hstep : s.step (.main .tau) = some { s with sh := { s.sh with progMtx := none }, main := .stateTest } := by
      rw [State.step_main h.regular.shared.alive]
      simp only [mainStep, hmain, RecMutex.unlock_of_depth_eq_one hdepth, Option.map_some]
    have hC := h.mainMove hstep hvh (by rw [hmain]; rfl) rfl rfl rfl
    obtain ⟨s', hsteps, hend⟩ := (h.step hstep hC).from_stateTest hcalls hwork rfl
    exact ⟨s', (steps_unaided hstep hC).trans hsteps, hend⟩

theorem pushedIds_of_unaided (h : (context n).Steps unaided s s') : pushedIds s'.sh.log = pushedIds s.sh.log :=
  h.invariant (I := fun t => pushedIds t.sh.log = pushedIds s.sh.log) (fun _ _ _ _ hC ht => hC.2.2.trans ht) rfl

end

/-- Every request that was pushed can be completed by the threads that are there, unless the progress thread sleeps without
a notification. -/
theorem requests_can_complete {s : State n} (h : (context n).Reachable regular s)
    (hcount : (pushedIds s.sh.log).length ≤ 2 ^ 31) (hawake : s.main = .cvWait → s.sh.comq.reqFliCond = .notified) :
    ∃ s', (context n).Steps unaided s s' ∧ ∀ id ∈ pushedIds s.sh.log, s'.sh.Completed id := by
  suffices hdone : ∃ s', (context n).Steps unaided s s' ∧ ∀ id ∈ pushedIds s'.sh.log, s'.sh.Completed id by
    obtain ⟨s', hsteps, hall⟩ := hdone
    rw [pushedIds_of_unaided hsteps] at hall
    exact ⟨s', hsteps, hall⟩
  -- First the pass that a call is in comes to its end.
  obtain ⟨s₁, hsteps₁, h₁, hcalls, hmain, hcond⟩ := Ready.leave_passes (s := s) ⟨h, hcount⟩
  rw [← hmain, ← hcond] at hawake
  suffices hexec : (∃ s₂, (context n).Steps unaided s₁ s₂ ∧ Ready s₂ ∧ s₂.main = .execTest) ∨
      ∀ id ∈ pushedIds s₁.sh.log, s₁.sh.Completed id by
    rcases hexec with ⟨s₂, hsteps₂, h₂, hmain₂⟩ | hall
    · obtain ⟨s₃, hsteps₃, hall⟩ := h₂.drain hmain₂
      exact ⟨s₃, (hsteps₁.trans hsteps₂).trans hsteps₃, hall⟩
    · exact ⟨s₁, hsteps₁, hall⟩
  by_cases hpass : s₁.Executing False
  · obtain ⟨s₂, hsteps₂, h₂, hmain₂, -⟩ := h₁.pass_over hpass
    exact .inl ⟨s₂, hsteps₂, h₂, hmain₂⟩
  · have hpc : s₁.main.passPc = none := by
      cases hm : s₁.main with
      | pass p => exact absurd (.inl ⟨p, hm, False.elim⟩) hpass
      | _ => rfl
    have hvh : s₁.main.isVH = false := by
      cases hm : s₁.main with
      | vh cmd => exact absurd (.inr (.inl ⟨cmd, hm⟩)) hpass
      | _ => rfl
    by_cases hdrained : s₁.sh.comq.Drained
    · refine .inr (h₁.tracked.completed_of_drained hdrained (State.cursor_eq_none fun u => ?_) ?_)
      · cases u with
        | none => rw [State.passOf, hpc, h₁.regular.vh.1]; rfl
        | some i => rw [State.passOf, hcalls i]; rfl
      · cases hm : s₁.main with
        | vh cmd => rw [hm] at hvh; cases hvh
        | _ => rfl
    · exact .inl (h₁.to_execTest hcalls hdrained hpc hvh hawake)

/-- Thread 0 pushes a VH command, and thread 1 a call, whose pass has the VH command in its hand. -/
def deferTrace : List (Label 2) :=
  List.flatten [[.call (some 0) .callVHAsync], List.replicate 7 (.api (some 0) .tau), [.call (some 1) .callAsync],
    List.replicate 11 (.api (some 1) .tau)]

theorem requests_can_complete_deferred :
    ∃ s : State 2, (context 2).Reachable regular s ∧ (s.cursor.bind PassPc.hand).map Command.isVH = some true ∧
      pushedIds s.sh.log = [0, 1] ∧ ∃ s', (context 2).Steps unaided s s' ∧ s'.sh.Completed 0 ∧ s'.sh.Completed 1 := by
  have hrun : ∃ s : State 2, (context 2).Reachable regular s ∧
      decide (s.main = .waitRequest ∧ (s.cursor.bind PassPc.hand).map Command.isVH = some true ∧
        pushedIds s.sh.log = [0, 1]) = true := by
    refine Machine.exists_reachable_of_runCond (M := context 2) (s := State.new 2)
      (c := fun _ l s' => decide (l.regular = true ∧ s'.sh.procSurvival = true ∧ s'.cursor.map PassPc.arrives ≠ some true))
      (fun s l s' hc => ?_) deferTrace _ rfl (by decide +kernel)
    obtain ⟨hl, hsurv, hreply⟩ := of_decide_eq_true hc
    have hnot : ∀ req m, s'.cursor ≠ some (.reply req m) := fun req m heq => hreply (by rw [heq]; rfl)
    exact ⟨hl, hsurv, fun req m _ hr => absurd hr (hnot req m), fun req m _ hr => absurd hr (hnot req m)⟩
  obtain ⟨s, hs, hp⟩ := hrun
  obtain ⟨hmain, hhand, hpushed⟩ := of_decide_eq_true hp
  have hcount : (pushedIds s.sh.log).length ≤ 2 ^ 31 := by
    rw [hpushed]
    decide
  obtain ⟨s', hsteps, hall⟩ := requests_can_complete hs hcount fun hsleep => by
    rw [hmain] at hsleep
    cases hsleep
  rw [hpushed] at hall
  exact ⟨s, hs, hhand, hpushed, s', hsteps, hall 0 (by decide), hall 1 (by decide)⟩

end Aveo

import Aveo.Progress.Replies
import Aveo.Progress.Order

/-!
# How long passes last

The loop of `_progress_nolock` goes on as long as it receives or sends something. Every turn of it takes a reply or a
request from somewhere, so the steps of all passes together are paid for by the requests that were pushed, the NEWPEER
requests and the passes that were begun.
-/

namespace Aveo

open Lib

variable {n : Nat}

/-- What is left to do for the requests in the queue, the requests without a reply and the commands in flight. A request
is taken, submitted and enters the map of commands in flight; a reply is received, finds its command and is unpacked. -/
def Shared.load (sh : Shared n) : Nat :=
  8 * sh.comq.request.length + 2 * sh.pending.length + 2 * sh.comq.inflight.entries.length

/-- What is left to do in the turn of the loop. -/
def PassPc.weight : PassPc → Nat
  | .poll => 8
  | .reply _ _ => 9
  | .unpack _ _ => 10
  | .received _ _ => 9
  | .failed => 3
  | .cancelRequest => 2
  | .cancelledRequest _ => 3
  | .cancelInflight => 1
  | .cancelledInflight _ => 2
  | .tryPop => 7
  | .popped _ => 14
  | .submitted _ => 11
  | .putBack _ _ => 13
  | .rejected _ => 5
  | .executed _ => 9
  | .idle => 4

/-- What is left to do while a VH function runs. -/
def vhWeight : Nat := 10

def PassOut.weight : PassOut → Nat
  | .next p => p.weight
  | .startVH _ => vhWeight
  | .ret _ | .throws => 0

theorem length_popInFlight {q q' : CommQueue} {req : Int} {cmd : Command} (h : q.popInFlight req = some (cmd, q')) :
    q'.request = q.request ∧ q'.inflight.entries.length + 1 = q.inflight.entries.length := by
  obtain ⟨hentry, rfl⟩ := CommQueue.popInFlight_eq_some.mp h
  exact ⟨rfl, (BlockingMap.entries_perm_erase hentry).length_eq.symm⟩

theorem length_insert_le {κ ν : Type} [DecidableEq κ] (m : BlockingMap κ ν) (k : κ) (v : ν) :
    (m.insert k v).entries.length ≤ m.entries.length + 1 := by
  by_cases hk : k ∈ m.keys
  · rw [BlockingMap.insert_of_mem hk]
    exact Nat.le_succ _
  · rw [BlockingMap.insert_entries hk]
    exact Nat.le_refl _

theorem Peeked.queues {t : Tid n} {sh sh' : Shared n} (h : Peeked t sh sh') :
    sh'.comq.request = sh.comq.request ∧ sh'.comq.inflight = sh.comq.inflight := by
  cases h with
  | quiet h => exact ⟨h.request, h.inflight⟩
  | take _ h => exact ⟨h.request, h.inflight⟩

/-- Every step of a pass is paid for. -/
theorem passStep_weight {x : Bool} {t : Tid n} {sh sh' : Shared n} {p : PassPc} {env : Env} {out : PassOut}
    (h : passStep x t sh p env = some (sh', out)) : out.weight + sh'.load + 1 ≤ p.weight + sh.load := by
  have hcomplete : ∀ cmd, ({ sh with comq := sh.comq.pushCompletion cmd } : Shared n).load = sh.load := fun cmd => rfl
  cases p with
  | poll =>
    cases env with
    | reply req m =>
      simp only [passStep] at h
      split at h <;> cases h
      rename_i hreq
      have hlen := List.length_erase_of_mem hreq
      have hpos := List.length_pos_of_mem hreq
      simp only [PassOut.weight, PassPc.weight, Shared.load, hlen]
      omega
    | noSlot | tau => cases h; simp only [PassOut.weight, PassPc.weight]; omega
    | _ => cases h
  | reply req m =>
    cases env with
    | tau =>
      simp only [passStep] at h
      split at h <;> cases h
      · simp only [PassOut.weight, PassPc.weight, Shared.load]
        omega
      · rename_i hpop
        obtain ⟨hreq, hlen⟩ := length_popInFlight hpop
        simp only [PassOut.weight, PassPc.weight, Shared.load, hreq]
        omega
    | _ => cases h
  | unpack cmd m =>
    have hpeer := passStep_peer h
    cases env with
    | tau =>
      cases h
      obtain ⟨hreq, hfli⟩ := (peeked_unpack sh t cmd m).queues
      cases hpeer with
      | same hsame =>
        simp only [PassOut.weight, PassPc.weight, Shared.load, hreq, hfli, hsame.pending]
        omega
    | _ => cases h
  | received cmd failed =>
    cases env <;> cases h
    have hload : (if cmd.nowait = true then sh.emit (.discard cmd.msgid)
        else { sh with comq := sh.comq.pushCompletion cmd }).load = sh.load := by split <;> rfl
    rw [hload]
    cases failed <;> simp only [PassOut.weight, PassPc.weight, if_true, Bool.false_eq_true, if_false] <;> omega
  | cancelRequest | tryPop =>
    cases env with
    | tau =>
      simp only [passStep] at h
      split at h <;> cases h
      · simp only [PassOut.weight, PassPc.weight]
        omega
      · rename_i hpop
        obtain ⟨rest, hreq, rfl⟩ := CommQueue.tryPopRequest_eq_some hpop
        simp only [PassOut.weight, PassPc.weight, Shared.load, hreq, List.length_cons]
        omega
    | _ => cases h
  | cancelInflight =>
    cases env with
    | tau =>
      simp only [passStep] at h
      split at h <;> cases h
      simp only [PassOut.weight, PassPc.weight]
      omega
    | pick req =>
      simp only [passStep] at h
      split at h <;> cases h
      rename_i hpop
      obtain ⟨hreq, hlen⟩ := length_popInFlight hpop
      simp only [PassOut.weight, PassPc.weight, Shared.load, hreq]
      omega
    | _ => cases h
  | popped cmd =>
    cases env with
    | tau =>
      simp only [passStep] at h
      split at h
      · split at h <;> cases h
        · simp only [PassOut.weight, PassPc.weight, Shared.load, Shared.emit, vhWeight]
          omega
        · simp only [PassOut.weight, PassPc.weight]
          omega
      · cases h
    | sent req =>
      simp only [passStep] at h
      split at h <;> cases h
      simp only [PassOut.weight, PassPc.weight, Shared.load, Shared.emit, Shared.send, List.length_append,
        List.length_singleton]
      omega
    | again | refused =>
      simp only [passStep] at h
      split at h <;> cases h
      simp only [PassOut.weight, PassPc.weight, Shared.load, Shared.emit]
      omega
    | _ => cases h
  | submitted cmd =>
    cases env <;> cases h
    have hlen := length_insert_le sh.comq.inflight cmd.urpcReq cmd
    simp only [PassOut.weight, PassPc.weight, Shared.load, CommQueue.pushInFlight]
    omega
  | putBack cmd defer =>
    cases env <;> cases h
    cases defer <;>
      simp only [PassOut.weight, PassPc.weight, Shared.load, CommQueue.pushRequestFront, List.length_cons, if_true,
        Bool.false_eq_true, if_false] <;> omega
  | cancelledRequest cmd | cancelledInflight cmd | rejected cmd | executed cmd =>
    cases env <;> cases h
    rw [hcomplete]
    simp only [PassOut.weight, PassPc.weight]
    omega
  | failed =>
    cases env <;> cases h
    simp only [PassOut.weight, PassPc.weight, Shared.load]
    omega
  | idle =>
    cases env <;> simp only [passStep] at h <;> (try split at h) <;> cases h <;>
      simp only [PassOut.weight, PassPc.weight, Shared.load] <;> omega

/-! ### Steps of a context -/

/-- The requests that were pushed and the NEWPEER requests that were sent, by what they cost. -/
def Shared.paid (sh : Shared n) : Nat := 8 * (pushedIds sh.log).length + 2 * sh.direct.length

theorem ExecEffect.paid {t : Tid n} {sh sh' : Shared n} {r : Regs} {i : Instr} {a : Api} (heff : ExecEffect t sh r i sh' a)
    (hpeer : PeerExec sh r sh' a.regs) : sh'.load + sh.paid ≤ sh.load + sh'.paid := by
  obtain ⟨-, ids, hpush, hreq⟩ := heff.order
  have hfli := heff.inflight.1
  have hlen : sh'.comq.request.length = sh.comq.request.length + ids.length := by
    simpa [CommQueue.requestIds] using congrArg List.length hreq
  simp only [Shared.load, Shared.paid, hpush, hlen, hfli, List.length_append]
  cases hpeer with
  | same hsame =>
    rw [hsame.pending, hsame.direct]
    omega
  | newpeer _ hsame =>
    rw [hsame.pending, hsame.direct]
    simp only [Shared.send, List.length_append, List.length_cons, List.length_nil]
    omega
  | wait _ hsame =>
    rw [hsame.pending, hsame.direct]
    have hle := List.length_erase_le (a := r.newpeerReq) (l := sh.pending)
    dsimp only
    omega

namespace State

/-- The step of a thread is a step of the pass that it makes. -/
def passing (s : State n) : Label n → Bool
  | .main _ => s.main.passPc.isSome
  | .api t _ => (s.api t).phase.passPc.isSome
  | .call _ _ => false

/-- A pass begins. -/
def begins (s s' : State n) : Bool := s.cursor = none ∧ s'.cursor = some .poll

/-- What is left to do in the pass that is going on. -/
def passWeight (s : State n) : Nat :=
  (s.cursor.map PassPc.weight).getD 0 + if s.main.vhCmd.isSome then vhWeight else 0

def weight (s : State n) : Nat := s.sh.load + s.passWeight

end State

theorem CursorKept.passWeight {s s' : State n} (hcur : CursorKept s s') (hvh : s'.main.vhCmd = s.main.vhCmd) :
    s'.passWeight ≤ s.passWeight + 8 * (s.begins s').toNat := by
  unfold State.passWeight
  rw [hvh]
  rcases hcur with hcur | ⟨hnone, hpoll⟩
  · rw [hcur]
    omega
  · have hbegins : s.begins s' = true := decide_eq_true ⟨hnone, hpoll⟩
    simp only [hnone, hpoll, hbegins, Option.map_none, Option.map_some, Option.getD_none, Option.getD_some,
      PassPc.weight, Bool.toNat_true]
    omega

/-- A step of a pass, whichever thread makes it. -/
theorem weight_pass {s s' : State n} {x b : Bool} {t : Tid n} {p : PassPc} {env : Env} {sh : Shared n} {out : PassOut}
    (hp : s.cursor = some p) (h : passStep x t s.sh p env = some (sh, out)) (hsh : s'.sh = { sh with terminated := b })
    (hcur : s'.cursor = out.passPc ∨ b = true ∧ out = .throws ∧ s'.cursor = s.cursor)
    (hvh : s'.main.vhCmd = out.vhCmd.or s.main.vhCmd) (hx : x = true → s.main.vhCmd = none) :
    1 + s'.weight ≤ s.weight + b.toNat := by
  have hw := passStep_weight h
  have hload : s'.sh.load = sh.load := by rw [hsh]; rfl
  have hold : s.passWeight = p.weight + if s.main.vhCmd.isSome then vhWeight else 0 := by
    rw [State.passWeight, hp]
    rfl
  have hnew : out.vhCmd = none → s'.main.vhCmd = s.main.vhCmd := fun hnone => by rw [hvh, hnone, Option.none_or]
  unfold State.weight
  rw [hload, hold, State.passWeight]
  cases out with
  | next p' =>
    rw [hnew rfl, hcur.resolve_right (fun hc => by cases hc.2.1)]
    simp only [PassOut.passPc, PassOut.weight, Option.map_some, Option.getD_some] at hw ⊢
    omega
  | ret rv =>
    rw [hnew rfl, hcur.resolve_right (fun hc => by cases hc.2.1)]
    simp only [PassOut.passPc, PassOut.weight, Option.map_none, Option.getD_none] at hw ⊢
    omega
  | throws =>
    rw [hnew rfl]
    rcases hcur with hcur | ⟨hb, -, hcur⟩
    · rw [hcur]
      simp only [PassOut.passPc, PassOut.weight, Option.map_none, Option.getD_none] at hw ⊢
      omega
    · rw [hcur, hp, hb]
      simp only [PassOut.weight, Option.map_some, Option.getD_some, Bool.toNat_true] at hw ⊢
      have hsame : sh.load = s.sh.load := by
        cases passStep_effect h with
        | throws => rfl
        | quiet _ _ hne => exact absurd rfl hne
        | pushRequestFront hout => rcases hout with hout | hout <;> cases hout
      omega
  | startVH cmd =>
    have hexec : x = true := by
      cases passStep_effect h with
      | startVH _ _ hexec => exact hexec
      | quiet _ hout => cases hout
      | pushRequestFront hout => rcases hout with hout | hout <;> cases hout
    have hsome : s'.main.vhCmd = some cmd := by rw [hvh, hx hexec]; rfl
    rw [hsome, hx hexec, hcur.resolve_right (fun hc => by cases hc.2.1)]
    simp only [PassOut.passPc, PassOut.weight, Option.map_none, Option.getD_none, Option.isSome_some, if_true,
      Option.isSome_none, Bool.false_eq_true, if_false] at hw ⊢
    omega

theorem weight_mainPass {s : State n} {p : PassPc} {env : Env} {sh : Shared n} {out : PassOut} (hB : Basic s)
    (hB' : Basic (s.afterPass sh out)) (hmain : s.main = .pass p) (h : passStep true none s.sh p env = some (sh, out)) :
    1 + (s.afterPass sh out).weight ≤ s.weight + (s.afterPass sh out).sh.terminated.toNat := by
  obtain ⟨hp, -, hcur⟩ := cursor_mainPass hB hB' hmain
  have hx : true = true → s.main.vhCmd = none := fun _ => by rw [hmain]; rfl
  have hvh : (s.afterPass sh out).main.vhCmd = out.vhCmd.or s.main.vhCmd := vhCmd_mainPass hmain
  cases out with
  | next | ret | startVH =>
    exact weight_pass (b := sh.terminated) hp h rfl (.inl (hcur.resolve_right fun hc => by cases hc.1)) hvh hx
  | throws => exact weight_pass (b := true) hp h rfl (hcur.imp_right fun hc => ⟨rfl, hc⟩) hvh hx

theorem weight_apiPass {s : State n} {t : Tid n} {p : PassPc} {k : After} {env : Env} {uncaught : Bool} {sh sh' : Shared n}
    {out : PassOut} {a : Api} (hB : Basic s) (hB' : Basic (({ s with sh := sh' } : State n).setApi t a))
    (hphase : (s.api t).phase = .inPass p k) (h : passStep false t s.sh p env = some (sh, out))
    (hout : (s.api t).afterPass t k uncaught sh out = some (sh', a)) :
    1 + (({ s with sh := sh' } : State n).setApi t a).weight ≤ s.weight + sh'.terminated.toNat := by
  obtain ⟨hp, -, hcur⟩ := cursor_apiPass hB hB' hphase hout
  have hx : false = true → s.main.vhCmd = none := fun h => by cases h
  have hvh := vhCmd_apiPass hout
  cases out with
  | next | ret =>
    cases hout
    exact weight_pass (b := sh.terminated) hp h rfl (.inl (hcur.resolve_right fun hc => by cases hc.1)) hvh hx
  | startVH => cases hout
  | throws =>
    simp only [Api.afterPass] at hout
    split at hout <;> cases hout
    · exact weight_pass (b := true) hp h rfl (hcur.imp_right fun hc => ⟨rfl, hc⟩) hvh hx
    · -- the exception unwinds the call, so the pass is over
      have hnone : (({ s with sh := sh } : State n).setApi t ⟨.run, Api.unwind (s.api t).regs, (s.api t).regs⟩).cursor = none := by
        rcases hcur with hcur | ⟨-, hcur⟩
        · exact hcur
        · obtain ⟨u, hu⟩ := State.passOf_of_cursor (hcur.trans hp)
          have hbusy : ¬((s.api t).phase = .run ∧ (s.api t).code = []) := by simp [hphase]
          by_cases hut : u = t
          · rw [hut, State.passOf_setApi_self _ (hB.isVH_of_busy hbusy)] at hu
            cases hu
          · rw [State.passOf_setApi_ne hut] at hu
            have ht : s.passOf t = some p := by
              rw [State.passOf_of_busy hB hbusy, hphase]
              rfl
            exact absurd (State.passOf_unique hB hu ht) hut
      exact weight_pass (b := sh.terminated) hp h rfl (.inl hnone) hvh hx

/-- A step that is not a step of a pass. -/
theorem weight_kept {s s' : State n} (hcur : CursorKept s s') (hvh : s'.main.vhCmd = s.main.vhCmd)
    (hload : s'.sh.load + s.sh.paid ≤ s.sh.load + s'.sh.paid) :
    s'.weight + s.sh.paid ≤ s.weight + s'.sh.paid + 8 * (s.begins s').toNat := by
  have hw := hcur.passWeight hvh
  unfold State.weight
  omega

theorem weight_step {s s' : State n} {l : Label n} (hB : Basic s) (hstep : s.step l = some s') :
    (s.passing l).toNat + s'.weight + s.sh.paid ≤
      s.weight + s'.sh.paid + 8 * (s.begins s').toNat + s'.sh.terminated.toNat := by
  have hB' := hB.step hstep
  have hlog : (pushedIds s.sh.log).length ≤ (pushedIds s'.sh.log).length :=
    ((cursorStep hB hstep).log_grows.filterMap _).length_le
  -- a pass pushes nothing and sends no NEWPEER request
  have hpass : ∀ {x t p env sh out}, passStep x t s.sh p env = some (sh, out) → s'.sh.direct = sh.direct →
      1 + s'.weight ≤ s.weight + s'.sh.terminated.toNat →
      (s.passing l).toNat + s'.weight + s.sh.paid ≤
        s.weight + s'.sh.paid + 8 * (s.begins s').toNat + s'.sh.terminated.toNat := by
    intro x t p env sh out h hdirect hw
    have hone := (s.passing l).toNat_le
    have hpaid : s.sh.paid ≤ s'.sh.paid := by
      unfold Shared.paid
      rw [hdirect, (passStep_frame h).direct]
      omega
    omega
  have hkept : s.passing l = false → CursorKept s s' → s'.main.vhCmd = s.main.vhCmd →
      s'.sh.load + s.sh.paid ≤ s.sh.load + s'.sh.paid →
      (s.passing l).toNat + s'.weight + s.sh.paid ≤
        s.weight + s'.sh.paid + 8 * (s.begins s').toNat + s'.sh.terminated.toNat := by
    intro hnot hcur hvh hload
    have hw := weight_kept hcur hvh hload
    rw [hnot, Bool.toNat_false]
    omega
  cases step_cases hstep with
  | pass hmain h => exact hpass h (by cases ‹PassOut› <;> rfl) (weight_mainPass hB hB' hmain h)
  | @apiPass t env p k sh sh' out a hphase h hout =>
    obtain ⟨-, ⟨b, hsh⟩, -⟩ := cursor_apiPass hB hB' hphase hout
    exact hpass h (by change sh'.direct = _; rw [hsh]) (weight_apiPass hB hB' hphase h hout)
  | exec hphase hcode h =>
    have heff := exec_effect h
    have hkeptc := cursorKept_exec hB hB' hphase (by rw [hcode]; exact List.cons_ne_nil _ _) heff
    exact hkept (by simp [State.passing, hphase, Phase.passPc]) hkeptc rfl (heff.paid (exec_peer h))
  | out hmain hmain' hq hsh =>
    refine hkept ?_ (cursorKept_main hB hB' (Main.isVH_of_isOut hmain).1
      ((Main.isVH_of_isOut hmain').2.trans (Main.isVH_of_isOut hmain).2.symm)) ?_ ?_
    · simp [State.passing, (Main.isVH_of_isOut hmain).2]
    · exact (Main.vhCmd_of_isOut hmain').trans (Main.vhCmd_of_isOut hmain).symm
    · rw [hsh]
      exact Nat.le_refl _
  | execLock hmain | execUnlock hmain =>
    refine hkept ?_ (cursorKept_main hB hB' (by rw [hmain]; rfl) (by rw [hmain]; rfl)) (by rw [hmain]; rfl) (Nat.le_refl _)
    simp [State.passing, hmain, Main.passPc]
  | execTest hmain hmain' =>
    refine hkept ?_ (cursorKept_execTest hB hB' hmain hmain') ?_ (Nat.le_refl _)
    · simp [State.passing, hmain, Main.passPc]
    · rcases hmain' with rfl | rfl <;> rw [hmain] <;> rfl
  | unlock hphase =>
    refine hkept ?_ (cursorKept_unlock hB hB' hphase) rfl (Nat.le_refl _)
    simp [State.passing, hphase, Phase.passPc]
  | call hphase => exact hkept rfl (cursorKept_call hB hB' hphase) rfl (Nat.le_refl _)
  | @vhReturn cmd val hmain hphase hcode =>
    have hcur := State.cursor_of_passOf hB' (t := none) rfl
    have hpaid : s.sh.paid ≤ (s.sh.emit (.vhReturn cmd.msgid)).paid := by
      unfold Shared.paid
      exact Nat.add_le_add_right (Nat.mul_le_mul_left 8 hlog) _
    have hold : vhWeight ≤ s.passWeight := by
      simp [State.passWeight, hmain, Main.vhCmd]
    have hload : (s.sh.emit (.vhReturn cmd.msgid)).load = s.sh.load := rfl
    simp only [State.weight, State.passWeight, hcur, hload, State.passing, hmain, Main.passPc, Main.vhCmd, Option.map_some,
      Option.getD_some, PassPc.weight, Option.isSome_none, Bool.false_eq_true, if_false, Bool.toNat_false] at hold ⊢
    simp only [vhWeight, Option.isSome_some, if_true] at hold ⊢
    omega

/-! ### Runs -/

/-- How many steps passes made, and how many passes were begun. -/
structure PassCount where
  steps : Nat
  begun : Nat

def PassCount.record (s : State n) (l : Label n) (s' : State n) (o : PassCount) : PassCount :=
  { steps := o.steps + (s.passing l).toNat, begun := o.begun + (s.begins s').toNat }

/-- A context with an observer that counts. -/
def countedContext (n : Nat) : Machine (State n × PassCount) (Label n) := (context n).observe ⟨0, 0⟩ PassCount.record

/-- The steps that passes make in a run are paid for by the work that was there, the requests that were pushed meanwhile,
the NEWPEER requests and the passes that were begun. An exception that ends the process is one step more. So a pass ends
unless other threads keep on submitting. -/
theorem pass_steps_bounded {a b : State n} {o o' : PassCount}
    (h : (countedContext n).Reachable Machine.anyStep.observed (a, o))
    (hrun : (countedContext n).Steps Machine.anyStep.observed (a, o) (b, o')) :
    o'.steps + b.weight + a.sh.paid + 8 * o.begun ≤
      o.steps + a.weight + b.sh.paid + 8 * o'.begun + b.sh.terminated.toNat := by
  have htele := hrun.telescope (I := fun p => (context n).Reachable Machine.anyStep p.1)
    (f := fun p => p.2.steps + p.1.weight) (g := fun p => p.1.sh.paid + 8 * p.2.begun + p.1.sh.terminated.toNat) ?_
    h.of_observe
  · dsimp only at htele
    omega
  · rintro ⟨s, c⟩ l ⟨s', c'⟩ hstep _ hr
    obtain ⟨s'', hs', heq⟩ := Option.map_eq_some_iff.mp hstep
    cases heq
    have hrunning : s.sh.terminated = false := by
      by_contra hne
      rw [Bool.not_eq_false] at hne
      simp only [context, State.step, hne, if_true] at hs'
      cases hs'
    have hw := weight_step (s := s) (Basic.of_reachable hr) hs'
    refine ⟨hr.step hs' trivial, ?_⟩
    simp only [PassCount.record, hrunning, Bool.toNat_false]
    omega

theorem pass_steps_bounded_delivery :
    ∃ (b : State 1) (o : PassCount), (countedContext 1).Steps Machine.anyStep.observed (State.new 1, ⟨0, 0⟩) (b, o) ∧
      o.steps = 6 ∧ o.begun = 2 ∧ o.steps + b.weight ≤ b.sh.paid + 8 * o.begun + b.sh.terminated.toNat := by
  have hrun : ((countedContext 1).run (State.new 1, ⟨0, 0⟩) deliveryTrace).map
      (fun p => p.2.steps = 6 && p.2.begun = 2) = some true := by decide +kernel
  obtain ⟨⟨b, o⟩, hrun, hp⟩ := Option.map_eq_some_iff.mp hrun
  simp only [Bool.and_eq_true, decide_eq_true_eq] at hp
  have hsteps : (countedContext 1).Steps Machine.anyStep.observed (State.new 1, ⟨0, 0⟩) (b, o) :=
    (Machine.steps_of_run hrun).mono fun _ _ _ _ => trivial
  have hinit : (countedContext 1).Reachable Machine.anyStep.observed (State.new 1, ⟨0, 0⟩) := .init ⟨rfl, rfl⟩
  have hbound := pass_steps_bounded hinit hsteps
  have hzero : (State.new 1).weight = 0 ∧ (State.new 1).sh.paid = 0 := ⟨rfl, rfl⟩
  exact ⟨b, o, hsteps, hp.1, hp.2, by dsimp only at hbound; omega⟩

end Aveo

import Aveo.Context.Pass
import Mathlib.Tactic.NormNum

/-!
# The submit functions

The four lambdas that send a command to the VE, with the local variables in which they keep what
`urpc_generic_send` returns: `int64_t` for a call, `int` for a generic request and for the two directions of a
transfer. The machine of a context takes request numbers that fit in an `int`; here they are any 64-bit numbers.
-/

namespace Aveo

/-- `EAGAIN`. -/
def eagain : Int := 11

/-- The conversion of a number to a signed integer of `w` bits. -/
def toSigned (w : Nat) (r : Int) : Int := r.bmod (2 ^ w)

/-- The local variable `req` of a submit function. -/
def Closure.localReq (c : Closure) (r : Int) : Int :=
  match c with
  | .simpleCall => toSigned 64 r
  | _ => toSigned 32 r

/-- A submit function after `urpc_generic_send` returned: the command and the return value. -/
def submitFunction (cmd : Command) (r : Int) : Command × Int :=
  let req := cmd.closure.localReq r
  if 0 ≤ req then (cmd.setURPCReq req .unfinished, 0)
  else if req = -eagain then (cmd, -eagain)
  else (cmd.setResult 0 .error, -1)

/-- What a pass does with a VE command after its submit function. -/
def CommQueue.afterSubmit (q : CommQueue) (r : Command × Int) : CommQueue :=
  if r.2 = 0 then q.pushInFlight r.1
  else if r.2 = -eagain then q.pushRequestFront r.1
  else q.pushCompletion (r.1.setResult (BitVec.ofInt 64 r.2) .error)

theorem toSigned_of_lt {w : Nat} {r : Int} (h0 : 0 ≤ r) (h : r < 2 ^ w) : toSigned (w + 1) r = r := by
  have hpow : ((2 ^ (w + 1) : Nat) : Int) = 2 ^ w * 2 := by
    rw [Nat.pow_succ]
    push_cast
    rfl
  refine Int.bmod_eq_of_le ?_ ?_ <;> rw [hpow] <;> omega

theorem toSigned_lt (w : Nat) (r : Int) : toSigned (w + 1) r < 2 ^ w := by
  have h : toSigned (w + 1) r < (((2 ^ (w + 1) : Nat) : Int) + 1) / 2 := Int.bmod_lt (Nat.two_pow_pos _)
  have hpow : ((2 ^ (w + 1) : Nat) : Int) = 2 ^ w * 2 := by
    rw [Nat.pow_succ]
    push_cast
    rfl
  omega

/-- A request number that fits keeps its value. -/
theorem Closure.localReq_eq {c : Closure} {r : Int} (h0 : 0 ≤ r) (h64 : r < 2 ^ 63) (h : c = .simpleCall ∨ r < 2 ^ 31) :
    c.localReq r = r := by
  cases c with
  | simpleCall => exact toSigned_of_lt h0 h64
  | _ => exact toSigned_of_lt h0 (h.resolve_left nofun)

/-- A request number that does not fit loses it. -/
theorem Closure.localReq_ne {c : Closure} {r : Int} (hc : c ≠ .simpleCall) (h : 2 ^ 31 ≤ r) : c.localReq r ≠ r := by
  have hlt : toSigned 32 r < 2 ^ 31 := toSigned_lt 31 r
  cases c with
  | simpleCall => exact absurd rfl hc
  | _ => exact fun heq => absurd (show toSigned 32 r = r from heq) (by omega)

/-- The histories of a peer: how many requests were sent on it, and the queue. A request number is the number of
requests sent before. What else happens to the queue puts nothing in flight. -/
inductive Sends : Nat → CommQueue → Prop
  | new : Sends 0 .new
  | submit {k : Nat} {q : CommQueue} {cmd : Command} (h : Sends k q) (hve : cmd.isVH = false) :
      Sends (k + 1) (q.afterSubmit (submitFunction cmd k))
  | direct {k : Nat} {q : CommQueue} (h : Sends k q) : Sends (k + 1) q
  | other {k : Nat} {q q' : CommQueue} (h : Sends k q) (hsub : q'.inflight.keys ⊆ q.inflight.keys) : Sends k q'

theorem CommQueue.keys_afterSubmit {q : CommQueue} {cmd : Command} {r k : Int}
    (hk : k ∈ (q.afterSubmit (submitFunction cmd r)).inflight.keys) : k = cmd.closure.localReq r ∨ k ∈ q.inflight.keys := by
  unfold submitFunction CommQueue.afterSubmit at hk
  by_cases h0 : 0 ≤ cmd.closure.localReq r
  · simp only [h0, if_true, CommQueue.pushInFlight] at hk
    exact BlockingMap.mem_keys_insert.mp hk
  · by_cases hagain : cmd.closure.localReq r = -eagain
    · simp only [if_neg h0, if_pos hagain] at hk
      exact .inr hk
    · simp only [if_neg h0, if_neg hagain] at hk
      exact .inr hk

/-- Every key in flight is what some closure made of an earlier request number. -/
theorem Sends.keys {k : Nat} {q : CommQueue} (h : Sends k q) :
    ∀ key ∈ q.inflight.keys, ∃ (c : Closure) (j : Nat), j < k ∧ key = c.localReq j := by
  induction h with
  | new => exact fun key hkey => by cases hkey
  | @submit k q cmd h hve ih =>
    intro key hkey
    rcases CommQueue.keys_afterSubmit hkey with rfl | hold
    · exact ⟨cmd.closure, k, Nat.lt_succ_self k, rfl⟩
    · obtain ⟨c, j, hj, rfl⟩ := ih key hold
      exact ⟨c, j, Nat.lt_succ_of_lt hj, rfl⟩
  | direct h ih =>
    intro key hkey
    obtain ⟨c, j, hj, rfl⟩ := ih key hkey
    exact ⟨c, j, Nat.lt_succ_of_lt hj, rfl⟩
  | other h hsub ih => exact fun key hkey => ih key (hsub hkey)

/-- A request number is not in use. -/
theorem Sends.fresh {k : Nat} {q : CommQueue} (h : Sends k q) (hk : (k : Int) < 2 ^ 63) : (k : Int) ∉ q.inflight.keys := by
  intro hmem
  obtain ⟨c, j, hj, heq⟩ := h.keys _ hmem
  by_cases hc : c = .simpleCall ∨ (j : Int) < 2 ^ 31
  · rw [Closure.localReq_eq (by omega) (by omega) hc] at heq
    omega
  · -- A number that was cut off is below every number that is due.
    obtain ⟨hne, hge⟩ := not_or.mp hc
    have hlt : c.localReq j < 2 ^ 31 := by
      cases c with
      | simpleCall => exact absurd rfl hne
      | _ => exact toSigned_lt 31 j
    omega

theorem BlockingMap.tryFind_insert {κ ν : Type} [DecidableEq κ] {m : BlockingMap κ ν} {k : κ} {v : ν} (h : k ∉ m.keys) :
    (m.insert k v).tryFind k = some (v, m) := by
  refine BlockingMap.tryFind_eq_some.mpr ⟨?_, ?_⟩
  · rw [BlockingMap.insert_entries h]
    exact List.mem_cons_self
  · have hentries : ((m.insert k v).erase k).entries = m.entries := by
      simp only [BlockingMap.erase, BlockingMap.insert_entries h, List.filter_cons, ne_eq, not_true_eq_false, decide_false,
        Bool.false_eq_true, if_false]
      refine List.filter_eq_self.mpr fun e he => ?_
      have hne : e.1 ≠ k := fun heq => h (heq ▸ List.mem_map_of_mem he)
      simpa using hne
    obtain ⟨l, hl⟩ := m
    exact (BlockingMap.mk.injEq _ _ _ _).mpr hentries.symm

/-- On the numbers that fit, the submit function and what follows are the steps of the machine. -/
theorem passStep_submit {n : Nat} {x : Bool} {t : Tid n} {sh : Shared n} {cmd : Command} {req : Int}
    (hve : cmd.isVH = false) (hreq : sh.accepts req = true) :
    ∃ sh₁ p, passStep x t sh (.popped cmd) (.sent req) = some (sh₁, .next p) ∧
      passStep x t sh₁ p .tau =
        some ({ sh₁ with comq := sh.comq.afterSubmit (submitFunction cmd req) }, .next .poll) := by
  refine ⟨_, .submitted (cmd.setURPCReq req .unfinished), by simp only [passStep, hve, hreq]; rfl, ?_⟩
  simp only [Shared.accepts, Bool.and_eq_true, decide_eq_true_eq] at hreq
  have hlocal := Closure.localReq_eq (c := cmd.closure) hreq.1.2 (by omega) (.inr hreq.2)
  simp only [passStep, submitFunction, hlocal, if_pos hreq.1.2, CommQueue.afterSubmit, if_true, Shared.send, Shared.emit]

/-- After any number of requests, a command that was sent is in flight under the request number that URPC returned,
and nothing else has changed, exactly if it is a call or the number fits in an `int`. -/
theorem submit_keeps_id_iff {k : Nat} {q : CommQueue} (h : Sends k q) (hk : (k : Int) < 2 ^ 63) (cmd : Command) :
    (q.afterSubmit (submitFunction cmd k)).popInFlight k = some (cmd.setURPCReq k .unfinished, q) ↔
      cmd.closure = .simpleCall ∨ (k : Int) < 2 ^ 31 := by
  have hfresh := h.fresh hk
  constructor
  · intro hpop
    by_contra hnot
    obtain ⟨hne, hge⟩ := not_or.mp hnot
    -- The command is under another key, or back in the queue, or completed with an error.
    have hkey : (k : Int) ∉ (q.afterSubmit (submitFunction cmd k)).inflight.keys := by
      intro hmem
      rcases CommQueue.keys_afterSubmit hmem with heq | hold
      · exact Closure.localReq_ne hne (by omega) heq.symm
      · exact hfresh hold
    rw [CommQueue.popInFlight, BlockingMap.tryFind_eq_none.mpr hkey] at hpop
    cases hpop
  · intro hfits
    have hlocal := Closure.localReq_eq (c := cmd.closure) (by omega) hk hfits
    simp only [submitFunction, hlocal, if_pos (show (0 : Int) ≤ k by omega), CommQueue.afterSubmit, if_true,
      CommQueue.pushInFlight, CommQueue.popInFlight, Command.setURPCReq_urpcReq, BlockingMap.tryFind_insert hfresh,
      Option.map_some]

/-- Calls that were all answered. -/
theorem Sends.answered (k : Nat) : Sends k .new := by
  induction k with
  | zero => exact .new
  | succ k ih =>
    have hsent : Sends (k + 1) (CommQueue.new.afterSubmit (submitFunction (.new 0 .simpleCall) k)) := .submit ih rfl
    exact .other hsent (List.nil_subset _)

/-- The last request number that fits in an `int`. -/
theorem submit_keeps_id_max :
    Sends (2 ^ 31 - 1) .new ∧
      (CommQueue.new.afterSubmit (submitFunction (.new 5 (.sendBuff requestIdInvalid)) ((2 ^ 31 - 1 : Nat) : Int))).popInFlight
          ((2 ^ 31 - 1 : Nat) : Int) =
        some ((Command.new 5 (.sendBuff requestIdInvalid)).setURPCReq ((2 ^ 31 - 1 : Nat) : Int) .unfinished, .new) :=
  ⟨.answered _, (submit_keeps_id_iff (.answered _) (by norm_num) _).mpr (.inr (by norm_num))⟩

/-- After 2^31 requests, a fragment that was sent is completed with an error, and its reply finds no command. -/
theorem sent_fragment_rejected :
    Sends (2 ^ 31) .new ∧ ((2 ^ 31 : Nat) : Int) < 2 ^ 63 ∧
      (let q := CommQueue.new.afterSubmit (submitFunction (.new 5 (.sendBuff requestIdInvalid)) ((2 ^ 31 : Nat) : Int))
      q.completion.entries.map (fun e => (e.1, e.2.status)) = [(5, .error)] ∧ q.inflight.keys = [] ∧
        (q.popInFlight ((2 ^ 31 : Nat) : Int)).isNone = true) := by
  refine ⟨.answered _, by norm_num, ?_⟩
  decide +kernel

end Aveo

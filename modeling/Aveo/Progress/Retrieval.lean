import Aveo.Progress.Exclusion

/-!
# What threads execute and retrieve

Where an instruction in the code of a thread comes from: it was there before, the instruction before it put it
there, a call or a VH function started with it, or the call goes on after a pass. From that, which request IDs a
thread can be about to retrieve.
-/

namespace Aveo

open Lib

variable {n : Nat}

/-- What an instruction can put in its own place. -/
inductive Instr.Follows (r : Regs) : Instr → Instr → Prop
  | progressTry : Follows r .progress .progressTry
  | peekResult (id : ReqId) : Follows r (.peekTry id) (.peekResult id)
  | waitTry (id : ReqId) : Follows r (.waitPeek id) (.waitTry id)
  | waitNotify (id : ReqId) : Follows r (.waitTry id) (.waitNotify id)
  | waitCheck (id : ReqId) : Follows r (.waitNotify id) (.waitCheck id)
  | waitCompletion (id : ReqId) : Follows r (.waitCheck id) (.waitCompletion id)
  | waitErase (id : ReqId) (c : Command) : Follows r (.waitCompletion id) (.waitErase id c)
  | syncWait : Follows r .syncWait (.waitTry r.req)

/-- What is left of the code of a call after an instruction. -/
inductive Instr.Next (r : Regs) (i : Instr) (rest : List Instr) : List Instr → Prop
  | next : Next r i rest rest
  | dead {k : Nat} (hi : i = .isAlive k) : Next r i rest (rest.drop k)
  | refused (hi : i = .newpeerSend) : Next r i rest (rest.drop 1)
  | follows {j : Instr} (h : i.Follows r j) : Next r i rest (j :: rest)

theorem exec_code {t : Tid n} {exited : Bool} {sh sh' : Shared n} {r : Regs} {rest : List Instr} {i : Instr} {env : Env}
    {a : Api} (h : exec t exited sh r rest i env = some (sh', a)) : i.Next r rest a.code := by
  cases i with
  | notifyAll | remInsert | clearPrev | setExit | unlockCtx | syncReturn | save | terminate | peekResult | finPeek =>
    cases env <;> cases h
    exact .next
  | waitNotify id =>
    cases env <;> cases h
    exact .follows (.waitCheck id)
  | setNowait | pushRequest | lockSubmit | unlockSubmit | reqBlockBegin | reqBlockEnd =>
    cases env with
    | tau =>
      obtain ⟨c, -, heq⟩ := Option.map_eq_some_iff.mp h
      cases heq
      exact .next
    | _ => cases h
  | waitCompletion id =>
    cases env with
    | tau =>
      obtain ⟨p, -, heq⟩ := Option.map_eq_some_iff.mp h
      cases heq
      exact .follows (.waitErase id p.1)
    | _ => cases h
  | isAlive k =>
    cases env <;> simp only [exec] at h <;> (try split at h) <;> cases h <;> first | exact .dead rfl | exact .next
  | newpeerSend =>
    cases env <;> simp only [exec] at h <;> (try split at h) <;> cases h <;> first | exact .next | exact .refused rfl
  | issue | join | lockCtx | progressTry | waitErase | newpeerWait =>
    cases env <;> simp only [exec] at h <;> (try split at h) <;> cases h <;> exact .next
  | progress | syncWait | peekTry | waitTry | waitPeek | waitCheck =>
    cases env <;> simp only [exec] at h <;> (try split at h) <;> cases h <;>
      first | exact .next | exact .follows (by constructor)

theorem exec_mem_code {t : Tid n} {exited : Bool} {sh sh' : Shared n} {r : Regs} {rest : List Instr} {i j : Instr} {env : Env}
    {a : Api} (h : exec t exited sh r rest i env = some (sh', a)) (hj : j ∈ a.code) : j ∈ rest ∨ i.Follows r j := by
  have hnext := exec_code h
  generalize a.code = code at hnext hj
  cases hnext with
  | next => exact .inl hj
  | dead | refused => exact .inl (List.mem_of_mem_drop hj)
  | follows hf =>
    rcases List.mem_cons.mp hj with rfl | hj
    · exact .inr hf
    · exact .inl hj

/-- The request that a call waits for in the loop of `callWaitResult` when its pass is over. -/
def Phase.waits : Phase → Option ReqId
  | .inPass _ (.wait id) | .unlock _ (.wait id) => some id
  | _ => none

theorem exec_phase {t : Tid n} {exited : Bool} {sh sh' : Shared n} {r : Regs} {rest : List Instr} {i : Instr} {env : Env}
    {a : Api} {id : ReqId} (h : exec t exited sh r rest i env = some (sh', a)) (hid : a.phase.waits = some id) :
    i = .waitTry id := by
  cases i with
  | waitTry id' =>
    cases env <;> simp only [exec] at h <;> (try split at h) <;> cases h
    · cases hid
      rfl
    · cases hid
  | notifyAll | remInsert | clearPrev | setExit | unlockCtx | syncReturn | save | terminate | peekResult | finPeek
  | waitNotify =>
    cases env <;> cases h
    cases hid
  | setNowait | pushRequest | lockSubmit | unlockSubmit | reqBlockBegin | reqBlockEnd | waitCompletion =>
    cases env with
    | tau =>
      obtain ⟨c, -, heq⟩ := Option.map_eq_some_iff.mp h
      cases heq
      cases hid
    | _ => cases h
  | isAlive | issue | join | lockCtx | progressTry | waitErase | newpeerSend | newpeerWait | progress | syncWait | peekTry
  | waitPeek | waitCheck =>
    cases env <;> simp only [exec] at h <;> (try split at h) <;> cases h <;> cases hid

theorem Api.mem_unwind {r : Regs} {j : Instr} (h : j ∈ Api.unwind r) : j = .unlockSubmit ∨ j = .unlockCtx := by
  rcases List.mem_append.mp h with h | h
  · exact .inl (List.eq_of_mem_replicate h)
  · split at h
    · exact .inr (List.mem_singleton.mp h)
    · cases h

/-- What a step does to the code and the local variables of a thread. -/
inductive ThreadStep (s : State n) (l : Label n) (s' : State n) (u : Tid n) : Prop
  | same (hcode : (s'.api u).code = (s.api u).code) (hregs : (s'.api u).regs = (s.api u).regs)
      (hphase : (s'.api u).phase.waits = (s.api u).phase.waits)
      (hpass : (s'.api u).phase ≠ .run → (s.api u).phase ≠ .run)
  | exec {env : Env} {exited : Bool} {i : Instr} {rest : List Instr} (hl : l = .api u env) (hphase : (s.api u).phase = .run)
      (hcode : (s.api u).code = i :: rest)
      (h : exec u exited s.sh (s.api u).regs rest i env = some (s'.sh, s'.api u))
  | resumed {id : ReqId} (hphase : (s.api u).phase.waits = some id)
      (hcode : (s'.api u).code = .waitNotify id :: (s.api u).code ∨ (s'.api u).code = .waitPeek id :: (s.api u).code)
      (hregs : (s'.api u).regs = (s.api u).regs) (hrun : (s'.api u).phase = .run)
  | called {c : Call} (hl : l = .call u c) (hcode : (s'.api u).code = c.code)
      (hregs : (s'.api u).regs = c.regs (pushedIds s.sh.log).length) (hidle : (s.api u).code = [])
      (hrun : (s'.api u).phase = .run)
  | unwound (hcode : (s'.api u).code = Api.unwind (s.api u).regs) (hregs : (s'.api u).regs = (s.api u).regs)
      (hrun : (s'.api u).phase = .run) (hpass : (s.api u).phase ≠ .run)
  | vh {cmd : Command} (hu : u = none) (hmain : s'.main = .vh cmd) (hcode : (s'.api u).code = vhCode cmd.closure)
      (hregs : (s'.api u).regs = .new 0) (hmain₀ : s.main.isVH = false) (hrun : (s'.api u).phase = .run)

theorem threadStep {s s' : State n} {l : Label n} (hstep : s.step l = some s') (u : Tid n) : ThreadStep s l s' u := by
  have hsame : s'.api u = s.api u → ThreadStep s l s' u := fun heq =>
    .same (by rw [heq]) (by rw [heq]) (by rw [heq]) fun hpass => heq ▸ hpass
  have hother : ∀ {t : Tid n} {sh : Shared n} {a : Api}, u ≠ t → s' = ({ s with sh := sh } : State n).setApi t a →
      ThreadStep s l s' u := by
    rintro t sh a hu rfl
    exact hsame (State.setApi_api_ne _ _ hu)
  cases step_cases hstep with
  | @pass p env sh out hmain hpass =>
    cases out with
    | startVH cmd =>
      by_cases hu : u = none
      · subst hu
        exact .vh rfl rfl (by simp [State.afterPass]) (by simp [State.afterPass]) (by rw [hmain]; rfl)
          (by simp [State.afterPass])
      · exact hsame (by simp [State.afterPass, State.setApi_api_ne _ _ hu])
    | _ => exact hsame rfl
  | @exec t env i rest sh a hphase hcode hexec =>
    by_cases hu : u = t
    · subst hu
      exact .exec rfl hphase hcode (by rw [State.setApi_api_self]; exact hexec)
    · exact hother hu rfl
  | @apiPass t env p k sh sh' out a hphase hpass hout =>
    by_cases hu : u = t
    · subst hu
      have hne : (s.api u).phase ≠ .run := by rw [hphase]; exact fun h => by cases h
      unfold Api.afterPass at hout
      split at hout
      · cases hout
        exact .same (by rw [State.setApi_api_self]) (by rw [State.setApi_api_self])
          (by rw [State.setApi_api_self, hphase]; cases k <;> rfl) fun _ => hne
      · cases hout
        exact .same (by rw [State.setApi_api_self]) (by rw [State.setApi_api_self])
          (by rw [State.setApi_api_self, hphase]; cases k <;> rfl) fun _ => hne
      · split at hout <;> cases hout
        · exact hsame (State.setApi_api_self _ _ _)
        · exact .unwound (by rw [State.setApi_api_self]) (by rw [State.setApi_api_self]) (by rw [State.setApi_api_self]) hne
      · cases hout
    · exact hother hu rfl
  | @unlock t env rv k m hphase hlock =>
    by_cases hu : u = t
    · subst hu
      cases k with
      | resume =>
        exact .same (by rw [State.setApi_api_self]; rfl) (by rw [State.setApi_api_self])
          (by rw [State.setApi_api_self, hphase]; rfl) fun _ => by rw [hphase]; exact fun h => by cases h
      | wait id =>
        have hwaits : (s.api u).phase.waits = some id := by rw [hphase]; rfl
        refine .resumed hwaits ?_ (by rw [State.setApi_api_self]) (by rw [State.setApi_api_self])
        rw [State.setApi_api_self, After.code]
        dsimp only
        split
        · exact .inl rfl
        · exact .inr rfl
    · exact hother hu rfl
  | @call t c hphase hcode hmay =>
    by_cases hu : u = t
    · subst hu
      exact .called rfl (by rw [State.setApi_api_self]) (by rw [State.setApi_api_self]) hcode (by rw [State.setApi_api_self])
    · exact hsame (State.setApi_api_ne _ _ hu)
  | _ => exact hsame rfl

/-- Where an instruction in the code of a thread comes from. -/
inductive Source (s : State n) (l : Label n) (s' : State n) (u : Tid n) (j : Instr) : Prop
  | kept (h : j ∈ (s.api u).code)
  | follows {env : Env} {i : Instr} {rest : List Instr} (hl : l = .api u env) (hphase : (s.api u).phase = .run)
      (hcode : (s.api u).code = i :: rest) (h : i.Follows (s.api u).regs j)
  | resumed {id : ReqId} (hphase : (s.api u).phase.waits = some id) (h : j = .waitNotify id ∨ j = .waitPeek id)
  | called {c : Call} (hl : l = .call u c) (h : j ∈ c.code)
  | unwound (h : j = .unlockSubmit ∨ j = .unlockCtx)
  | vh {cmd : Command} (hu : u = none) (hmain : s'.main = .vh cmd) (h : j ∈ vhCode cmd.closure)

theorem code_step {s s' : State n} {l : Label n} {u : Tid n} {j : Instr} (hstep : s.step l = some s')
    (hj : j ∈ (s'.api u).code) : Source s l s' u j := by
  cases threadStep hstep u with
  | same hcode => exact .kept (hcode ▸ hj)
  | exec hl hphase hcode h =>
    rcases exec_mem_code h hj with hj | hf
    · exact .kept (hcode ▸ List.mem_cons_of_mem _ hj)
    · exact .follows hl hphase hcode hf
  | resumed hphase hcode =>
    rcases hcode with hcode | hcode <;> rw [hcode] at hj <;> rcases List.mem_cons.mp hj with hj | hj
    · exact .resumed hphase (.inl hj)
    · exact .kept hj
    · exact .resumed hphase (.inr hj)
    · exact .kept hj
  | called hl hcode => exact .called hl (hcode ▸ hj)
  | unwound hcode => exact .unwound (Api.mem_unwind (hcode ▸ hj))
  | vh hu hmain hcode => exact .vh hu hmain (hcode ▸ hj)

theorem phase_step {s s' : State n} {l : Label n} {u : Tid n} {id : ReqId} (hstep : s.step l = some s')
    (hid : (s'.api u).phase.waits = some id) : (s.api u).phase.waits = some id ∨ .waitTry id ∈ (s.api u).code := by
  cases step_cases hstep with
  | @pass p env sh out hmain hpass =>
    cases out with
    | startVH cmd =>
      by_cases hu : u = none
      · subst hu
        simp [State.afterPass, Phase.waits] at hid
      · exact .inl (by simpa [State.afterPass, State.setApi_api_ne _ _ hu] using hid)
    | _ => exact .inl hid
  | @exec t env i rest sh a hphase hcode hexec =>
    by_cases hu : u = t
    · subst hu
      rw [State.setApi_api_self] at hid
      exact .inr (hcode ▸ exec_phase hexec hid ▸ List.mem_cons_self)
    · rw [State.setApi_api_ne _ _ hu] at hid
      exact .inl hid
  | @apiPass t env p k sh sh' out a hphase hpass hout =>
    by_cases hu : u = t
    · subst hu
      rw [State.setApi_api_self] at hid
      unfold Api.afterPass at hout
      rw [hphase]
      cases out with
      | next | ret =>
        cases hout
        cases k with
        | resume => cases hid
        | wait => exact .inl hid
      | startVH => cases hout
      | throws =>
        dsimp only at hout
        split at hout <;> cases hout
        · rw [hphase] at hid
          exact .inl hid
        · cases hid
    · rw [State.setApi_api_ne _ _ hu] at hid
      exact .inl hid
  | @unlock t env rv k m hphase hlock =>
    by_cases hu : u = t
    · subst hu
      rw [State.setApi_api_self] at hid
      cases hid
    · rw [State.setApi_api_ne _ _ hu] at hid
      exact .inl hid
  | @call t c hphase hcode hmay =>
    by_cases hu : u = t
    · subst hu
      rw [State.setApi_api_self] at hid
      cases hid
    · rw [State.setApi_api_ne _ _ hu] at hid
      exact .inl hid
  | _ => exact .inl hid

/-! ### The requests that a thread is about to retrieve -/

def Instr.retrieves : Instr → Option ReqId
  | .peekTry id | .peekResult id | .waitTry id | .waitPeek id | .waitNotify id | .waitCheck id | .waitCompletion id
  | .waitErase id _ | .finPeek _ id => some id
  | _ => none

def Api.Retrieves (a : Api) (id : ReqId) : Prop := (∃ i ∈ a.code, i.retrieves = some id) ∨ a.phase.waits = some id

theorem Instr.Follows.retrieves {r : Regs} {i j : Instr} {id : ReqId} (h : i.Follows r j) (hj : j.retrieves = some id) :
    i.retrieves = some id ∨ i = .syncWait ∧ id = r.req := by
  cases h with
  | progressTry => cases hj
  | syncWait =>
    cases hj
    exact .inr ⟨rfl, rfl⟩
  | _ => exact .inl hj

/-- The instructions that the submitting calls are made of. -/
def Instr.submits : Instr → Bool
  | .isAlive _ | .issue _ _ | .remInsert | .setNowait | .lockSubmit | .unlockSubmit | .pushRequest | .progress
  | .notifyAll | .clearPrev | .save _ => true
  | _ => false

def submitsOnly (code : List Instr) : Bool := code.all Instr.submits

theorem submitsOnly_fragments (b : Build) (kept : Bool) (k : Nat) : submitsOnly (fragments b kept k) = true := by
  induction k with
  | zero => rfl
  | succ k ih => exact ih

theorem submitsOnly_asyncMem (b : Build) (kept : Bool) (k : Nat) : submitsOnly (asyncMem b kept k) = true := by
  cases k with
  | zero => rfl
  | succ k => exact submitsOnly_fragments b kept k

theorem submitsOnly_append {l₁ l₂ : List Instr} (h₁ : submitsOnly l₁ = true) (h₂ : submitsOnly l₂ = true) :
    submitsOnly (l₁ ++ l₂) = true := by
  rw [submitsOnly, List.all_append, Bool.and_eq_true]
  exact ⟨h₁, h₂⟩

theorem submitsOnly_largeCallAsync (copyin copyout : Bool) (w r : Nat) :
    submitsOnly (largeCallAsync copyin copyout w r) = true := by
  have hpart : ∀ (c : Bool) (b : Build) (k : Nat) (sub : Sub),
      submitsOnly (if c then asyncMem b true k ++ [.save sub] else []) = true := by
    intro c b k sub
    cases c with
    | false => rfl
    | true => exact submitsOnly_append (submitsOnly_asyncMem b true k) rfl
  refine submitsOnly_append (submitsOnly_append (submitsOnly_append (submitsOnly_append (submitsOnly_append rfl ?_) rfl) rfl) ?_) rfl
  · exact hpart copyin .sendBuff w .write
  · exact hpart copyout .recvBuff r .read

/-- Only `callPeekResult` and `callWaitResult` begin with the retrieval of a request. -/
theorem Call.retrieves {c : Call} {i : Instr} {id : ReqId} (hi : i ∈ c.code) (hid : i.retrieves = some id) :
    c = .callPeekResult id ∨ c = .callWaitResult id := by
  have hnone : ∀ {code : List Instr}, (code.all fun i => i.retrieves.isNone) = true → i ∉ code := by
    intro code hcode hmem
    have := List.all_eq_true.mp hcode i hmem
    rw [hid] at this
    cases this
  have hsub : ∀ {code : List Instr}, submitsOnly code = true → i ∉ code := by
    intro code hcode hmem
    have := List.all_eq_true.mp hcode i hmem
    cases i <;> first | cases this; done | cases hid
  cases c with
  | callPeekResult id' =>
    cases List.mem_singleton.mp hi
    cases hid
    exact .inl rfl
  | callWaitResult id' =>
    cases List.mem_singleton.mp hi
    cases hid
    exact .inr rfl
  | genericAsyncReq nowait =>
    refine absurd hi (hnone ?_)
    cases nowait <;> rfl
  | largeCallAsync copyin copyout w r => exact absurd hi (hsub (submitsOnly_largeCallAsync copyin copyout w r))
  | asyncWriteMem k | asyncReadMem k => exact absurd hi (hsub (submitsOnly_asyncMem _ _ k))
  | _ => exact absurd hi (hnone rfl)

/-- The instructions that one call alone contains. -/
def Instr.call : Instr → Option Call
  | .setExit => some .close
  | .lockCtx => some .openContext
  | _ => none

theorem Call.eq_of_mem {c c' : Call} {j : Instr} (h : j ∈ c.code) (hj : j.call = some c') : c = c' := by
  have hnone : ∀ {code : List Instr}, (code.all fun i => i.call.isNone) = true → j ∉ code := by
    intro code hcode hmem
    have := List.all_eq_true.mp hcode j hmem
    rw [hj] at this
    cases this
  have hsub : ∀ {code : List Instr}, submitsOnly code = true → j ∉ code := by
    intro code hcode hmem
    have := List.all_eq_true.mp hcode j hmem
    cases j <;> first | cases this; done | cases hj
  cases c with
  | largeCallAsync copyin copyout w r => exact absurd h (hsub (submitsOnly_largeCallAsync copyin copyout w r))
  | asyncWriteMem k | asyncReadMem k => exact absurd h (hsub (submitsOnly_asyncMem _ _ k))
  | genericAsyncReq nowait => cases nowait <;> exact absurd h (hsub rfl)
  | close =>
    have hall : (Call.close.code.all fun i => i.call = none ∨ i.call = some .close) = true := rfl
    have := of_decide_eq_true (List.all_eq_true.mp hall j h)
    rw [hj] at this
    exact (Option.some.inj (this.resolve_left (Option.some_ne_none _))).symm
  | openContext =>
    have hall : (Call.openContext.code.all fun i => i.call = none ∨ i.call = some .openContext) = true := rfl
    have := of_decide_eq_true (List.all_eq_true.mp hall j h)
    rw [hj] at this
    exact (Option.some.inj (this.resolve_left (Option.some_ne_none _))).symm
  | _ => exact absurd h (hnone rfl)

theorem call_of_mem_vhCode {c : Closure} {j : Instr} (h : j ∈ vhCode c) : j.call = none := by
  cases c with
  | finaliser w c r =>
    have hpart : ∀ {x : ReqId} {sub : Sub}, j ∈ (if x ≠ requestIdInvalid then [Instr.finPeek sub x] else []) →
        j.call = none := by
      intro x sub hmem
      split at hmem
      · cases List.mem_singleton.mp hmem
        rfl
      · cases hmem
    rcases List.mem_append.mp h with h | h
    · exact (List.mem_append.mp h).elim hpart hpart
    · exact hpart h
  | _ => cases h

/-- An instruction that one call alone contains gets into the code of a thread when the thread makes that call. -/
theorem code_step_call {s s' : State n} {l : Label n} {t : Tid n} {c : Call} {j : Instr} (hstep : s.step l = some s')
    (hj : j.call = some c) (hmem : j ∈ (s'.api t).code) : j ∈ (s.api t).code ∨ l = .call t c := by
  cases code_step hstep hmem with
  | kept h => exact .inl h
  | follows _ _ _ hf => cases hf <;> cases hj
  | resumed _ h => rcases h with rfl | rfl <;> cases hj
  | called hl h =>
    rw [← Call.eq_of_mem h hj]
    exact .inr hl
  | unwound h => rcases h with rfl | rfl <;> cases hj
  | vh _ _ h =>
    rw [call_of_mem_vhCode h] at hj
    cases hj

theorem mem_captured_of_vhCode {c : Closure} {i : Instr} {id : ReqId} (hi : i ∈ vhCode c) (hid : i.retrieves = some id) :
    id ∈ c.captured := by
  cases c with
  | finaliser w c r =>
    have hpart : ∀ {x : ReqId} {sub : Sub}, i ∈ (if x ≠ requestIdInvalid then [Instr.finPeek sub x] else []) →
        id = x ∧ x ≠ requestIdInvalid := by
      intro x sub hmem
      split at hmem
      · rename_i hx
        cases List.mem_singleton.mp hmem
        cases hid
        exact ⟨rfl, hx⟩
      · cases hmem
    simp only [Closure.captured, List.mem_filter, List.mem_cons, List.not_mem_nil, or_false, decide_eq_true_eq]
    rcases List.mem_append.mp hi with hi | hi
    · rcases List.mem_append.mp hi with hi | hi
      · obtain ⟨rfl, hne⟩ := hpart hi
        exact ⟨.inl rfl, hne⟩
      · obtain ⟨rfl, hne⟩ := hpart hi
        exact ⟨.inr (.inl rfl), hne⟩
    · obtain ⟨rfl, hne⟩ := hpart hi
      exact ⟨.inr (.inr rfl), hne⟩
  | _ => cases hi

/-- A thread is about to retrieve what it was about to retrieve before, the request of a call that starts, the
request of a `synchronize` that begins to wait, or a sub-request of a finaliser that starts. -/
theorem retrieves_step {s s' : State n} {l : Label n} {u : Tid n} {id : ReqId} (hstep : s.step l = some s')
    (h : (s'.api u).Retrieves id) :
    (s.api u).Retrieves id ∨ (∃ c, l = .call u c ∧ (c = .callPeekResult id ∨ c = .callWaitResult id)) ∨
      (.syncWait ∈ (s.api u).code ∧ id = (s.api u).regs.req) ∨
      u = none ∧ ∃ cmd, s'.main = .vh cmd ∧ id ∈ cmd.closure.captured := by
  rcases h with ⟨j, hj, hid⟩ | hid
  · cases code_step hstep hj with
    | kept h => exact .inl (.inl ⟨j, h, hid⟩)
    | @follows env i rest hl hphase hcode h =>
      rcases h.retrieves hid with hi | ⟨rfl, rfl⟩
      · exact .inl (.inl ⟨i, hcode ▸ List.mem_cons_self, hi⟩)
      · exact .inr (.inr (.inl ⟨hcode ▸ List.mem_cons_self, rfl⟩))
    | resumed hphase h =>
      rcases h with rfl | rfl <;> cases hid <;> exact .inl (.inr hphase)
    | called hl h => exact .inr (.inl ⟨_, hl, Call.retrieves h hid⟩)
    | unwound h => rcases h with rfl | rfl <;> cases hid
    | vh hu hmain h => exact .inr (.inr (.inr ⟨hu, _, hmain, mem_captured_of_vhCode h hid⟩))
  · rcases phase_step hstep hid with h | h
    · exact .inl (.inr h)
    · exact .inl (.inl ⟨_, h, rfl⟩)

end Aveo

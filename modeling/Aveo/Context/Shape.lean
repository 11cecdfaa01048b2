import Aveo.Context.Effect

/-!
# The shape of the code of calls

A call pushes every command that it builds, pushes only under the submission lock, and starts a pass
only when it holds no command. `Shaped` states this for the rest of a call, given whether the thread
holds a command and how many `lock_guard` objects on `submit_mtx` are alive. The code of every call has
the shape at its start and every instruction keeps it, so no call ends or unwinds with a command that
was not pushed.
-/

namespace Aveo

open Lib

variable {n : Nat}

/-- The instructions that neither touch the command of the call nor its guards, and lead to code that
follows them. -/
def Instr.isPlain : Instr → Bool
  | .isAlive _ | .issue _ _ | .remInsert | .setNowait | .lockSubmit | .unlockSubmit | .reqBlockBegin | .reqBlockEnd
  | .pushRequest | .newpeerSend => false
  | _ => true

/-- What a call has done for the command it submits: it has none, it issued the ID, it put the ID in
`rem_reqid`, or it took it out again because the command is flagged to drop its result. -/
inductive Held
  | none
  | issued
  | listed
  | flagged
  deriving DecidableEq

def Regs.held (r : Regs) : Held :=
  match r.cur with
  | .none => .none
  | .some cmd => if cmd.nowait then .flagged else if r.listed then .listed else .issued

/-- The shape of the rest of a call, given what was done for its command and how many guards are alive. -/
inductive Shaped : Held → Nat → List Instr → Prop
  | nil : Shaped .none 0 []
  | isAlive {g skip : Nat} {rest : List Instr} (h : Shaped .none g rest) (hskip : Shaped .none g (rest.drop skip)) :
      Shaped .none g (.isAlive skip :: rest)
  | issue {g : Nat} {b : Build} {kept : Bool} {rest : List Instr} (h : Shaped .issued g rest) :
      Shaped .none g (.issue b kept :: rest)
  | remInsert {g : Nat} {rest : List Instr} (h : Shaped .listed g rest) : Shaped .issued g (.remInsert :: rest)
  | setNowait {g : Nat} {rest : List Instr} (h : Shaped .flagged g rest) : Shaped .listed g (.setNowait :: rest)
  | lockSubmit {c : Held} {g : Nat} {rest : List Instr} (h : Shaped c (g + 1) rest) :
      Shaped c g (.lockSubmit :: rest)
  | unlockSubmit {c : Held} {g : Nat} {rest : List Instr} (h : Shaped c g rest) :
      Shaped c (g + 1) (.unlockSubmit :: rest)
  | reqBlockBegin : Shaped .none 0 [.reqBlockBegin]
  | reqBlockEnd : Shaped .none 0 [.reqBlockEnd]
  | pushRequest {c : Held} {g : Nat} {rest : List Instr} (hc : c = .listed ∨ c = .flagged)
      (h : Shaped .none (g + 1) rest) : Shaped c (g + 1) (.pushRequest :: rest)
  | newpeerSend {g : Nat} {rest : List Instr} (h : Shaped .none g rest) (hskip : Shaped .none g (rest.drop 1)) :
      Shaped .none g (.newpeerSend :: rest)
  | plain {g : Nat} {i : Instr} {rest : List Instr} (hi : i.isPlain = true) (h : Shaped .none g rest) :
      Shaped .none g (i :: rest)

namespace Shaped

/-! ### The code of the calls -/

/-- Code after which a thread holds no command and has the guards it had before. -/
def Balanced (code : List Instr) : Prop :=
  ∀ (g : Nat) (rest : List Instr), Shaped .none g rest → Shaped .none g (code ++ rest)

theorem Balanced.append {code code' : List Instr} (h : Balanced code) (h' : Balanced code') :
    Balanced (code ++ code') := by
  intro g rest hrest
  rw [List.append_assoc]
  exact h g _ (h' g rest hrest)

theorem Balanced.nil : Balanced [] := fun _ _ hrest => hrest

theorem Balanced.cons {i : Instr} {code : List Instr} (hi : i.isPlain = true) (h : Balanced code) :
    Balanced (i :: code) := fun g rest hrest => .plain hi (h g rest hrest)

theorem Balanced.ifAlive {body : List Instr} (h : Balanced body) : Balanced (ifAlive body) := by
  intro g rest hrest
  refine .isAlive (h g rest hrest) ?_
  change Shaped .none g ((body ++ rest).drop body.length)
  rwa [List.drop_left]

theorem Balanced.ite {b : Bool} {code : List Instr} (h : Balanced code) :
    Balanced (if b then code else []) := by
  cases b with
  | false => exact Balanced.nil
  | true => exact h

theorem balanced_issueAndPush (b : Build) (kept : Bool) : Balanced (issueAndPush b kept) := fun _ _ hrest =>
  .issue (.remInsert (.lockSubmit (.pushRequest (.inl rfl) (.unlockSubmit hrest))))

theorem balanced_simpleCallAsync (kept : Bool) : Balanced (simpleCallAsync kept) :=
  .ifAlive (.append (balanced_issueAndPush _ kept) (.cons rfl (.cons rfl .nil)))

theorem balanced_callVHAsync (b : Build) : Balanced (callVHAsync b) :=
  .ifAlive fun _ _ hrest =>
    .issue (.remInsert (.lockSubmit (.pushRequest (.inl rfl) (.plain rfl (.unlockSubmit hrest)))))

theorem balanced_genericAsyncReq (nowait : Bool) : Balanced (genericAsyncReq nowait) := by
  refine .ifAlive fun g rest hrest => ?_
  have htail : ∀ c : Held, c = .listed ∨ c = .flagged →
      Shaped c g ([.lockSubmit, .pushRequest, .unlockSubmit, .progress, .notifyAll] ++ rest) := fun c hc =>
    .lockSubmit (.pushRequest hc (.unlockSubmit (.plain rfl (.plain rfl hrest))))
  cases nowait with
  | false => exact .issue (.remInsert (htail _ (.inl rfl)))
  | true => exact .issue (.remInsert (.setNowait (htail _ (.inr rfl))))

theorem balanced_fragments (b : Build) (kept : Bool) (k : Nat) : Balanced (fragments b kept k) := by
  induction k with
  | zero => exact .cons rfl .nil
  | succ k ih => exact .ifAlive (.append (balanced_issueAndPush b _) ih)

theorem balanced_asyncMem (b : Build) (kept : Bool) (k : Nat) : Balanced (asyncMem b kept k) := by
  cases k with
  | zero => exact .ifAlive (.append (balanced_issueAndPush _ kept) (.cons rfl .nil))
  | succ k =>
    exact .ifAlive (.cons rfl
      (.ifAlive (.append (balanced_issueAndPush b _) (.cons rfl (balanced_fragments b kept k)))))

theorem balanced_largeCallAsync (copyin copyout : Bool) (w r : Nat) :
    Balanced (largeCallAsync copyin copyout w r) := by
  intro g rest hrest
  have hfin : Shaped .none (g + 1)
      ([.issue .finaliser false, .remInsert, .pushRequest, .progress, .notifyAll, .unlockSubmit] ++ rest) :=
    .issue (.remInsert (.pushRequest (.inl rfl) (.plain rfl (.plain rfl (.unlockSubmit hrest)))))
  have hread := Balanced.ite (b := copyout) (.append (balanced_asyncMem .recvBuff true r) (.cons (i := .save .read) rfl .nil))
  have hwrite := Balanced.ite (b := copyin) (.append (balanced_asyncMem .sendBuff true w) (.cons (i := .save .write) rfl .nil))
  have hcall := Balanced.append (balanced_simpleCallAsync true) (.cons (i := .save .call) rfl .nil)
  simp only [largeCallAsync, List.append_assoc]
  refine .lockSubmit (hwrite _ _ ?_)
  rw [← List.append_assoc]
  exact hcall _ _ (hread _ _ hfin)

theorem balanced_synchronize : Balanced synchronize :=
  .append (balanced_callVHAsync _) (.cons rfl (.cons rfl .nil))

theorem shaped_openContext : Shaped .none 0 openContext := by
  have hend : Shaped .none 1 [.unlockSubmit, .unlockCtx] := .unlockSubmit (.plain rfl .nil)
  simp only [openContext, List.append_assoc]
  exact .plain rfl (.lockSubmit (balanced_synchronize _ _ (.newpeerSend (.plain rfl hend) hend)))

/-- Every call has the shape at its start. -/
theorem shaped_code (c : Call) : Shaped .none 0 c.code := by
  have hbal : ∀ {code : List Instr}, Balanced code → Shaped .none 0 code := by
    intro code h
    simpa using h 0 [] .nil
  cases c with
  | callAsync => exact hbal (.ifAlive (balanced_simpleCallAsync false))
  | largeCallAsync copyin copyout w r => exact hbal (.ifAlive (balanced_largeCallAsync copyin copyout w r))
  | genericAsyncReq nowait => exact hbal (balanced_genericAsyncReq nowait)
  | callVHAsync => exact hbal (balanced_callVHAsync _)
  | sendBuffAsync | recvBuffAsync => exact hbal (.ifAlive (balanced_issueAndPush _ _))
  | asyncWriteMem k | asyncReadMem k => exact hbal (balanced_asyncMem _ _ k)
  | callPeekResult | callWaitResult => exact .plain rfl .nil
  | reqBlockBegin => exact .reqBlockBegin
  | reqBlockEnd => exact .reqBlockEnd
  | synchronize => exact hbal balanced_synchronize
  | openContext => exact shaped_openContext
  | close => exact hbal (.append (.cons rfl (.cons rfl .nil)) (.ifAlive (.cons rfl .nil)))

theorem shaped_vhCode (c : Closure) : Shaped .none 0 (vhCode c) := by
  cases c with
  | finaliser w c r =>
    have hpeek : ∀ (sub : Sub) (id : ReqId), Balanced (if id ≠ requestIdInvalid then [.finPeek sub id] else []) := by
      intro sub id
      split
      · exact .cons rfl .nil
      · exact .nil
    have hbal := Balanced.append (.append (hpeek .write w) (hpeek .call c)) (hpeek .read r)
    simpa [vhCode] using hbal 0 [] .nil
  | _ => exact .nil

theorem shaped_unwind (r : Regs) : Shaped .none r.guards (Api.unwind r) := by
  unfold Api.unwind
  induction r.guards with
  | zero =>
    cases r.ctxGuard with
    | false => exact .nil
    | true => exact .plain rfl .nil
  | succ g ih => exact .unlockSubmit ih

/-- A thread at the end of a call holds neither a command nor a guard. -/
theorem of_nil {c : Held} {g : Nat} (hs : Shaped c g []) : c = .none ∧ g = 0 := by
  cases hs
  exact ⟨rfl, rfl⟩

/-- A thread issues a request ID only when it holds no command. -/
theorem held_of_issue {c : Held} {g : Nat} {b : Build} {kept : Bool} {rest : List Instr}
    (hs : Shaped c g (.issue b kept :: rest)) : c = .none := by
  cases hs <;> rfl

theorem held_of_plain {c : Held} {g : Nat} {i : Instr} {rest : List Instr} (hs : Shaped c g (i :: rest))
    (hi : i.isPlain = true) : c = .none := by
  cases hs with
  | plain => rfl
  | _ => cases hi

theorem held_of_remInsert {c : Held} {g : Nat} {rest : List Instr} (hs : Shaped c g (.remInsert :: rest)) :
    c = .issued := by
  cases hs with
  | remInsert => rfl
  | plain hi => cases hi

/-- A thread pushes a command only after its ID was put in `rem_reqid`, and only under a guard. -/
theorem of_pushRequest {c : Held} {g : Nat} {rest : List Instr} (hs : Shaped c g (.pushRequest :: rest)) :
    (c = .listed ∨ c = .flagged) ∧ 0 < g := by
  cases hs with
  | pushRequest hc => exact ⟨hc, Nat.succ_pos _⟩
  | plain hi => cases hi

end Shaped

namespace Regs

variable {r r' : Regs}

theorem held_eq_none : r.held = .none ↔ r.cur = none := by
  unfold held
  split
  · rename_i h
    simp [h]
  · rename_i cmd h
    simp only [h, reduceCtorEq, iff_false]
    split
    · exact nofun
    · split <;> exact nofun

end Regs

/-! ### Steps -/

/-- What a plain instruction leaves alone in the local variables. -/
structure SameCall (r r' : Regs) : Prop where
  cur : r'.cur = r.cur
  listed : r'.listed = r.listed
  req : r'.req = r.req
  guards : r'.guards = r.guards
  mark : r'.mark = r.mark

theorem SameCall.save (r : Regs) (sub : Sub) : SameCall r (r.save sub) := by
  cases sub <;> exact ⟨rfl, rfl, rfl, rfl, rfl⟩

theorem SameCall.seen (r : Regs) (status : CommandState) (val : Word) (sub : Sub) :
    SameCall r (r.seen status val sub) := by
  cases sub <;> exact ⟨rfl, rfl, rfl, rfl, rfl⟩

/-- A plain instruction leads to the code after it, possibly with another plain instruction before. -/
theorem exec_plain {t : Tid n} {exited : Bool} {sh sh' : Shared n} {r : Regs} {rest : List Instr} {i : Instr}
    {env : Env} {a : Api} (hi : i.isPlain = true) (h : exec t exited sh r rest i env = some (sh', a)) :
    SameCall r a.regs ∧ (a.code = rest ∨ ∃ j : Instr, j.isPlain = true ∧ a.code = j :: rest) := by
  have hsame : SameCall r r := ⟨rfl, rfl, rfl, rfl, rfl⟩
  cases i with
  | isAlive | issue | remInsert | setNowait | lockSubmit | unlockSubmit | reqBlockBegin | reqBlockEnd
  | pushRequest | newpeerSend => cases hi
  | notifyAll | peekResult | syncReturn | terminate | setExit =>
    cases env <;> cases h
    exact ⟨hsame, .inl rfl⟩
  | clearPrev | unlockCtx =>
    cases env <;> cases h
    exact ⟨⟨rfl, rfl, rfl, rfl, rfl⟩, .inl rfl⟩
  | save sub =>
    cases env <;> cases h
    exact ⟨.save r sub, .inl rfl⟩
  | finPeek sub id =>
    cases env <;> cases h
    exact ⟨.seen r _ _ sub, .inl rfl⟩
  | waitNotify id =>
    cases env <;> cases h
    exact ⟨hsame, .inr ⟨_, rfl, rfl⟩⟩
  | progress | peekTry | waitTry | waitPeek | waitCheck | syncWait =>
    cases env with
    | tau =>
      simp only [exec] at h
      split at h <;> cases h <;> first | exact ⟨hsame, .inl rfl⟩ | exact ⟨hsame, .inr ⟨_, rfl, rfl⟩⟩
    | _ => cases h
  | progressTry | waitErase | join =>
    cases env with
    | tau =>
      simp only [exec] at h
      split at h <;> cases h <;> exact ⟨hsame, .inl rfl⟩
    | _ => cases h
  | lockCtx =>
    cases env with
    | tau =>
      simp only [exec] at h
      split at h <;> cases h
      exact ⟨⟨rfl, rfl, rfl, rfl, rfl⟩, .inl rfl⟩
    | _ => cases h
  | newpeerWait =>
    cases env with
    | tau =>
      simp only [exec] at h
      split at h <;> cases h
      exact ⟨hsame, .inl rfl⟩
    | timeout => cases h; exact ⟨hsame, .inl rfl⟩
    | _ => cases h
  | waitCompletion id =>
    cases env with
    | tau =>
      simp only [exec, Option.map_eq_some_iff, Prod.exists] at h
      obtain ⟨c, q, -, heq⟩ := h
      cases heq
      exact ⟨hsame, .inr ⟨_, rfl, rfl⟩⟩
    | _ => cases h

/-- The shape of a thread in a call. -/
structure Api.Shaped (a : Api) : Prop where
  code : Aveo.Shaped a.regs.held a.regs.guards a.code
  req : ∀ cmd, a.regs.cur = some cmd → cmd.msgid = a.regs.req
  pass : a.phase ≠ .run → a.regs.cur = none

/-- A thread that holds no command and has the code shaped for it. -/
theorem Api.Shaped.of_none {a : Api} (hcur : a.regs.cur = none) (hcode : Aveo.Shaped .none a.regs.guards a.code) :
    a.Shaped :=
  ⟨by rwa [Regs.held_eq_none.mpr hcur], fun cmd hcmd => (nomatch hcur.symm.trans hcmd), fun _ => hcur⟩

theorem shaped_exec {t : Tid n} {exited : Bool} {sh sh' : Shared n} {r : Regs} {rest : List Instr} {i : Instr}
    {env : Env} {a : Api} (hs : Shaped r.held r.guards (i :: rest)) (hreq : ∀ cmd, r.cur = some cmd → cmd.msgid = r.req)
    (h : exec t exited sh r rest i env = some (sh', a)) : a.Shaped := by
  have hrun : ∀ {x : Phase}, x = .run → x ≠ .run → a.regs.cur = none := fun hx hne => absurd hx hne
  generalize hc : r.held = c at hs
  generalize hg : r.guards = g at hs
  cases hs with
  | plain hi hrest =>
    obtain ⟨hsame, hcode⟩ := exec_plain hi h
    refine .of_none (hsame.cur.trans (Regs.held_eq_none.mp hc)) ?_
    rw [hsame.guards, hg]
    rcases hcode with hcode | ⟨j, hj, hcode⟩
    · rwa [hcode]
    · rw [hcode]
      exact .plain hj hrest
  | isAlive hrest hskip =>
    have hnone := Regs.held_eq_none.mp hc
    cases env with
    | tau =>
      simp only [exec] at h
      split at h <;> cases h <;> exact .of_none hnone (by simpa [hg])
    | exited => cases h; exact .of_none hnone (by simpa [hg])
    | _ => cases h
  | issue hrest =>
    cases env with
    | tau =>
      simp only [exec] at h
      split at h <;> cases h
      exact ⟨by simpa [Regs.held, Command.new, hg], fun cmd hcmd => by cases hcmd; rfl, hrun rfl⟩
    | _ => cases h
  | remInsert hrest =>
    cases env <;> cases h
    refine ⟨?_, hreq, hrun rfl⟩
    have hheld : ({ r with listed := true } : Regs).held = .listed := by
      revert hc
      unfold Regs.held
      cases hcur : r.cur with
      | none => exact fun h => by cases h
      | some cmd =>
        cases hnw : cmd.nowait with
        | true => simp [hnw]
        | false => simp [hnw]
    rw [hheld]
    simpa [hg]
  | setNowait hrest =>
    cases env with
    | tau =>
      simp only [exec, Option.map_eq_some_iff] at h
      obtain ⟨cmd, hcmd, heq⟩ := h
      cases heq
      exact ⟨by simpa [Regs.held, Command.setNowaitFlag, hg], fun c hcur => by cases hcur; exact hreq cmd hcmd, hrun rfl⟩
    | _ => cases h
  | lockSubmit hrest | unlockSubmit hrest =>
    cases env with
    | tau =>
      simp only [exec, Option.map_eq_some_iff] at h
      obtain ⟨m, -, heq⟩ := h
      cases heq
      refine ⟨?_, hreq, hrun rfl⟩
      change Shaped r.held _ rest
      rw [hc]
      simpa [hg]
    | _ => cases h
  | reqBlockBegin | reqBlockEnd =>
    cases env with
    | tau =>
      simp only [exec, Option.map_eq_some_iff] at h
      obtain ⟨m, -, heq⟩ := h
      cases heq
      exact .of_none (Regs.held_eq_none.mp hc) (by simpa [hg] using .nil)
    | _ => cases h
  | pushRequest _ hrest =>
    cases env with
    | tau =>
      simp only [exec, Option.map_eq_some_iff] at h
      obtain ⟨cmd, -, heq⟩ := h
      cases heq
      exact .of_none rfl (by simpa [hg])
    | _ => cases h
  | newpeerSend hrest hskip =>
    have hnone := Regs.held_eq_none.mp hc
    cases env with
    | sent req =>
      simp only [exec] at h
      split at h <;> cases h
      exact .of_none hnone (by simpa [hg])
    | refused => cases h; exact .of_none hnone (by simpa [hg] using hskip)
    | _ => cases h

end Aveo

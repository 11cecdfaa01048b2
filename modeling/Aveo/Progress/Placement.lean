import Aveo.Progress.Retrieval

/-!
# Where instructions stand in the code of calls

What is known of the code behind an instruction: which requests no call returns, which request a fragment will find in
`prev`, and that the return of `synchronize` is reached only from its wait. The code of every call is placed so at its
start, and every step keeps it.
-/

namespace Aveo

open Lib

variable {n : Nat}

/-- A fragment is issued before `prev` is cleared, so that its result function will look for the request in `prev`. -/
def exposed : List Instr → Bool
  | [] => false
  | .issue .sendBuff _ :: _ | .issue .recvBuff _ :: _ => true
  | .clearPrev :: _ => false
  | _ :: rest => exposed rest

/-- The request at hand is kept as a sub-request before another one is issued. -/
def saves : List Instr → Bool
  | [] => false
  | .issue _ _ :: _ => false
  | .save _ :: _ => true
  | _ :: rest => saves rest

namespace Build

/-- The commands of fragments. -/
def isBuff : Build → Bool
  | .sendBuff | .recvBuff => true
  | _ => false

/-- The commands of fragments and sub-requests. -/
def isSub : Build → Bool
  | .simpleCall | .sendBuff | .recvBuff | .emptyTransfer => true
  | _ => false

end Build

namespace Instr

def isIssue : Instr → Bool
  | .issue _ _ => true
  | _ => false

/-- The command whose request an instruction is about, if it is always the same. -/
def about : Instr → Option Build
  | .syncWait | .syncReturn => some .synchronizeFunc
  | .setNowait => some .generic
  | _ => none

/-- The instruction may be about a request of this command. -/
def fits (b : Build) (i : Instr) : Bool := i.about = none || i.about = some b

end Instr

/-- The code does not begin with the return of `synchronize`, which is reached only from the wait before it. -/
def enterable : List Instr → Bool
  | .syncReturn :: _ => false
  | _ => true

/-- What may stand behind a request: the next fragment finds it in `prev` only if it is a fragment that no call returns,
what is about a request of one command is not reached with another, nothing is issued behind the finaliser, and something
is issued behind a request that no call returns. -/
def placedIssue (b : Build) (kept : Bool) (rest : List Instr) : Bool :=
  (!exposed rest || kept && b.isBuff) && rest.all (Instr.fits b) &&
    (b ≠ .finaliser || !rest.any Instr.isIssue) && if kept then b.isSub && rest.any Instr.isIssue else !saves rest

def placedAt : Instr → List Instr → Bool
  | .issue b kept, rest => enterable rest && placedIssue b kept rest
  | .save _, rest => enterable rest && !exposed rest && !saves rest
  | .isAlive k, rest => enterable rest && enterable (rest.drop k) && (!exposed (rest.drop k) || exposed rest)
  | .newpeerSend, .newpeerWait :: rest => enterable rest
  | .newpeerSend, _ => false
  | .syncWait, _ | .waitTry _, _ | .waitPeek _, _ | .waitNotify _, _ | .waitCheck _, _ | .waitCompletion _, _
  | .waitErase _ _, _ => true
  | _, rest => enterable rest

/-- Every instruction of the code stands where it may. -/
def placed : List Instr → Bool
  | [] => true
  | i :: rest => placedAt i rest && placed rest

theorem placed_cons {i : Instr} {rest : List Instr} (h : placed (i :: rest) = true) :
    placedAt i rest = true ∧ placed rest = true := Bool.and_eq_true_iff.mp h

theorem placed_drop {code : List Instr} (h : placed code = true) (k : Nat) : placed (code.drop k) = true := by
  induction k generalizing code with
  | zero => exact h
  | succ k ih =>
    cases code with
    | nil => rfl
    | cons i rest => exact ih (placed_cons h).2

theorem Instr.Follows.placedAt {r : Regs} {i j : Instr} {rest : List Instr} (h : i.Follows r j) (hi : placedAt i rest = true) :
    Aveo.placedAt j rest = true := by
  cases h <;> first | rfl | exact hi

theorem Instr.Next.placed {r : Regs} {i : Instr} {rest code : List Instr} (h : i.Next r rest code)
    (hplaced : placed (i :: rest) = true) : Aveo.placed code = true := by
  obtain ⟨hi, hrest⟩ := placed_cons hplaced
  cases h with
  | next => exact hrest
  | dead | refused => exact placed_drop hrest _
  | follows hf => exact Bool.and_eq_true_iff.mpr ⟨hf.placedAt hi, hrest⟩

/-! ### What is left after an instruction -/

theorem Instr.Follows.about {r : Regs} {i j : Instr} (h : i.Follows r j) : j.about = none := by
  cases h <;> rfl

theorem Instr.Follows.isIssue {r : Regs} {i j : Instr} (h : i.Follows r j) : j.isIssue = false := by
  cases h <;> rfl

theorem Instr.Next.mem_rest {r : Regs} {i j : Instr} {rest code : List Instr} (h : i.Next r rest code) (hj : j ∈ code)
    (hne : j.about ≠ none) : j ∈ rest := by
  cases h with
  | next => exact hj
  | dead | refused => exact List.mem_of_mem_drop hj
  | follows hf =>
    refine (List.mem_cons.mp hj).resolve_left ?_
    rintro rfl
    exact hne hf.about

theorem exposed_cons {i : Instr} (hi : i.isIssue = false) (hne : i ≠ .clearPrev) (rest : List Instr) :
    exposed (i :: rest) = exposed rest := by
  cases i <;> first | rfl | exact absurd rfl hne | cases hi

theorem saves_cons {i : Instr} (hi : i.isIssue = false) {rest : List Instr} (h : saves rest = true) :
    saves (i :: rest) = true := by
  cases i <;> first | exact h | rfl | cases hi

theorem drop_newpeerWait {rest : List Instr} (h : placedAt .newpeerSend rest = true) :
    ∃ rest', rest = .newpeerWait :: rest' := by
  unfold placedAt at h
  split at h <;> simp_all

theorem Instr.Next.exposed {r : Regs} {i : Instr} {rest code : List Instr} (h : i.Next r rest code)
    (hplaced : placedAt i rest = true) (hlive : ∀ k, i = .isAlive k → code = rest) (hi : i.isIssue = false)
    (hne : i ≠ .clearPrev) : Aveo.exposed code = Aveo.exposed (i :: rest) := by
  cases h with
  | next => exact (exposed_cons hi hne rest).symm
  | dead hk =>
    rw [hlive _ hk]
    exact (exposed_cons hi hne rest).symm
  | refused hk =>
    subst hk
    obtain ⟨rest', rfl⟩ := drop_newpeerWait hplaced
    rfl
  | follows hf => cases hf <;> rfl

theorem Instr.Next.saves {r : Regs} {i : Instr} {rest code : List Instr} (h : i.Next r rest code)
    (hplaced : placedAt i rest = true) (hlive : ∀ k, i = .isAlive k → code = rest) (hi : i.isIssue = false)
    (hsaves : Aveo.saves code = true) : Aveo.saves (i :: rest) = true := by
  cases h with
  | next => exact saves_cons hi hsaves
  | dead hk =>
    rw [hlive _ hk] at hsaves
    exact saves_cons hi hsaves
  | refused hk =>
    subst hk
    obtain ⟨rest', rfl⟩ := drop_newpeerWait hplaced
    exact hsaves
  | follows hf => cases hf <;> exact hsaves

/-- The code of destructors submits nothing. -/
theorem unwind_calm (r : Regs) :
    exposed (Api.unwind r) = false ∧ saves (Api.unwind r) = false ∧ (Api.unwind r).all (·.about = none) = true ∧
      (Api.unwind r).any Instr.isIssue = false := by
  unfold Api.unwind
  induction r.guards with
  | zero => cases r.ctxGuard <;> exact ⟨rfl, rfl, rfl, rfl⟩
  | succ g ih => exact ih

theorem vhCode_calm (c : Closure) :
    exposed (vhCode c) = false ∧ saves (vhCode c) = false ∧ (vhCode c).all (·.about = none) = true ∧
      (vhCode c).any Instr.isIssue = false := by
  cases c with
  | finaliser w c r =>
    rw [vhCode]
    split <;> split <;> split <;> exact ⟨rfl, rfl, rfl, rfl⟩
  | _ => exact ⟨rfl, rfl, rfl, rfl⟩

/-! ### The code of the calls -/

/-- What may stand behind a transfer. -/
structure Tail (kept : Bool) (rest : List Instr) : Prop where
  placed : placed rest = true
  enterable : enterable rest = true
  exposed : exposed rest = false
  about : rest.all (·.about = none) = true
  saves : kept = false → saves rest = false
  issue : kept = true → rest.any Instr.isIssue = true

theorem Tail.cons {kept : Bool} {rest : List Instr} (h : Tail kept rest) {i : Instr} (hi : i = .notifyAll ∨ i = .progress) :
    Tail kept (i :: rest) := by
  rcases hi with rfl | rfl <;>
    exact ⟨Bool.and_eq_true_iff.mpr ⟨h.enterable, h.placed⟩, rfl, h.exposed, h.about, h.saves, h.issue⟩

/-- A sub-request is kept behind its transfer or call. -/
theorem Tail.save {rest : List Instr} (h : Tail true rest) (hsaves : Aveo.saves rest = false) (sub : Sub) :
    Tail true (.save sub :: rest) := by
  refine ⟨?_, rfl, h.exposed, h.about, nofun, h.issue⟩
  simp only [Aveo.placed, placedAt, h.enterable, h.exposed, hsaves, h.placed, Bool.not_false, Bool.and_self]

theorem all_fits {rest : List Instr} (h : rest.all (·.about = none) = true) (b : Build) : rest.all (Instr.fits b) = true :=
  List.all_eq_true.mpr fun i hi => Bool.or_eq_true_iff.mpr (.inl (List.all_eq_true.mp h i hi))

theorem Tail.placedIssue {kept : Bool} {rest : List Instr} (h : Tail kept rest) {b : Build} (hb : b.isSub = true) :
    placedIssue b kept rest = true := by
  have hfin : b ≠ .finaliser := by
    rintro rfl
    cases hb
  cases kept with
  | true => simp [Aveo.placedIssue, h.exposed, all_fits h.about, h.issue rfl, hfin, hb]
  | false => simp [Aveo.placedIssue, h.exposed, all_fits h.about, h.saves rfl, hfin]

theorem placed_ifAlive {body rest : List Instr} (h : placed (body ++ rest) = true) (hentry : enterable (body ++ rest) = true)
    (hrest : enterable rest = true) (hexp : exposed rest = false) : placed (ifAlive body ++ rest) = true := by
  have hdrop : (body ++ rest).drop body.length = rest := List.drop_left
  refine Bool.and_eq_true_iff.mpr ⟨?_, h⟩
  simp only [List.append_eq, placedAt, hdrop, hentry, hrest, hexp, Bool.not_false, Bool.true_or, Bool.and_self]

theorem placed_issueAndPush {b : Build} {kept : Bool} {rest : List Instr} (h : placed rest = true)
    (hentry : enterable rest = true) (hissue : placedIssue b kept rest = true) :
    placed (issueAndPush b kept ++ rest) = true := by
  have hat : placedAt (.issue b kept) (.remInsert :: .lockSubmit :: .pushRequest :: .unlockSubmit :: rest) = true := by
    change (true && placedIssue b kept rest) = true
    rw [hissue]
    rfl
  have hunlock : placed (.unlockSubmit :: rest) = true := Bool.and_eq_true_iff.mpr ⟨hentry, h⟩
  exact Bool.and_eq_true_iff.mpr ⟨hat, hunlock⟩

theorem about_fragments (b : Build) (kept : Bool) (k : Nat) : (fragments b kept k).all (·.about = none) = true := by
  induction k with
  | zero => rfl
  | succ k ih => exact ih

theorem about_asyncMem (b : Build) (kept : Bool) (k : Nat) : (asyncMem b kept k).all (·.about = none) = true := by
  cases k with
  | zero => rfl
  | succ k => exact about_fragments b kept k

/-- The fragments that follow one, and what stands behind them. -/
theorem placedIssue_fragments {b : Build} (hb : b.isBuff = true) (kept : Bool) (k : Nat) {rest : List Instr}
    (h : Tail kept rest) : placedIssue b (kept || k ≠ 0) (fragments b kept k ++ rest) = true := by
  have hsub : b.isSub = true := by cases b <;> first | rfl | cases hb
  cases k with
  | zero =>
    have hkept : (kept || decide ((0 : Nat) ≠ 0)) = kept := by simp
    rw [hkept]
    exact (h.cons (.inl rfl)).placedIssue hsub
  | succ k =>
    have hfin : b ≠ .finaliser := by
      rintro rfl
      cases hb
    have habout : (fragments b kept (k + 1) ++ rest).all (·.about = none) = true := by
      rw [List.all_append, about_fragments b kept (k + 1), h.about]
      rfl
    have hissue : (fragments b kept (k + 1) ++ rest).any Instr.isIssue = true := rfl
    simp [placedIssue, all_fits habout, hissue, hb, hsub, hfin]

theorem placed_fragments {b : Build} (hb : b.isBuff = true) (kept : Bool) (k : Nat) {rest : List Instr} (h : Tail kept rest) :
    placed (fragments b kept k ++ rest) = true ∧ enterable (fragments b kept k ++ rest) = true := by
  induction k with
  | zero => exact ⟨(h.cons (.inl rfl)).placed, rfl⟩
  | succ k ih =>
    refine ⟨?_, rfl⟩
    have hbody := placed_issueAndPush ih.1 ih.2 (placedIssue_fragments hb kept k h)
    rw [fragments]
    refine placed_ifAlive ?_ rfl h.enterable h.exposed
    rwa [List.append_assoc]

theorem placed_asyncMem {b : Build} (hb : b.isBuff = true) (kept : Bool) (k : Nat) {rest : List Instr}
    (h : Tail kept rest) : placed (asyncMem b kept k ++ rest) = true := by
  cases k with
  | zero =>
    have htail := h.cons (.inl rfl)
    refine placed_ifAlive ?_ rfl h.enterable h.exposed
    rw [List.append_assoc]
    exact placed_issueAndPush htail.placed htail.enterable (htail.placedIssue rfl)
  | succ k =>
    obtain ⟨hplaced, hentry⟩ := placed_fragments hb kept k h
    have hprogress : placed (.progress :: (fragments b kept k ++ rest)) = true :=
      Bool.and_eq_true_iff.mpr ⟨hentry, hplaced⟩
    have hbody := placed_issueAndPush hprogress rfl (placedIssue_fragments hb kept k h)
    refine placed_ifAlive (Bool.and_eq_true_iff.mpr ⟨rfl, ?_⟩) rfl h.enterable h.exposed
    refine placed_ifAlive ?_ rfl h.enterable h.exposed
    rwa [List.append_assoc]

/-- A transfer may stand behind a request that no call returns. -/
theorem tail_asyncMem {b : Build} (hb : b.isBuff = true) (k : Nat) {rest : List Instr} (h : Tail true rest) :
    Tail true (asyncMem b true k ++ rest) := by
  refine ⟨placed_asyncMem hb true k h, ?_, ?_, ?_, nofun, fun _ => ?_⟩
  · cases k <;> rfl
  · cases k with
    | zero => exact h.exposed
    | succ k => rfl
  · rw [List.all_append, about_asyncMem, h.about]
    rfl
  · rw [List.any_append, h.issue rfl, Bool.or_true]

theorem saves_asyncMem (b : Build) (kept : Bool) (k : Nat) (rest : List Instr) : saves (asyncMem b kept k ++ rest) = false := by
  cases k <;> rfl

theorem tail_simpleCallAsync {rest : List Instr} (h : Tail true rest) : Tail true (simpleCallAsync true ++ rest) := by
  have hend := (h.cons (.inl rfl)).cons (.inr rfl)
  refine ⟨placed_ifAlive ?_ rfl h.enterable h.exposed, rfl, h.exposed, h.about, nofun, fun _ => rfl⟩
  rw [List.append_assoc]
  exact placed_issueAndPush hend.placed hend.enterable (hend.placedIssue rfl)

/-- A transfer of the tail of the stack image, if there is one. -/
theorem tail_transfer {b : Build} (hb : b.isBuff = true) (copy : Bool) (k : Nat) (sub : Sub) {rest : List Instr} (h : Tail true rest)
    (hsaves : saves rest = false) :
    Tail true ((if copy then asyncMem b true k ++ [.save sub] else []) ++ rest) ∧
      saves ((if copy then asyncMem b true k ++ [.save sub] else []) ++ rest) = false := by
  cases copy with
  | false => exact ⟨h, hsaves⟩
  | true =>
    rw [if_pos rfl, List.append_assoc]
    exact ⟨tail_asyncMem hb k (h.save hsaves sub), saves_asyncMem _ _ _ _⟩

theorem placed_largeCallAsync (copyin copyout : Bool) (w r : Nat) :
    placed (largeCallAsync copyin copyout w r) = true := by
  have hfin : Tail true [.issue .finaliser false, .remInsert, .pushRequest, .progress, .notifyAll, .unlockSubmit] :=
    ⟨rfl, rfl, rfl, rfl, nofun, fun _ => rfl⟩
  obtain ⟨hread, hsaves⟩ := tail_transfer (b := .recvBuff) rfl copyout r .read hfin rfl
  have hcall := tail_simpleCallAsync (hread.save hsaves .call)
  obtain ⟨hwrite, -⟩ := tail_transfer (b := .sendBuff) rfl copyin w .write hcall rfl
  simp only [largeCallAsync, List.append_assoc]
  exact Bool.and_eq_true_iff.mpr ⟨hwrite.enterable, hwrite.placed⟩

theorem placed_code (c : Call) : placed c.code = true := by
  have htail : Tail false [] := ⟨rfl, rfl, rfl, rfl, fun _ => rfl, nofun⟩
  cases c with
  | largeCallAsync copyin copyout w r =>
    have h := @placed_ifAlive _ [] (by rw [List.append_nil]; exact placed_largeCallAsync copyin copyout w r) rfl rfl rfl
    rwa [List.append_nil] at h
  | asyncWriteMem k | asyncReadMem k =>
    rw [← List.append_nil (Call.code _)]
    exact placed_asyncMem rfl false k htail
  | genericAsyncReq nowait => cases nowait <;> rfl
  | _ => rfl

theorem placed_vhCode (c : Closure) : placed (vhCode c) = true := by
  cases c with
  | finaliser w c r =>
    rw [vhCode]
    split <;> split <;> split <;> rfl
  | _ => rfl

theorem placed_unwind (r : Regs) : placed (Api.unwind r) = true := by
  unfold Api.unwind
  induction r.guards with
  | zero => cases r.ctxGuard <;> rfl
  | succ g ih =>
    refine Bool.and_eq_true_iff.mpr ⟨?_, ih⟩
    cases g with
    | zero => cases r.ctxGuard <;> rfl
    | succ g => rfl

/-- The code of every thread is placed. -/
theorem placed_of_reachable {C : Machine.Cond (State n) (Label n)} {s : State n} (h : (context n).Reachable C s) (t : Tid n) :
    placed (s.api t).code = true := by
  refine h.invariant (I := fun s => ∀ t, placed (s.api t).code = true) ?_ (fun s l s' _ hstep _ hs t => ?_) t
  · rintro s rfl t
    rfl
  · cases threadStep hstep t with
    | same hcode => rw [hcode]; exact hs t
    | exec hl hphase hcode hexec =>
      have hold := hs t
      rw [hcode] at hold
      exact (exec_code hexec).placed hold
    | resumed hphase hcode => rcases hcode with hcode | hcode <;> rw [hcode] <;> exact hs t
    | called hl hcode => rw [hcode]; exact placed_code _
    | unwound hcode => rw [hcode]; exact placed_unwind _
    | vh hu hmain hcode => rw [hcode]; exact placed_vhCode _

end Aveo

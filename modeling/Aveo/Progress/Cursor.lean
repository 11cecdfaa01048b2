import Aveo.Progress.Exclusion

/-!
# The pass that is going on

Since passes exclude each other there is at most one at any time, and the owner of `prog_mtx` is the
thread that makes it. `cursor` is where that pass is. `CursorStep` says how it moves together with the
shared state, whichever thread takes the step.
-/

namespace Aveo

open Lib

variable {n : Nat}

/-- Where a pass is after a step, if it is not over. -/
def PassOut.passPc : PassOut → Option PassPc
  | .next p => some p
  | _ => none

/-- The VH function that a step of a pass starts. -/
def PassOut.vhCmd : PassOut → Option Command
  | .startVH cmd => some cmd
  | _ => none

namespace State

variable {s s' : State n}

/-- The pass of the thread that owns `prog_mtx`. -/
def cursor (s : State n) : Option PassPc :=
  match s.sh.progMtx with
  | none => none
  | some (t, _) => s.passOf t

/-- No pass runs at the start. -/
theorem cursor_new_ne (p : PassPc) : (State.new n).cursor ≠ some p := by
  have hnone : (State.new n).cursor = none := rfl
  rw [hnone]
  exact (Option.some_ne_none p).symm

theorem cursor_of_passOf (h : Basic s) {t : Tid n} {p : PassPc} (hp : s.passOf t = some p) :
    s.cursor = some p := by
  have hdepth := depth_of_passOf h hp
  unfold cursor
  cases hm : s.sh.progMtx with
  | none => simp [hm] at hdepth
  | some o =>
    have ho : o.1 = t := by
      by_contra hne
      rw [hm, RecMutex.depth, if_neg hne] at hdepth
      exact Nat.lt_irrefl 0 hdepth
    rw [← ho] at hp
    exact hp

theorem passOf_of_cursor {p : PassPc} (hp : s.cursor = some p) : ∃ t, s.passOf t = some p := by
  unfold cursor at hp
  split at hp
  · cases hp
  · exact ⟨_, hp⟩

theorem cursor_eq_none (h : ∀ t, s.passOf t = none) : s.cursor = none := by
  unfold cursor
  split
  · rfl
  · exact h _

theorem passOf_eq_none_of_cursor (h : Basic s) (hc : s.cursor = none) (t : Tid n) : s.passOf t = none := by
  by_contra hne
  obtain ⟨p, hp⟩ := Option.ne_none_iff_exists'.mp hne
  rw [cursor_of_passOf h hp] at hc
  cases hc

/-- Two states whose threads are in the same passes have the same cursor. -/
theorem cursor_eq_of_passOf (h : Basic s) (h' : Basic s') (heq : ∀ t, s'.passOf t = s.passOf t) :
    s'.cursor = s.cursor := by
  cases hc : s.cursor with
  | none => exact cursor_eq_none fun t => (heq t).trans (passOf_eq_none_of_cursor h hc t)
  | some p =>
    obtain ⟨t, hp⟩ := passOf_of_cursor hc
    exact cursor_of_passOf h' ((heq t).trans hp)

/-- The cursor after a thread, which was in the only pass or took the mutex, moved its pass. -/
theorem cursor_eq_of_thread (h' : Basic s') {t : Tid n} {o : Option PassPc} (hself : s'.passOf t = o)
    (hother : ∀ u, u ≠ t → s'.passOf u = none) : s'.cursor = o := by
  cases o with
  | some p => exact cursor_of_passOf h' hself
  | none =>
    refine cursor_eq_none fun u => ?_
    by_cases hu : u = t
    · rw [hu, hself]
    · exact hother u hu

theorem passOf_setApi_ne {sh : Shared n} {t u : Tid n} {a : Api} (hu : u ≠ t) :
    (({ s with sh := sh } : State n).setApi t a).passOf u = s.passOf u := by
  cases u with
  | none => simp only [passOf, setApi_main, setApi_api_ne _ _ hu]
  | some i => simp only [passOf, setApi_api_ne _ _ hu]

/-- The pass of a thread in a call is the pass that the call makes. -/
theorem passOf_setApi_self (sh : Shared n) {t : Tid n} {a : Api} (ht : t ≠ none ∨ s.main.isVH = true) :
    (({ s with sh := sh } : State n).setApi t a).passOf t = a.phase.passPc := by
  cases t with
  | some i => simp only [passOf, setApi_api_self]
  | none =>
    have hvh : s.main.isVH = true := ht.resolve_left fun hne => hne rfl
    have hmain : s.main.passPc = none := by
      revert hvh
      cases s.main <;> simp [Main.isVH, Main.passPc]
    simp only [passOf, setApi_api_self, setApi_main, hmain, Option.none_or]

theorem passOf_of_busy (h : Basic s) {t : Tid n} (hbusy : ¬((s.api t).phase = .run ∧ (s.api t).code = [])) :
    s.passOf t = (s.api t).phase.passPc := by
  have hself := passOf_setApi_self (s := s) s.sh (a := s.api t) (h.isVH_of_busy hbusy)
  have heq : ({ s with sh := s.sh } : State n).setApi t (s.api t) = s := by simp [setApi]
  rwa [heq] at hself

/-- While a thread can take `prog_mtx`, no other thread is in a pass. -/
theorem passOf_eq_none_of_depth (h : Basic s) {t u : Tid n} (ht : ∀ v, 0 < s.sh.progMtx.depth v → v = t)
    (hu : u ≠ t) : s.passOf u = none := by
  by_contra hne
  obtain ⟨p, hp⟩ := Option.ne_none_iff_exists'.mp hne
  exact hu (ht u (depth_of_passOf h hp))

/-- While the progress thread is in `progressExec`, no user thread is in a pass. -/
theorem passOf_eq_none_of_main (h : Basic s) (hmain : s.main.holds = 1) {u : Tid n} (hu : u ≠ none) :
    s.passOf u = none := by
  have hdepth : 0 < s.sh.progMtx.depth none := by
    have hle := h.depth none
    simp only [passDepth, hmain, if_true] at hle
    omega
  exact passOf_eq_none_of_depth h (fun v hv => RecMutex.owner_unique hv hdepth) hu

end State

/-- The cursor stays, or a pass begins. -/
def CursorKept (s s' : State n) : Prop := s'.cursor = s.cursor ∨ s.cursor = none ∧ s'.cursor = some .poll

/-- How the cursor and the VH function that runs move together with the shared state. -/
inductive CursorStep (s s' : State n) : Prop
  | pass {x : Bool} {t : Tid n} {p : PassPc} {env : Env} {sh : Shared n} {out : PassOut} {b : Bool}
      (hp : s.cursor = some p) (h : passStep x t s.sh p env = some (sh, out)) (hsh : s'.sh = { sh with terminated := b })
      (hcur : s'.cursor = out.passPc ∨ out = .throws ∧ s'.cursor = s.cursor)
      (hvh : s'.main.vhCmd = out.vhCmd.or s.main.vhCmd) (hx : x = true → s.main.vhCmd = none)
  | vhReturn {cmd cmd' : Command} (hmain : s.main = .vh cmd) (hcmd : SameCommand cmd cmd')
      (hsh : s'.sh = s.sh.emit (.vhReturn cmd.msgid)) (hcur : s.cursor = none) (hcur' : s'.cursor = some (.executed cmd'))
      (hvh : s'.main.vhCmd = none) (hidle : (s.api none).code = []) (hres : ∃ val, cmd' = vhResult cmd (s.api none).regs val)
  | exec {t : Tid n} {exited : Bool} {env : Env} {i : Instr} {rest : List Instr} {a : Api}
      (hcode : (s.api t).code = i :: rest) (h : ExecEffect t s.sh (s.api t).regs i s'.sh a) (hapi : s'.api t = a)
      (hcur : CursorKept s s') (hvh : s'.main.vhCmd = s.main.vhCmd)
      (hexec : exec t exited s.sh (s.api t).regs rest i env = some (s'.sh, a)) (hphase : (s.api t).phase = .run)
  | quiet {m : RecMutex (Tid n)} {c : CondWait} (h : Quiet { s.sh with progMtx := m } s'.sh) (hcur : CursorKept s s')
      (hvh : s'.main.vhCmd = s.main.vhCmd)
      (hsh : s'.sh = { s.sh with progMtx := m, comq := { s.sh.comq with reqFliCond := c } })

theorem sameCommand_vhResult (cmd : Command) (r : Regs) (val : Word) : SameCommand cmd (vhResult cmd r val) := by
  unfold vhResult
  split <;> exact ⟨rfl, rfl, rfl⟩

open State

/-- The cursor after an instruction. -/
theorem cursorKept_exec {s : State n} {t : Tid n} {i : Instr} {sh : Shared n} {a : Api} (h : Basic s)
    (h' : Basic (({ s with sh := sh } : State n).setApi t a)) (hphase : (s.api t).phase = .run)
    (hbusy : (s.api t).code ≠ []) (heff : ExecEffect t s.sh (s.api t).regs i sh a) :
    CursorKept s (({ s with sh := sh } : State n).setApi t a) := by
  have hbusy' : ¬((s.api t).phase = .run ∧ (s.api t).code = []) := fun hidle => hbusy hidle.2
  have hold : s.passOf t = none := by
    rw [passOf_of_busy h hbusy', hphase]
    rfl
  have hnew : ∀ {ph : Phase} {code : List Instr} {r : Regs}, a = ⟨ph, code, r⟩ →
      (({ s with sh := sh } : State n).setApi t a).passOf t = ph.passPc := by
    intro ph code r ha
    rw [passOf_setApi_self sh (h.isVH_of_busy hbusy'), ha]
  have hrun : a.phase = .run → CursorKept s (({ s with sh := sh } : State n).setApi t a) := by
    intro hrun
    refine .inl (cursor_eq_of_passOf h h' fun u => ?_)
    by_cases hu : u = t
    · rw [hu, hold, passOf_setApi_self sh (h.isVH_of_busy hbusy'), hrun]
      rfl
    · exact passOf_setApi_ne hu
  cases heff with
  | quiet | issue | nowait | push | take => exact hrun rfl
  | lock hlock =>
    have hnone : ∀ u, u ≠ t → s.passOf u = none := fun u hu =>
      passOf_eq_none_of_depth h (fun v hv => RecMutex.depth_pos_of_tryLock hlock hv) hu
    refine .inr ⟨?_, cursor_eq_of_thread h' (t := t) (hnew rfl) fun u hu => ?_⟩
    · refine cursor_eq_none fun u => ?_
      by_cases hu : u = t
      · rw [hu, hold]
      · exact hnone u hu
    · rw [passOf_setApi_ne hu]
      exact hnone u hu

/-- The cursor after a step of a pass that a call makes. -/
theorem cursor_apiPass {s : State n} {t : Tid n} {p : PassPc} {k : After} {uncaught : Bool} {sh sh' : Shared n}
    {out : PassOut} {a : Api} (h : Basic s) (h' : Basic (({ s with sh := sh' } : State n).setApi t a))
    (hphase : (s.api t).phase = .inPass p k) (hout : (s.api t).afterPass t k uncaught sh out = some (sh', a)) :
    s.cursor = some p ∧ (∃ b, sh' = { sh with terminated := b }) ∧
      ((({ s with sh := sh' } : State n).setApi t a).cursor = out.passPc ∨
        out = .throws ∧ (({ s with sh := sh' } : State n).setApi t a).cursor = s.cursor) := by
  have hbusy : ¬((s.api t).phase = .run ∧ (s.api t).code = []) := by simp [hphase]
  have hold : s.passOf t = some p := by
    rw [passOf_of_busy h hbusy, hphase]
    rfl
  have hother : ∀ u, u ≠ t → (({ s with sh := sh' } : State n).setApi t a).passOf u = none := by
    intro u hu
    rw [passOf_setApi_ne hu]
    by_contra hne
    obtain ⟨p', hp'⟩ := Option.ne_none_iff_exists'.mp hne
    exact hu (passOf_unique h hp' hold)
  have hcur : (({ s with sh := sh' } : State n).setApi t a).cursor = a.phase.passPc :=
    cursor_eq_of_thread h' (passOf_setApi_self sh' (h.isVH_of_busy hbusy)) hother
  refine ⟨cursor_of_passOf h hold, ?_, ?_⟩
  · cases out with
    | next | ret => cases hout; exact ⟨sh.terminated, rfl⟩
    | startVH => cases hout
    | throws =>
      simp only [Api.afterPass] at hout
      split at hout <;> cases hout
      · exact ⟨true, rfl⟩
      · exact ⟨sh.terminated, rfl⟩
  · rw [hcur]
    cases out with
    | next | ret => cases hout; exact .inl rfl
    | startVH => cases hout
    | throws =>
      simp only [Api.afterPass] at hout
      split at hout <;> cases hout
      · rw [cursor_of_passOf h hold, hphase]
        exact .inr ⟨rfl, rfl⟩
      · exact .inl rfl

/-- The passes after a step of the progress thread outside a VH function. -/
theorem passOf_main {s : State n} (sh : Shared n) (main : Main) (h : Basic s) (hmain : s.main.isVH = false) (u : Tid n) :
    ({ s with sh := sh, main := main } : State n).passOf u = if u = none then main.passPc else s.passOf u := by
  cases u with
  | none =>
    have hcalm := (h.calm hmain).1
    simp only [passOf, hcalm, Phase.passPc, Option.or_none, if_true]
  | some i => rfl

theorem passOf_none_main {s : State n} (h : Basic s) (hmain : s.main.isVH = false) :
    s.passOf none = s.main.passPc := by
  have hself := passOf_main s.sh s.main h hmain none
  rwa [if_pos rfl] at hself

theorem cursorKept_main {s : State n} {sh : Shared n} {main : Main} (h : Basic s)
    (h' : Basic ({ s with sh := sh, main := main } : State n)) (hmain : s.main.isVH = false)
    (hpc : main.passPc = s.main.passPc) : CursorKept s { s with sh := sh, main := main } := by
  refine .inl (cursor_eq_of_passOf h h' fun u => ?_)
  rw [passOf_main _ _ h hmain, hpc]
  split
  · rename_i hu
    rw [hu, passOf_none_main h hmain]
  · rfl

/-- The cursor after the test for requests at which a pass of the progress thread begins. -/
theorem cursorKept_execTest {s : State n} {main : Main} (h : Basic s) (h' : Basic ({ s with main := main } : State n))
    (hmain : s.main = .execTest) (hmain' : main = .pass .poll ∨ main = .execUnlock) :
    CursorKept s { s with main := main } := by
  have hvh : s.main.isVH = false := by rw [hmain]; rfl
  rcases hmain' with rfl | rfl
  · have hother : ∀ u, u ≠ none → s.passOf u = none := fun u hu =>
      passOf_eq_none_of_main h (by rw [hmain]; rfl) hu
    refine .inr ⟨cursor_eq_none fun u => ?_, cursor_eq_of_thread h' (t := none) ?_ fun u hu => ?_⟩
    · by_cases hu : u = none
      · rw [hu, passOf_none_main h hvh, hmain]
        rfl
      · exact hother u hu
    · exact (passOf_main s.sh _ h hvh none).trans (if_pos rfl)
    · exact ((passOf_main s.sh _ h hvh u).trans (if_neg hu)).trans (hother u hu)
  · exact cursorKept_main h h' hvh (by rw [hmain]; rfl)

/-- The cursor after a call released `prog_mtx`. -/
theorem cursorKept_unlock {s : State n} {t : Tid n} {rv : Int} {k : After} {sh : Shared n} {code : List Instr} (h : Basic s)
    (h' : Basic (({ s with sh := sh } : State n).setApi t { s.api t with phase := .run, code := code }))
    (hphase : (s.api t).phase = .unlock rv k) :
    CursorKept s (({ s with sh := sh } : State n).setApi t { s.api t with phase := .run, code := code }) := by
  refine .inl (cursor_eq_of_passOf h h' fun u => ?_)
  have hbusy : ¬((s.api t).phase = .run ∧ (s.api t).code = []) := by simp [hphase]
  by_cases hu : u = t
  · rw [hu, passOf_setApi_self _ (h.isVH_of_busy hbusy), passOf_of_busy h hbusy, hphase]
    rfl
  · exact passOf_setApi_ne hu

/-- The cursor after the start of a call. -/
theorem cursorKept_call {s : State n} {t : Tid n} {code : List Instr} {r : Regs} (h : Basic s)
    (h' : Basic (s.setApi t { phase := .run, code := code, regs := r })) (hphase : (s.api t).phase = .run) :
    CursorKept s (s.setApi t { phase := .run, code := code, regs := r }) := by
  refine .inl (cursor_eq_of_passOf h h' fun u => ?_)
  by_cases hu : u = t
  · subst hu
    cases u with
    | none => simp only [State.passOf, setApi_main, setApi_api_self, hphase]
    | some i => simp only [State.passOf, setApi_api_self, hphase]
  · exact passOf_setApi_ne hu

/-- The cursor after a step of the pass of the progress thread. -/
theorem cursor_mainPass {s : State n} {p : PassPc} {sh : Shared n} {out : PassOut} (h : Basic s)
    (h' : Basic (s.afterPass sh out)) (hmain : s.main = .pass p) :
    s.cursor = some p ∧ (∃ b, (s.afterPass sh out).sh = { sh with terminated := b }) ∧
      ((s.afterPass sh out).cursor = out.passPc ∨ out = .throws ∧ (s.afterPass sh out).cursor = s.cursor) := by
  have hvh : s.main.isVH = false := by rw [hmain]; rfl
  have hold : s.passOf none = some p := by
    rw [passOf_none_main h hvh, hmain]
    rfl
  have hother : ∀ u, u ≠ none → s.passOf u = none := fun u hu =>
    passOf_eq_none_of_main h (by rw [hmain]; rfl) hu
  have hmainCur : ∀ {main : Main}, Basic ({ s with sh := sh, main := main } : State n) →
      ({ s with sh := sh, main := main } : State n).cursor = main.passPc := by
    intro main hB
    refine cursor_eq_of_thread hB (t := none) ?_ fun u hu => ?_
    · rw [passOf_main sh main h hvh, if_pos rfl]
    · rw [passOf_main sh main h hvh, if_neg hu]
      exact hother u hu
  refine ⟨cursor_of_passOf h hold, ?_, ?_⟩
  · cases out with
    | next | ret | startVH => exact ⟨sh.terminated, rfl⟩
    | throws => exact ⟨true, rfl⟩
  · cases out with
    | next | ret => exact .inl (hmainCur h')
    | startVH cmd =>
      refine .inl (cursor_eq_none fun u => ?_)
      by_cases hu : u = none
      · subst hu
        exact passOf_setApi_self (s := { s with main := .vh cmd }) sh (.inr rfl)
      · rw [State.afterPass, passOf_setApi_ne (s := { s with main := .vh cmd }) hu]
        cases u with
        | none => exact absurd rfl hu
        | some i => exact hother _ hu
    | throws => exact .inr ⟨rfl, cursor_eq_of_passOf h h' fun _ => rfl⟩

theorem vhCmd_mainPass {s : State n} {p : PassPc} {sh : Shared n} {out : PassOut} (hmain : s.main = .pass p) :
    (s.afterPass sh out).main.vhCmd = out.vhCmd.or s.main.vhCmd := by
  cases out with
  | next | ret | startVH => rw [hmain]; rfl
  | throws => rfl

theorem vhCmd_apiPass {s : State n} {t : Tid n} {k : After} {uncaught : Bool} {sh sh' : Shared n} {out : PassOut} {a : Api}
    (hout : (s.api t).afterPass t k uncaught sh out = some (sh', a)) :
    (({ s with sh := sh' } : State n).setApi t a).main.vhCmd = out.vhCmd.or s.main.vhCmd := by
  cases out with
  | next | ret | throws => rfl
  | startVH => cases hout

theorem cursorStep {s s' : State n} {l : Label n} (h : Basic s) (hstep : s.step l = some s') : CursorStep s s' := by
  have h' := h.step hstep
  cases step_cases hstep with
  | @out env sh main c hmain hmain' hq hsh =>
    refine .quiet (m := s.sh.progMtx) hq (cursorKept_main h h' (Main.isVH_of_isOut hmain).1 ?_) ?_ hsh
    · rw [(Main.isVH_of_isOut hmain).2, (Main.isVH_of_isOut hmain').2]
    · rw [Main.vhCmd_of_isOut hmain]
      exact Main.vhCmd_of_isOut hmain'
  | @execLock m hmain hlock =>
    exact .quiet (m := m) (.refl _) (cursorKept_main h h' (by rw [hmain]; rfl) (by rw [hmain]; rfl)) (by rw [hmain]; rfl) rfl
  | @execTest main hmain hmain' =>
    exact .quiet (m := s.sh.progMtx) (.refl _) (cursorKept_execTest h h' hmain hmain')
      (by rw [hmain]; rcases hmain' with rfl | rfl <;> rfl) rfl
  | @execUnlock m hmain hlock =>
    exact .quiet (m := m) (.refl _) (cursorKept_main h h' (by rw [hmain]; rfl) (by rw [hmain]; rfl)) (by rw [hmain]; rfl) rfl
  | pass hmain hpass =>
    obtain ⟨hcur, ⟨b, hsh⟩, hcur'⟩ := cursor_mainPass h h' hmain
    exact .pass hcur hpass hsh hcur' (vhCmd_mainPass hmain) fun _ => by rw [hmain]; rfl
  | @vhReturn cmd val hmain hphase hcode =>
    refine .vhReturn hmain (sameCommand_vhResult cmd (s.api none).regs val) rfl (cursor_eq_none fun u => ?_)
      (cursor_of_passOf h' (t := none) rfl) rfl hcode ⟨val, rfl⟩
    by_cases hu : u = none
    · rw [hu]
      simp [State.passOf, hmain, hphase, Main.passPc, Phase.passPc]
    · exact passOf_eq_none_of_main h (by rw [hmain]; rfl) hu
  | exec hphase hcode hexec =>
    exact .exec hcode (exec_effect hexec) (setApi_api_self _ _ _)
      (cursorKept_exec h h' hphase (by rw [hcode]; exact List.cons_ne_nil _ _) (exec_effect hexec)) rfl hexec hphase
  | apiPass hphase hpass hout =>
    obtain ⟨hcur, ⟨b, hsh⟩, hcur'⟩ := cursor_apiPass h h' hphase hout
    exact .pass hcur hpass hsh hcur' (vhCmd_apiPass hout) (fun h => by cases h)
  | @unlock t env rv k m hphase hlock => exact .quiet (m := m) (.refl _) (cursorKept_unlock h h' hphase) rfl rfl
  | @call t c hphase hcode hmay =>
    exact .quiet (m := s.sh.progMtx) (.refl _) (cursorKept_call h h' hphase) rfl rfl

end Aveo

import Aveo.Context.Shape

/-!
# The cases of a step

`StepCase` lists what a step of a context can be, with the instruction or the step of a pass that it
consists of. The invariants go through these cases and use one lemma for instructions and one for
passes.
-/

namespace Aveo

open Lib

variable {n : Nat}

namespace Main

/-- The progress thread is outside `progressExec`. -/
def isOut : Main → Bool
  | .waitRequest | .cvWait | .execLock | .stateTest | .exited => true
  | _ => false

def isVH : Main → Bool
  | .vh _ => true
  | _ => false

/-- The pass that `progressExec` is in. -/
def passPc : Main → Option PassPc
  | .pass p => some p
  | _ => none

/-- The command of the VH function that runs. -/
def vhCmd : Main → Option Command
  | .vh cmd => some cmd
  | _ => none

/-- The command in the hand of `progressExec`. -/
def hand : Main → Option Command
  | .pass p => p.hand
  | .vh cmd => some cmd
  | _ => none

/-- How many times `progressExec` holds `prog_mtx`. -/
def holds : Main → Nat
  | .execTest | .pass _ | .vh _ | .execUnlock => 1
  | _ => 0

theorem hand_of_isOut {main : Main} (h : main.isOut = true) : main.hand = none := by
  cases main <;> first | rfl | cases h

theorem isVH_of_isOut {main : Main} (h : main.isOut = true) : main.isVH = false ∧ main.passPc = none := by
  cases main <;> first | exact ⟨rfl, rfl⟩ | cases h

theorem holds_of_isOut {main : Main} (h : main.isOut = true) : main.holds = 0 := by
  cases main <;> first | rfl | cases h

theorem vhCmd_of_isOut {main : Main} (h : main.isOut = true) : main.vhCmd = none := by
  cases main <;> first | rfl | cases h

end Main

namespace Phase

def passPc : Phase → Option PassPc
  | .inPass p _ => some p
  | _ => none

def hand : Phase → Option Command
  | .inPass p _ => p.hand
  | _ => none

/-- How many times the call holds `prog_mtx`. -/
def holds : Phase → Nat
  | .run => 0
  | _ => 1

end Phase

inductive StepCase (s : State n) : Label n → State n → Prop
  | out {env : Env} {sh : Shared n} {main : Main} {c : CondWait} (hmain : s.main.isOut = true)
      (hmain' : main.isOut = true) (h : Quiet s.sh sh) (hsh : sh = { s.sh with comq := { s.sh.comq with reqFliCond := c } }) :
      StepCase s (.main env) { s with sh := sh, main := main }
  | execLock {m : RecMutex (Tid n)} (hmain : s.main = .execLock) (hlock : s.sh.progMtx.tryLock none = some m) :
      StepCase s (.main .tau) { s with sh := { s.sh with progMtx := m }, main := .execTest }
  | execTest {main : Main} (hmain : s.main = .execTest) (hmain' : main = .pass .poll ∨ main = .execUnlock) :
      StepCase s (.main .tau) { s with main := main }
  | execUnlock {m : RecMutex (Tid n)} (hmain : s.main = .execUnlock) (hlock : s.sh.progMtx.unlock none = some m) :
      StepCase s (.main .tau) { s with sh := { s.sh with progMtx := m }, main := .stateTest }
  | pass {p : PassPc} {env : Env} {sh : Shared n} {out : PassOut} (hmain : s.main = .pass p)
      (h : passStep true none s.sh p env = some (sh, out)) : StepCase s (.main env) (s.afterPass sh out)
  | vhReturn {cmd : Command} {val : Word} (hmain : s.main = .vh cmd) (hphase : (s.api none).phase = .run)
      (hcode : (s.api none).code = []) :
      StepCase s (.main (.vhReturn val))
        { s with
          sh := s.sh.emit (.vhReturn cmd.msgid)
          main := .pass (.executed (vhResult cmd (s.api none).regs val)) }
  | exec {t : Tid n} {env : Env} {i : Instr} {rest : List Instr} {sh : Shared n} {a : Api}
      (hphase : (s.api t).phase = .run) (hcode : (s.api t).code = i :: rest)
      (h : exec t (s.main = .exited) s.sh (s.api t).regs rest i env = some (sh, a)) :
      StepCase s (.api t env) ({ s with sh := sh }.setApi t a)
  | apiPass {t : Tid n} {env : Env} {p : PassPc} {k : After} {sh sh' : Shared n} {out : PassOut} {a : Api}
      (hphase : (s.api t).phase = .inPass p k)
      (h : passStep false t s.sh p (if env = .uncaught then .tau else env) = some (sh, out))
      (hout : (s.api t).afterPass t k (env = .uncaught) sh out = some (sh', a)) :
      StepCase s (.api t env) ({ s with sh := sh' }.setApi t a)
  | unlock {t : Tid n} {env : Env} {rv : Int} {k : After} {m : RecMutex (Tid n)}
      (hphase : (s.api t).phase = .unlock rv k) (hlock : s.sh.progMtx.unlock t = some m) :
      StepCase s (.api t env)
        ({ s with sh := { s.sh with progMtx := m } }.setApi t
          { s.api t with phase := .run, code := k.code rv (s.api t).code })
  | call {t : Tid n} {c : Call} (hphase : (s.api t).phase = .run) (hcode : (s.api t).code = [])
      (hmay : s.mayCall t = true) :
      StepCase s (.call t c)
        (s.setApi t { phase := .run, code := c.code, regs := c.regs (pushedIds s.sh.log).length })

theorem mainStep_cases {s s' : State n} {env : Env} (h : mainStep s env = some s') :
    StepCase s (.main env) s' := by
  have hused : s.sh.used ⊆ s.sh.used := List.Subset.refl _
  unfold mainStep at h
  split at h
  · rename_i hmain
    split at h <;> cases h
    · exact .out (by rw [hmain]; rfl) rfl (.of_log_eq rfl rfl rfl rfl rfl hused rfl rfl) rfl
    · refine .out (by rw [hmain]; rfl) ?_ (.refl _) rfl
      split <;> rfl
  · rename_i hmain
    split at h <;> cases h
    refine .out (by rw [hmain]; rfl) ?_ (.of_log_eq rfl rfl rfl rfl rfl hused rfl rfl) rfl
    split <;> rfl
  · rename_i hmain
    obtain ⟨m, hlock, rfl⟩ := Option.map_eq_some_iff.mp h
    exact .execLock hmain hlock
  · rename_i hmain
    cases h
    refine .execTest hmain ?_
    split
    · exact .inl rfl
    · exact .inr rfl
  · rename_i p hmain
    obtain ⟨⟨sh, out⟩, hpass, rfl⟩ := Option.map_eq_some_iff.mp h
    exact .pass hmain hpass
  · rename_i cmd val hmain
    split at h
    · rename_i hidle
      cases h
      exact .vhReturn hmain hidle.1 hidle.2
    · cases h
  · rename_i hmain
    obtain ⟨m, hlock, rfl⟩ := Option.map_eq_some_iff.mp h
    exact .execUnlock hmain hlock
  · rename_i hmain
    cases h
    refine .out (by rw [hmain]; rfl) ?_ (.refl _) rfl
    split <;> rfl
  · cases h

theorem step_cases {s s' : State n} {l : Label n} (h : s.step l = some s') : StepCase s l s' := by
  unfold State.step at h
  split at h
  · cases h
  · cases l with
    | main env => exact mainStep_cases h
    | api t env =>
      obtain ⟨⟨sh, a⟩, happ, rfl⟩ := Option.map_eq_some_iff.mp h
      unfold apiStep at happ
      split at happ
      · rename_i hphase
        split at happ
        · cases happ
        · rename_i i rest hcode
          exact .exec hphase hcode happ
      · rename_i p k hphase
        obtain ⟨⟨sh₁, out⟩, hpass, hout⟩ := Option.bind_eq_some_iff.mp happ
        exact .apiPass hphase hpass hout
      · rename_i rv k hphase
        obtain ⟨m, hlock, heq⟩ := Option.map_eq_some_iff.mp happ
        cases heq
        exact .unlock hphase hlock
    | call t c =>
      dsimp only at h
      split at h
      · rename_i hidle
        cases h
        exact .call hidle.1 hidle.2.1 hidle.2.2
      · cases h

/-- The step of a thread at an instruction. -/
theorem exec_of_step {s s' : State n} {t : Tid n} {env : Env} {i : Instr} {rest : List Instr}
    (h : s.step (.api t env) = some s') (hphase : (s.api t).phase = .run) (hcode : (s.api t).code = i :: rest) :
    ∃ sh a, exec t (s.main = .exited) s.sh (s.api t).regs rest i env = some (sh, a) ∧
      s' = { s with sh := sh }.setApi t a := by
  cases step_cases h with
  | @exec _ _ i' rest' sh a _ hcode' hexec =>
    rw [hcode] at hcode'
    cases hcode'
    exact ⟨sh, a, hexec, rfl⟩
  | apiPass hphase' | unlock hphase' =>
    rw [hphase] at hphase'
    cases hphase'

end Aveo

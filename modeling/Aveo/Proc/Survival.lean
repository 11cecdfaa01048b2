import Aveo.Lib.Machine
import Aveo.Queue.Command
import Mathlib.Logic.Function.Basic

/-!
# The death of the VE process

The contexts of a process share `proc_survival`. A pass that finds nothing to do looks at it in every hundredth such turn:
if it is set, the pass asks `waitpid` whether the VE process has ended, and the one that gets the pid clears it; if it
is cleared, the context goes to VEO_STATE_EXIT. `waitpid` gives the pid away only once, so all other contexts depend on
the flag. Reading the flag, `waitpid` and clearing the flag are steps of their own.
-/

namespace Aveo

open Lib

/-- The VE process as the kernel has it. -/
inductive Child
  | running
  | zombie
  | reaped
  deriving DecidableEq

/-- Where a pass is in the check. -/
inductive CheckPc
  | turn
  /-- `getProcSurvival` has returned true, before `waitpid`. -/
  | sawAlive
  /-- `waitpid` has returned the pid, before `setProcSurvival`. -/
  | reaped
  deriving DecidableEq

/-- What a context has of the check. -/
structure Watcher where
  exited : Bool
  count : Word
  pc : CheckPc
  deriving DecidableEq

/-- A process and its contexts. -/
structure Survival (n : Nat) where
  procSurvival : Bool
  child : Child
  ctx : Fin n → Watcher

namespace Survival

variable {n : Nat}

def new (n : Nat) : Survival n := { procSurvival := true, child := .running, ctx := fun _ => ⟨false, 0, .turn⟩ }

/-- The VE process ends, a pass of a context starts the end of a turn in which nothing was received or sent, calls
`waitpid`, or clears the flag. -/
inductive Label (n : Nat)
  | die
  | turn (i : Fin n)
  | waitpid (i : Fin n)
  | clear (i : Fin n)
  deriving DecidableEq

def set (s : Survival n) (i : Fin n) (w : Watcher) : Survival n := { s with ctx := Function.update s.ctx i w }

def step (s : Survival n) : Label n → Option (Survival n)
  | .die => if s.child = .running then some { s with child := .zombie } else none
  | .turn i =>
      let w := s.ctx i
      if w.pc ≠ .turn then none
      else if w.count % 100 = 0 then
        if s.procSurvival then some (s.set i { w with pc := .sawAlive })
        else some (s.set i { w with exited := true })
      else some (s.set i { w with count := w.count + 1 })
  | .waitpid i =>
      let w := s.ctx i
      if w.pc ≠ .sawAlive then none
      else if s.child = .zombie then some ({ s with child := .reaped }.set i { w with pc := .reaped })
      -- 0 while the process runs, and -1 after it was reaped
      else some (s.set i { w with count := w.count + 1, pc := .turn })
  | .clear i =>
      let w := s.ctx i
      if w.pc ≠ .reaped then none
      else some ({ s with procSurvival := false }.set i { w with exited := true, pc := .turn })

end Survival

/-- The machine of a process with `n` contexts. -/
def survival (n : Nat) : Machine (Survival n) (Survival.Label n) where
  init s := s = .new n
  step := Survival.step

namespace Survival

variable {n : Nat} {s s' t : Survival n} {i : Fin n}

@[simp] theorem set_ctx_self (s : Survival n) (i : Fin n) (w : Watcher) : (s.set i w).ctx i = w := Function.update_self _ _ _

theorem set_ctx_of_ne (s : Survival n) {i j : Fin n} (w : Watcher) (h : j ≠ i) : (s.set i w).ctx j = s.ctx j :=
  Function.update_of_ne h _ _

/-- What a step can be. -/
inductive StepCase (s : Survival n) : Label n → Survival n → Prop
  | die (h : s.child = .running) : StepCase s .die { s with child := .zombie }
  | count (i : Fin n) (hpc : (s.ctx i).pc = .turn) (h : (s.ctx i).count % 100 ≠ 0) :
      StepCase s (.turn i) (s.set i { s.ctx i with count := (s.ctx i).count + 1 })
  | look (i : Fin n) (hpc : (s.ctx i).pc = .turn) (h : (s.ctx i).count % 100 = 0) (hflag : s.procSurvival = true) :
      StepCase s (.turn i) (s.set i { s.ctx i with pc := .sawAlive })
  | exit (i : Fin n) (hpc : (s.ctx i).pc = .turn) (h : (s.ctx i).count % 100 = 0) (hflag : s.procSurvival = false) :
      StepCase s (.turn i) (s.set i { s.ctx i with exited := true })
  | reap (i : Fin n) (hpc : (s.ctx i).pc = .sawAlive) (h : s.child = .zombie) :
      StepCase s (.waitpid i) ({ s with child := .reaped }.set i { s.ctx i with pc := .reaped })
  | goOn (i : Fin n) (hpc : (s.ctx i).pc = .sawAlive) (h : s.child ≠ .zombie) :
      StepCase s (.waitpid i) (s.set i { s.ctx i with count := (s.ctx i).count + 1, pc := .turn })
  | clear (i : Fin n) (hpc : (s.ctx i).pc = .reaped) :
      StepCase s (.clear i) ({ s with procSurvival := false }.set i { s.ctx i with exited := true, pc := .turn })

theorem step_cases {l : Label n} (h : s.step l = some s') : StepCase s l s' := by
  cases l with
  | die =>
    rw [step] at h
    split at h <;> cases h
    exact .die ‹_›
  | turn i =>
    simp only [step] at h
    split at h
    · cases h
    · rename_i hpc
      split at h
      · rename_i hcount
        cases hflag : s.procSurvival <;> rw [hflag] at h <;> cases h
        · exact .exit i (not_not.mp hpc) hcount hflag
        · exact .look i (not_not.mp hpc) hcount hflag
      · rename_i hcount
        cases h
        exact .count i (not_not.mp hpc) hcount
  | waitpid i =>
    simp only [step] at h
    split at h
    · cases h
    · rename_i hpc
      split at h <;> rename_i hchild <;> cases h
      · exact .reap i (not_not.mp hpc) hchild
      · exact .goOn i (not_not.mp hpc) hchild
  | clear i =>
    simp only [step] at h
    split at h
    · cases h
    · rename_i hpc
      cases h
      exact .clear i (not_not.mp hpc)

/-! ### Who has reaped -/

/-- The flag is cleared by the one context that got the pid, and a context exits only after that. -/
structure Consistent (s : Survival n) : Prop where
  cleared : s.procSurvival = false → s.child = .reaped
  exited : ∀ i, (s.ctx i).exited = true → s.procSurvival = false
  reaper : ∀ i, (s.ctx i).pc = .reaped → s.child = .reaped ∧ s.procSurvival = true
  unique : ∀ i j, (s.ctx i).pc = .reaped → (s.ctx j).pc = .reaped → i = j
  reaped : s.child = .reaped → s.procSurvival = false ∨ ∃ i, (s.ctx i).pc = .reaped

/-- A context after a step of context `i`: the one of `i` as it is set, or as before. -/
theorem ctx_set_cases (s : Survival n) (i j : Fin n) (w : Watcher) :
    (j = i ∧ (s.set i w).ctx j = w) ∨ (j ≠ i ∧ (s.set i w).ctx j = s.ctx j) := by
  by_cases h : j = i
  · subst h
    exact .inl ⟨rfl, s.set_ctx_self j w⟩
  · exact .inr ⟨h, s.set_ctx_of_ne w h⟩

/-- A step of a context that changes neither the process nor the flag, nor who is about to clear it. -/
theorem Consistent.set (h : s.Consistent) {i : Fin n} {w : Watcher} (hpc : (s.ctx i).pc ≠ .reaped) (hpc' : w.pc ≠ .reaped)
    (hexit : w.exited = true → s.procSurvival = false) : (s.set i w).Consistent where
  cleared := h.cleared
  exited j hj := by
    rcases s.ctx_set_cases i j w with ⟨-, hctx⟩ | ⟨-, hctx⟩ <;> rw [hctx] at hj
    · exact hexit hj
    · exact h.exited j hj
  reaper j hj := by
    rcases s.ctx_set_cases i j w with ⟨-, hctx⟩ | ⟨-, hctx⟩ <;> rw [hctx] at hj
    · exact absurd hj hpc'
    · exact h.reaper j hj
  unique j k hj hk := by
    rcases s.ctx_set_cases i j w with ⟨-, hctx⟩ | ⟨-, hctx⟩ <;> rw [hctx] at hj
    · exact absurd hj hpc'
    · rcases s.ctx_set_cases i k w with ⟨-, hctx'⟩ | ⟨-, hctx'⟩ <;> rw [hctx'] at hk
      · exact absurd hk hpc'
      · exact h.unique j k hj hk
  reaped hr := by
    refine (h.reaped hr).imp_right fun hreaper => ?_
    obtain ⟨j, hj⟩ := hreaper
    refine ⟨j, ?_⟩
    have hne : j ≠ i := by
      rintro rfl
      exact hpc hj
    rwa [s.set_ctx_of_ne w hne]

/-- Nobody has noticed anything before the process is reaped. -/
theorem Consistent.of_not_reaped (h : s.Consistent) (hchild : s.child ≠ .reaped) :
    s.procSurvival = true ∧ ∀ j, (s.ctx j).pc ≠ .reaped := by
  constructor
  · by_contra hflag
    exact hchild (h.cleared (eq_false_of_ne_true hflag))
  · intro j hj
    exact hchild (h.reaper j hj).1

theorem Consistent.step {l : Label n} (h : s.Consistent) (hstep : s.step l = some s') : s'.Consistent := by
  cases step_cases hstep with
  | die hchild =>
    obtain ⟨hflag, hnone⟩ := h.of_not_reaped (by rw [hchild]; decide)
    exact ⟨fun hcleared => absurd (hflag.symm.trans hcleared) Bool.noConfusion, h.exited, fun j hj => absurd hj (hnone j),
      h.unique, fun hr => (by cases hr)⟩
  | count i hpc hcount => exact h.set (by rw [hpc]; decide) (by rw [hpc]; decide) (h.exited i)
  | look i hpc hcount hflag => exact h.set (by rw [hpc]; decide) (fun hw => by cases hw) (h.exited i)
  | exit i hpc hcount hflag => exact h.set (by rw [hpc]; decide) (by rw [hpc]; decide) fun _ => hflag
  | goOn i hpc hchild => exact h.set (by rw [hpc]; decide) (fun hw => by cases hw) (h.exited i)
  | reap i hpc hchild =>
    obtain ⟨hflag, hnone⟩ := h.of_not_reaped (by rw [hchild]; decide)
    -- Only `i` has the pid now.
    have honly : ∀ j, ((({ s with child := .reaped } : Survival n).set i { s.ctx i with pc := .reaped }).ctx j).pc = .reaped →
        j = i := by
      intro j hj
      rcases ctx_set_cases { s with child := .reaped } i j { s.ctx i with pc := .reaped } with ⟨rfl, -⟩ | ⟨-, hctx⟩
      · rfl
      · rw [hctx] at hj
        exact absurd hj (hnone j)
    refine ⟨fun _ => rfl, fun j hj => ?_, fun _ _ => ⟨rfl, hflag⟩, fun j k hj hk => (honly j hj).trans (honly k hk).symm,
      fun _ => .inr ⟨i, by rw [set_ctx_self]⟩⟩
    rcases ctx_set_cases { s with child := .reaped } i j { s.ctx i with pc := .reaped } with ⟨rfl, hctx⟩ | ⟨-, hctx⟩ <;>
      rw [hctx] at hj <;> exact h.exited j hj
  | clear i hpc =>
    have hnone : ∀ j, ((({ s with procSurvival := false } : Survival n).set i
        { s.ctx i with exited := true, pc := .turn }).ctx j).pc ≠ .reaped := by
      intro j hj
      rcases ctx_set_cases { s with procSurvival := false } i j { s.ctx i with exited := true, pc := .turn } with
        ⟨-, hctx⟩ | ⟨hne, hctx⟩ <;> rw [hctx] at hj
      · cases hj
      · exact hne (h.unique j i hj hpc)
    exact ⟨fun _ => (h.reaper i hpc).1, fun _ _ => rfl, fun j hj => absurd hj (hnone j), fun j _ hj => absurd hj (hnone j),
      fun _ => .inl rfl⟩

theorem consistent_new : (Survival.new n).Consistent :=
  ⟨fun h => (by cases h), fun _ h => (by cases h), fun _ h => (by cases h), fun _ _ h => (by cases h), fun h => (by cases h)⟩

theorem consistent_of_reachable (h : (survival n).Reachable Machine.anyStep s) : s.Consistent := by
  refine h.invariant (fun s hs => ?_) fun s l s' _ hstep _ hI => hI.step hstep
  subst hs
  exact consistent_new

/-! ### How long it takes -/

/-- The number of turns until the next check. The counter wraps at 2^64, which is not a multiple of 100. -/
def untilCheck (count : Word) : Nat :=
  if count.toNat % 100 = 0 then 0 else min (100 - count.toNat % 100) (2 ^ 64 - count.toNat)

theorem check_iff (count : Word) : count % 100 = 0 ↔ count.toNat % 100 = 0 := by
  rw [← BitVec.toNat_inj, BitVec.toNat_umod]
  rfl

theorem untilCheck_le (count : Word) : untilCheck count ≤ 99 := by
  rw [untilCheck]
  split <;> omega

theorem untilCheck_succ {count : Word} (h : count % 100 ≠ 0) : untilCheck (count + 1) + 1 ≤ untilCheck count := by
  rw [Ne, check_iff] at h
  have hlt := count.isLt
  have hsucc : (count + 1).toNat = (count.toNat + 1) % 2 ^ 64 := BitVec.toNat_add _ _
  by_cases hwrap : count.toNat + 1 = 2 ^ 64
  · rw [hwrap, Nat.mod_self] at hsucc
    rw [untilCheck, untilCheck, if_neg h, hsucc, if_pos (Nat.zero_mod _)]
    omega
  · rw [Nat.mod_eq_of_lt (by omega)] at hsucc
    rw [untilCheck, untilCheck, if_neg h, hsucc]
    split <;> omega

end Survival

open Survival

/-- The turns that a context can still make before it has asked `waitpid`. -/
def Watcher.untilReaped (w : Watcher) : Nat := if w.pc = .turn then untilCheck w.count + 2 else 1

/-- The turns that a context can still make before it sees a flag that is cleared. -/
def Watcher.untilExit (w : Watcher) : Nat := if w.pc = .turn then untilCheck w.count + 1 else 100

theorem Watcher.untilReaped_pos (w : Watcher) : 0 < w.untilReaped ∧ w.untilReaped ≤ 101 := by
  have := untilCheck_le w.count
  rw [untilReaped]
  split <;> omega

theorem Watcher.untilExit_pos (w : Watcher) : 0 < w.untilExit ∧ w.untilExit ≤ 100 := by
  have := untilCheck_le w.count
  rw [untilExit]
  split <;> omega

namespace Survival

variable {n : Nat} {s s' t : Survival n} {i : Fin n}

/-- The turns of context `i` in a step. -/
def Label.turns (i : Fin n) (l : Label n) : Nat := if l == .turn i then 1 else 0

theorem Label.turns_self (i : Fin n) : (Label.turn i).turns i = 1 := if_pos (beq_self_eq_true _)

theorem Label.turns_of_ne {j : Fin n} (h : j ≠ i) : (Label.turn j).turns i = 0 :=
  if_neg fun heq => h (Label.turn.inj (eq_of_beq heq))

/-- A quantity of context `i` after a step of context `j`. -/
theorem quantity_set (f : Watcher → Nat) {j : Fin n} {w : Watcher} {k : Nat} (hself : j = i → f w + k ≤ f (s.ctx j))
    (hother : j ≠ i → k = 0) : f ((s.set j w).ctx i) + k ≤ f (s.ctx i) := by
  rcases s.ctx_set_cases j i w with ⟨rfl, hctx⟩ | ⟨hne, hctx⟩ <;> rw [hctx]
  · exact hself rfl
  · rw [hother (Ne.symm hne)]
    exact Nat.le_refl _

/-- As long as the process is not reaped, every turn brings context `i` closer to `waitpid`. -/
theorem untilReaped_step {l : Label n} (h : s.Consistent) (hchild : s.child = .zombie) (hstep : s.step l = some s') (i : Fin n) :
    s'.child = .reaped ∨ s'.child = .zombie ∧ (s'.ctx i).untilReaped + l.turns i ≤ (s.ctx i).untilReaped := by
  cases step_cases hstep with
  | die hrun => rw [hchild] at hrun; cases hrun
  | reap => exact .inl rfl
  | clear j hpc => exact .inl (h.reaper j hpc).1
  | goOn j hpc hne => exact absurd hchild hne
  | exit j hpc hcount hflag => exact .inl (h.cleared hflag)
  | count j hpc hcount =>
    refine .inr ⟨hchild, quantity_set _ (fun hji => ?_) Label.turns_of_ne⟩
    subst hji
    have := untilCheck_succ hcount
    simp only [Watcher.untilReaped, hpc, if_true, Label.turns_self]
    omega
  | look j hpc hcount hflag =>
    refine .inr ⟨hchild, quantity_set _ (fun hji => ?_) Label.turns_of_ne⟩
    subst hji
    simp only [Watcher.untilReaped, hpc, if_true, Label.turns_self, reduceCtorEq, if_false]
    omega

/-- Once the flag is cleared, every turn brings context `i` closer to its end. -/
theorem untilExit_step {l : Label n} (h : s.Consistent) (hflag : s.procSurvival = false) (hstep : s.step l = some s')
    (i : Fin n) : (s'.ctx i).exited = true ∨
      s'.procSurvival = false ∧ (s'.ctx i).untilExit + l.turns i ≤ (s.ctx i).untilExit := by
  cases step_cases hstep with
  | die => exact .inr ⟨hflag, Nat.le_refl _⟩
  | look j hpc hcount hset => rw [hflag] at hset; cases hset
  | reap j hpc hchild => rw [h.cleared hflag] at hchild; cases hchild
  | clear j hpc => rw [(h.reaper j hpc).2] at hflag; cases hflag
  | exit j hpc hcount =>
    rcases s.ctx_set_cases j i { s.ctx j with exited := true } with ⟨-, hctx⟩ | ⟨hne, hctx⟩
    · exact .inl (by rw [hctx])
    · exact .inr ⟨hflag, by rw [hctx, Label.turns_of_ne (Ne.symm hne)]; exact Nat.le_refl _⟩
  | count j hpc hcount =>
    refine .inr ⟨hflag, quantity_set _ (fun hji => ?_) Label.turns_of_ne⟩
    subst hji
    have := untilCheck_succ hcount
    simp only [Watcher.untilExit, hpc, if_true, Label.turns_self]
    omega
  | goOn j hpc hchild =>
    refine .inr ⟨hflag, quantity_set _ (fun _ => ?_) fun _ => rfl⟩
    have := untilCheck_le ((s.ctx j).count + 1)
    show (if CheckPc.turn = .turn then untilCheck ((s.ctx j).count + 1) + 1 else 100) + 0 ≤ (s.ctx j).untilExit
    rw [Watcher.untilExit, hpc, if_pos rfl, if_neg (by decide)]
    omega

theorem exited_set {j : Fin n} {w : Watcher} (hw : (s.ctx j).exited = true → w.exited = true) (hi : (s.ctx i).exited = true) :
    ((s.set j w).ctx i).exited = true := by
  rcases s.ctx_set_cases j i w with ⟨rfl, hctx⟩ | ⟨-, hctx⟩ <;> rw [hctx]
  · exact hw hi
  · exact hi

theorem exited_step {l : Label n} (hstep : s.step l = some s') (hi : (s.ctx i).exited = true) : (s'.ctx i).exited = true := by
  cases step_cases hstep with
  | die => exact hi
  | exit j | clear j => exact exited_set (fun _ => rfl) hi
  | count j | look j | reap j | goOn j => exact exited_set id hi

theorem reaped_step {l : Label n} (hstep : s.step l = some s') (hr : s.child = .reaped) : s'.child = .reaped := by
  cases step_cases hstep with
  | die hrun => rw [hr] at hrun; cases hrun
  | reap => rfl
  | exit | clear | count | look | goOn => exact hr

/-- After 101 turns of one context since the death the process is reaped. -/
theorem reaped_of_turns (hs : s.Consistent) (hdead : s.child ≠ .running) {ls : List (Label n)}
    (hrun : (survival n).run s ls = some t) (hturns : 101 ≤ ls.count (.turn i)) : t.child = .reaped := by
  cases hchild : s.child with
  | running => exact absurd hchild hdead
  | reaped =>
    exact (Machine.steps_of_run hrun).invariant (I := fun s => s.child = .reaped) (fun s l s' hstep _ => reaped_step hstep)
      hchild
  | zombie =>
    have hend := Machine.run_uses_rank (M := survival n) (I := fun s => s.Consistent ∧ s.child = .zombie)
      (Q := fun s => s.child = .reaped) (f := fun s => (s.ctx i).untilReaped) (p := (· == .turn i))
      (fun s l s' hstep hI => (untilReaped_step hI.1 hI.2 hstep i).imp_right fun h => ⟨⟨hI.1.step hstep, h.1⟩, h.2⟩)
      (fun s l s' hstep => reaped_step hstep) hrun ⟨hs, hchild⟩
    refine hend.resolve_right fun hnot => ?_
    have hle := hnot.2
    have := (s.ctx i).untilReaped_pos
    have := (t.ctx i).untilReaped_pos
    rw [List.count] at hturns
    omega

/-- After 100 turns with the flag cleared a context is in the exit state. -/
theorem exited_of_turns (hs : s.Consistent) (hflag : s.procSurvival = false) {ls : List (Label n)}
    (hrun : (survival n).run s ls = some t) (hturns : 100 ≤ ls.count (.turn i)) : (t.ctx i).exited = true := by
  have hend := Machine.run_uses_rank (M := survival n) (I := fun s => s.Consistent ∧ s.procSurvival = false)
    (Q := fun s => (s.ctx i).exited = true) (f := fun s => (s.ctx i).untilExit) (p := (· == .turn i))
    (fun s l s' hstep hI => (untilExit_step hI.1 hI.2 hstep i).imp_right fun h => ⟨⟨hI.1.step hstep, h.1⟩, h.2⟩)
    (fun s l s' hstep => exited_step hstep) hrun ⟨hs, hflag⟩
  refine hend.resolve_right fun hnot => ?_
  have hle := hnot.2
  have := (s.ctx i).untilExit_pos
  have := (t.ctx i).untilExit_pos
  rw [List.count] at hturns
  omega

/-- Who has reaped the process has cleared the flag, or is the only one who is about to. -/
theorem Consistent.reaper_of_reaped (h : s.Consistent) (hr : s.child = .reaped) :
    s.procSurvival = false ∨ ∃ j, (s.ctx j).pc = .reaped ∧ ∀ k, (s.ctx k).pc = .reaped → k = j := by
  refine (h.reaped hr).imp_right fun hreaper => ?_
  obtain ⟨j, hj⟩ := hreaper
  exact ⟨j, hj, fun k hk => h.unique k j hk hj⟩

/-- The death of the VE process is noticed, whatever the order of the contexts' steps. A context goes to the exit state only
after the process has died and was reaped. When a context has made 101 turns since the death, the process is
reaped, and the one context that did it has cleared the flag or is about to. When it has made 100 turns since the flag was
cleared, it is in the exit state. -/
theorem death_is_noticed (hs : (survival n).Reachable Machine.anyStep s) {ls : List (Label n)}
    (hrun : (survival n).run s ls = some t) (i : Fin n) :
    ((t.ctx i).exited = true → t.child = .reaped ∧ t.procSurvival = false) ∧
      (s.child ≠ .running → 101 ≤ ls.count (.turn i) →
        t.child = .reaped ∧ (t.procSurvival = false ∨ ∃ j, (t.ctx j).pc = .reaped ∧ ∀ k, (t.ctx k).pc = .reaped → k = j)) ∧
      (s.procSurvival = false → 100 ≤ ls.count (.turn i) → (t.ctx i).exited = true) := by
  have hcs := consistent_of_reachable hs
  have hct := consistent_of_reachable (hs.steps (Machine.steps_of_run hrun))
  refine ⟨fun hi => ?_, fun hdead hturns => ?_, fun hflag hturns => exited_of_turns hcs hflag hrun hturns⟩
  · have hflag := hct.exited i hi
    exact ⟨hct.cleared hflag, hflag⟩
  · have hreaped := reaped_of_turns hcs hdead hrun hturns
    exact ⟨hreaped, hct.reaper_of_reaped hreaped⟩

/-- A process with two contexts that has died. -/
def dead : Survival 2 := { Survival.new 2 with child := .zombie }

/-- Both contexts see the flag set, and context 0 gets the pid; context 1 gets an error and counts on. -/
def raceTrace : List (Label 2) := [.turn 0, .turn 1, .waitpid 0, .waitpid 1, .clear 0]

/-- With the flag cleared a context can always make turns. -/
theorem exists_run_turns (i : Fin n) (k : Nat) : ∀ {s : Survival n}, (s.ctx i).pc = .turn → s.procSurvival = false →
    ∃ t, (survival n).run s (List.replicate k (.turn i)) = some t := by
  induction k with
  | zero => exact fun _ _ => ⟨_, rfl⟩
  | succ k ih =>
    intro s hpc hflag
    obtain ⟨w, hw, hstep⟩ : ∃ w : Watcher, w.pc = .turn ∧ s.step (.turn i) = some (s.set i w) := by
      by_cases hcount : (s.ctx i).count % 100 = 0
      · refine ⟨{ s.ctx i with exited := true }, hpc, ?_⟩
        simp only [step, hpc, hflag, hcount, ne_eq, not_true_eq_false, if_false, if_true, Bool.false_eq_true]
      · refine ⟨{ s.ctx i with count := (s.ctx i).count + 1 }, hpc, ?_⟩
        simp only [step, hpc, hcount, ne_eq, not_true_eq_false, if_false]
    obtain ⟨t, ht⟩ := @ih (s.set i w) (by rw [set_ctx_self, hw]) hflag
    refine ⟨t, ?_⟩
    rw [List.replicate_succ, Machine.run]
    exact (congrArg (Option.bind · _) hstep).trans ht

theorem death_is_noticed_race :
    ∃ s t : Survival 2, (survival 2).run dead raceTrace = some s ∧ (s.ctx 1).exited = false ∧
      (survival 2).run s (List.replicate 100 (.turn 1)) = some t ∧ t.child = .reaped ∧ (t.ctx 1).exited = true := by
  have hrun : ((survival 2).run dead raceTrace).map (fun s => (s.procSurvival, (s.ctx 1).exited, (s.ctx 1).pc)) =
      some (false, false, .turn) := by decide +kernel
  obtain ⟨s, hs, heq⟩ := Option.map_eq_some_iff.mp hrun
  obtain ⟨hflag, heq⟩ := Prod.mk.inj heq
  obtain ⟨hexited, hpc⟩ := Prod.mk.inj heq
  obtain ⟨t, ht⟩ := exists_run_turns 1 100 hpc hflag
  have hdead : (survival 2).Reachable Machine.anyStep dead := (Machine.Reachable.init rfl).step (l := .die) rfl trivial
  have hwhole : (survival 2).run dead (raceTrace ++ List.replicate 100 (.turn 1)) = some t := by
    rw [Machine.run_append, hs, Option.bind_some, ht]
  have hcount : 101 ≤ (raceTrace ++ List.replicate 100 (Label.turn 1)).count (Label.turn 1) := by
    rw [List.count_append, List.count_replicate_self]
    decide
  have hturns : 100 ≤ (List.replicate 100 (Label.turn (1 : Fin 2))).count (Label.turn 1) :=
    Nat.le_of_eq List.count_replicate_self.symm
  obtain ⟨-, hnoticed, -⟩ := death_is_noticed hdead hwhole 1
  obtain ⟨-, -, hend⟩ := death_is_noticed (hdead.steps (Machine.steps_of_run hs)) ht 1
  exact ⟨s, t, hs, hexited, ht, (hnoticed (by decide) hcount).1, hend hflag hturns⟩

end Survival

end Aveo

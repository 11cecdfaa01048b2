import Mathlib.Algebra.Group.Int.Defs
import Mathlib.Algebra.Group.Nat.Defs
import Mathlib.Logic.Relation
import Mathlib.Data.List.Basic

/-!
# Labelled machines and their runs

A machine has initial states and a step function that a label makes deterministic: whatever the
environment or the scheduler chooses is in the label. A run is a sequence of steps, and a property
of every run is proved as an invariant. Runs may be restricted by a condition on their steps, so
that one development serves the results about all runs and those about the runs in which some
branch is not taken.
-/

namespace Aveo.Lib

/-- A machine whose steps are determined by their labels. -/
structure Machine (σ ℓ : Type) where
  init : σ → Prop
  step : σ → ℓ → Option σ

namespace Machine

variable {σ ℓ : Type} (M : Machine σ ℓ)

/-- A condition on the steps of a run: the state before, the label, and the state after. -/
abbrev Cond (σ ℓ : Type) := σ → ℓ → σ → Prop

/-- The condition that every step meets. -/
def anyStep : Cond σ ℓ := fun _ _ _ => True

/-- A run from one state to another whose steps all meet a condition. -/
inductive Steps (C : Cond σ ℓ) : σ → σ → Prop
  | refl (s : σ) : Steps C s s
  | tail {s t u : σ} {l : ℓ} : Steps C s t → M.step t l = some u → C t l u → Steps C s u

/-- The states that a run of steps meeting a condition reaches. -/
def Reachable (C : Cond σ ℓ) (s : σ) : Prop := ∃ s₀, M.init s₀ ∧ M.Steps C s₀ s

variable {M} {C C' : Cond σ ℓ} {s t u : σ} {l : ℓ}

theorem Steps.trans (hst : M.Steps C s t) (htu : M.Steps C t u) : M.Steps C s u := by
  induction htu with
  | refl => exact hst
  | tail _ hstep hC ih => exact .tail ih hstep hC

theorem Steps.mono (hC : ∀ s l s', C s l s' → C' s l s') (h : M.Steps C s t) : M.Steps C' s t := by
  induction h with
  | refl => exact .refl _
  | tail _ hstep hc ih => exact .tail ih hstep (hC _ _ _ hc)

theorem Reachable.init (h : M.init s) : M.Reachable C s := ⟨s, h, .refl s⟩

theorem Reachable.steps (hs : M.Reachable C s) (hst : M.Steps C s t) : M.Reachable C t := by
  obtain ⟨s₀, h0, hrun⟩ := hs
  exact ⟨s₀, h0, hrun.trans hst⟩

theorem Reachable.step (hs : M.Reachable C s) (hstep : M.step s l = some t) (hC : C s l t) :
    M.Reachable C t :=
  hs.steps (.tail (.refl s) hstep hC)

theorem Reachable.mono (hC : ∀ s l s', C s l s' → C' s l s') (h : M.Reachable C s) :
    M.Reachable C' s := by
  obtain ⟨s₀, h0, hrun⟩ := h
  exact ⟨s₀, h0, hrun.mono hC⟩

theorem Reachable.any (h : M.Reachable C s) : M.Reachable anyStep s :=
  h.mono fun _ _ _ _ => trivial

/-- What one step keeps, a run keeps. -/
theorem Steps.invariant {I : σ → Prop}
    (hstep : ∀ s l s', M.step s l = some s' → C s l s' → I s → I s')
    (hrun : M.Steps C s t) (hs : I s) : I t := by
  induction hrun with
  | refl => exact hs
  | tail _ hst hC ih => exact hstep _ _ _ hst hC ih

/-- What no step makes grow faster than `g`, no run does. -/
theorem Steps.telescope {I : σ → Prop} {f g : σ → Nat}
    (hstep : ∀ s l s', M.step s l = some s' → C s l s' → I s → I s' ∧ f s' + g s ≤ f s + g s')
    (hrun : M.Steps C s t) (hs : I s) : f t + g s ≤ f s + g t := by
  suffices h : I t ∧ f t + g s ≤ f s + g t from h.2
  induction hrun with
  | refl => exact ⟨hs, Nat.le_refl _⟩
  | tail _ hst hC ih =>
    obtain ⟨hI, hle⟩ := hstep _ _ _ hst hC ih.1
    exact ⟨hI, by omega⟩

/-- As long as there is a run on which a rank falls, there is one to the goal. -/
theorem exists_steps_of_rank {P Q : σ → Prop} (f : σ → Nat)
    (hP : ∀ s, P s → Q s ∨ ∃ t, M.Steps C s t ∧ P t ∧ f t < f s) (hs : P s) : ∃ t, M.Steps C s t ∧ P t ∧ Q t := by
  induction h : f s using Nat.strongRecOn generalizing s with
  | ind k ih =>
    rcases hP s hs with hQ | ⟨t, hst, ht, hlt⟩
    · exact ⟨s, .refl s, hs, hQ⟩
    · obtain ⟨u, htu, hu⟩ := ih (f t) (h ▸ hlt) ht rfl
      exact ⟨u, hst.trans htu, hu⟩

/-- What holds initially and is kept by every step from a reachable state holds in every reachable
state. The step may use invariants that were proved before. -/
theorem Reachable.invariant {I : σ → Prop} (hinit : ∀ s, M.init s → I s)
    (hstep : ∀ s l s', M.Reachable C s → M.step s l = some s' → C s l s' → I s → I s')
    (h : M.Reachable C s) : I s := by
  obtain ⟨s₀, h0, hrun⟩ := h
  suffices h : M.Reachable C s ∧ I s from h.2
  induction hrun with
  | refl => exact ⟨.init h0, hinit _ h0⟩
  | tail _ hst hC ih => exact ⟨ih.1.step hst hC, hstep _ _ _ ih.1 hst hC ih.2⟩

/-! ### Observers -/

section

variable {ω : Type} {o₀ : ω} {record : σ → ℓ → σ → ω → ω}

/-- The machine with the record that an observer makes of its steps. -/
def observe (M : Machine σ ℓ) (o₀ : ω) (record : σ → ℓ → σ → ω → ω) : Machine (σ × ω) ℓ where
  init p := M.init p.1 ∧ p.2 = o₀
  step p l := (M.step p.1 l).map fun s' => (s', record p.1 l s' p.2)

/-- A condition on the steps of the machine that is observed. -/
def Cond.observed (C : Cond σ ℓ) : Cond (σ × ω) ℓ := fun p l p' => C p.1 l p'.1

/-- What holds initially and is kept by every step with its record holds in every reachable state. -/
theorem Reachable.observed_invariant {I : σ → ω → Prop} {p : σ × ω} (hinit : ∀ s, M.init s → I s o₀)
    (hstep : ∀ s l s' o, (M.observe o₀ record).Reachable C.observed (s, o) → M.step s l = some s' → C s l s' → I s o →
      I s' (record s l s' o))
    (h : (M.observe o₀ record).Reachable C.observed p) : I p.1 p.2 := by
  refine h.invariant (I := fun p => I p.1 p.2) ?_ ?_
  · rintro ⟨s, o⟩ ⟨hs, ho⟩
    subst ho
    exact hinit s hs
  · rintro ⟨s, o⟩ l p' hr hst hC hI
    obtain ⟨s', hs', rfl⟩ := Option.map_eq_some_iff.mp hst
    exact hstep s l s' o hr hs' hC hI

/-- An observer does not change the runs. -/
theorem Reachable.of_observe {p : σ × ω} (h : (M.observe o₀ record).Reachable C.observed p) : M.Reachable C p.1 := by
  refine h.observed_invariant (I := fun s _ => M.Reachable C s) (fun s hs => .init hs) ?_
  intro s l s' o _ hs' hC hs
  exact hs.step hs' hC

end

/-! ### Runs given by their labels -/

/-- The state at the end of a list of labels, if every step of it is enabled. -/
def run (M : Machine σ ℓ) : σ → List ℓ → Option σ
  | s, [] => some s
  | s, l :: ls => (M.step s l).bind (M.run · ls)

theorem run_append (ls ls' : List ℓ) : M.run s (ls ++ ls') = (M.run s ls).bind (M.run · ls') := by
  induction ls generalizing s with
  | nil => rfl
  | cons l ls ih =>
    simp only [List.cons_append, run, Option.bind_assoc]
    exact congrArg _ (funext fun t => ih)

/-- A list of labels that reaches a state with a decidable property proves that the state is
reachable. The condition is checked along the run. -/
def runCond (M : Machine σ ℓ) (c : σ → ℓ → σ → Bool) : σ → List ℓ → Option σ
  | s, [] => some s
  | s, l :: ls => (M.step s l).bind fun s' => if c s l s' then M.runCond c s' ls else none

theorem steps_of_runCond {c : σ → ℓ → σ → Bool} (hc : ∀ s l s', c s l s' = true → C s l s') :
    ∀ {ls : List ℓ} {s t : σ}, M.runCond c s ls = some t → M.Steps C s t
  | [], s, t, h => by
      cases Option.some.inj h
      exact .refl s
  | l :: ls, s, t, h => by
      simp only [runCond, Option.bind_eq_some_iff] at h
      obtain ⟨s', hstep, hrest⟩ := h
      split at hrest
      · rename_i hcond
        exact (Steps.tail (.refl s) hstep (hc _ _ _ hcond)).trans (steps_of_runCond hc hrest)
      · cases hrest

theorem steps_of_run : ∀ {ls : List ℓ} {s t : σ}, M.run s ls = some t → M.Steps anyStep s t
  | [], s, t, h => by
      cases Option.some.inj h
      exact .refl s
  | l :: ls, s, t, h => by
      simp only [run, Option.bind_eq_some_iff] at h
      obtain ⟨s', hstep, hrest⟩ := h
      exact (Steps.tail (.refl s) hstep trivial).trans (steps_of_run hrest)

/-- Along a run, labels use up a rank until a goal is reached that no step leaves. -/
theorem run_uses_rank {I Q : σ → Prop} {f : σ → Nat} {p : ℓ → Bool}
    (hstep : ∀ s l s', M.step s l = some s' → I s → Q s' ∨ I s' ∧ f s' + (if p l then 1 else 0) ≤ f s)
    (hgoal : ∀ s l s', M.step s l = some s' → Q s → Q s') :
    ∀ {ls : List ℓ} {s t : σ}, M.run s ls = some t → I s → Q t ∨ I t ∧ f t + ls.countP p ≤ f s := by
  intro ls
  induction ls with
  | nil =>
    intro s t h hI
    cases Option.some.inj h
    exact .inr ⟨hI, Nat.le_refl _⟩
  | cons l ls ih =>
    intro s t h hI
    obtain ⟨u, hsu, hut⟩ := Option.bind_eq_some_iff.mp h
    rcases hstep s l u hsu hI with hQ | ⟨hI', hle⟩
    · exact .inl ((steps_of_run hut).invariant (fun s l s' hst _ => hgoal s l s' hst) hQ)
    · rcases ih hut hI' with hQ | ⟨hI'', hle'⟩
      · exact .inl hQ
      · refine .inr ⟨hI'', ?_⟩
        rw [List.countP_cons]
        omega

/-- A run that ends in a state where a decidable property holds reaches such a state. -/
theorem exists_reachable_of_run (ls : List ℓ) (p : σ → Bool) (hinit : M.init s)
    (h : (M.run s ls).map p = some true) : ∃ t, M.Reachable anyStep t ∧ p t = true := by
  obtain ⟨t, hrun, hp⟩ := Option.map_eq_some_iff.mp h
  exact ⟨t, ⟨s, hinit, steps_of_run hrun⟩, hp⟩

/-- A run of steps that meet a condition. -/
theorem exists_reachable_of_runCond {c : σ → ℓ → σ → Bool} (hc : ∀ s l s', c s l s' = true → C s l s') (ls : List ℓ)
    (p : σ → Bool) (hinit : M.init s) (h : (M.runCond c s ls).map p = some true) : ∃ t, M.Reachable C t ∧ p t = true := by
  obtain ⟨t, hrun, hp⟩ := Option.map_eq_some_iff.mp h
  exact ⟨t, ⟨s, hinit, steps_of_runCond hc hrun⟩, hp⟩

/-- A run and one step more. -/
theorem exists_step_of_run (ls : List ℓ) (l : ℓ) (p : σ → σ → Bool) (hinit : M.init s)
    (h : ((M.run s ls).bind fun a => (M.step a l).map (p a)) = some true) :
    ∃ a b, M.Reachable anyStep a ∧ M.step a l = some b ∧ p a b = true := by
  obtain ⟨a, ha, h⟩ := Option.bind_eq_some_iff.mp h
  obtain ⟨b, hb, hp⟩ := Option.map_eq_some_iff.mp h
  exact ⟨a, b, ⟨s, hinit, steps_of_run ha⟩, hb, hp⟩

/-- A run, one step, and a run of steps that meet a condition. -/
theorem exists_step_steps_of_run {c : σ → ℓ → σ → Bool} (hc : ∀ s l s', c s l s' = true → C s l s') (ls₀ : List ℓ) (l : ℓ)
    (ls₁ : List ℓ) (p : σ → σ → σ → Bool) (hinit : M.init s)
    (h : ((M.run s ls₀).bind fun a => (M.step a l).bind fun b => (M.runCond c b ls₁).map (p a b)) = some true) :
    ∃ a b d, M.Reachable anyStep a ∧ M.step a l = some b ∧ M.Steps C b d ∧ p a b d = true := by
  obtain ⟨a, ha, h⟩ := Option.bind_eq_some_iff.mp h
  obtain ⟨b, hb, h⟩ := Option.bind_eq_some_iff.mp h
  obtain ⟨d, hd, hp⟩ := Option.map_eq_some_iff.mp h
  exact ⟨a, b, d, ⟨s, hinit, steps_of_run ha⟩, hb, steps_of_runCond hc hd, hp⟩

/-- A run in three parts, the middle one of steps that meet a condition. -/
theorem exists_steps_of_run {c : σ → ℓ → σ → Bool} (hc : ∀ s l s', c s l s' = true → C s l s') (ls₀ ls₁ ls₂ : List ℓ)
    (p : σ → σ → σ → Bool) (hinit : M.init s)
    (h : ((M.run s ls₀).bind fun a => (M.runCond c a ls₁).bind fun b => (M.run b ls₂).map (p a b)) = some true) :
    ∃ a b d, M.Reachable anyStep a ∧ M.Steps C a b ∧ M.Steps anyStep b d ∧ p a b d = true := by
  obtain ⟨a, ha, h⟩ := Option.bind_eq_some_iff.mp h
  obtain ⟨b, hb, h⟩ := Option.bind_eq_some_iff.mp h
  obtain ⟨d, hd, hp⟩ := Option.map_eq_some_iff.mp h
  exact ⟨a, b, d, ⟨s, hinit, steps_of_run ha⟩, steps_of_runCond hc hb, steps_of_run hd, hp⟩

end Machine

/-! ### Threads in labels

Labels name threads by literals of `Fin`. With these instances such a literal is a term without a proof of its own. -/

instance (priority := 2000) neZeroSucc (n : Nat) : @NeZero Nat Zero.ofOfNat0 (n + 1) := ⟨Nat.succ_ne_zero n⟩

instance (priority := 2001) neZeroOne : @NeZero Nat Zero.ofOfNat0 1 := ⟨Nat.one_ne_zero⟩

instance (priority := 2001) neZeroTwo : @NeZero Nat Zero.ofOfNat0 2 := ⟨nofun⟩

end Aveo.Lib

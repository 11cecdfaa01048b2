import Mathlib.Data.List.Infix
import Mathlib.Data.List.Nodup
import Mathlib.Data.Set.Insert

/-!
# An in-order pipeline with barriers

Jobs are pushed, started in the order of the pushes, and finished in any order. A barrier is a job that
starts only when everything started before it has finished. This is what a queue of requests with
synchronising requests is for; an implementation refines it.
-/

namespace Aveo.Lib

structure Pipeline (α : Type) where
  pushed : List α
  started : List α
  finished : Set α

namespace Pipeline

variable {α : Type} {p p' : Pipeline α} {x y : α}

inductive Act (α : Type)
  | push (x : α)
  | start (x : α)
  | barrier (x : α)
  | finish (x : α)

inductive Step : Pipeline α → Act α → Pipeline α → Prop
  | push {p : Pipeline α} {x : α} (hfresh : x ∉ p.pushed) : Step p (.push x) { p with pushed := p.pushed ++ [x] }
  | start {p : Pipeline α} {x : α} {rest : List α} (hnext : p.pushed = p.started ++ x :: rest) :
      Step p (.start x) { p with started := p.started ++ [x] }
  | barrier {p : Pipeline α} {x : α} {rest : List α} (hnext : p.pushed = p.started ++ x :: rest)
      (hdone : ∀ y ∈ p.started, y ∈ p.finished) : Step p (.barrier x) { p with started := p.started ++ [x] }
  | finish {p : Pipeline α} {x : α} (hx : x ∈ p.started) : Step p (.finish x) { p with finished := insert x p.finished }

def empty : Pipeline α := { pushed := [], started := [], finished := ∅ }

/-- The pipelines that a run reaches. -/
inductive Run : Pipeline α → Prop
  | empty : Run empty
  | step {p p' : Pipeline α} {a : Act α} (hrun : Run p) (hstep : Step p a p') : Run p'

theorem Run.pushed_nodup (h : Run p) : p.pushed.Nodup := by
  induction h with
  | empty => exact List.nodup_nil
  | step hrun hstep ih =>
    cases hstep with
    | push hfresh => exact List.nodup_append'.mpr ⟨ih, List.nodup_singleton _, by simpa using hfresh⟩
    | start | barrier | finish => exact ih

/-- Jobs start in the order in which they were pushed, and none is left out. -/
theorem Run.started_prefix (h : Run p) : p.started <+: p.pushed := by
  induction h with
  | empty => exact List.prefix_refl _
  | step hrun hstep ih =>
    cases hstep with
    | push hfresh => exact ih.trans (List.prefix_append _ _)
    | @start x rest hnext | @barrier x rest hnext =>
      refine ⟨rest, ?_⟩
      rw [hnext, List.append_assoc]
      rfl
    | finish => exact ih

/-- One job was pushed before another. -/
def Precedes (l : List α) (y x : α) : Prop := ∃ l₁ l₂, l = l₁ ++ x :: l₂ ∧ y ∈ l₁

theorem Precedes.append {l : List α} (h : Precedes l y x) (l' : List α) : Precedes (l ++ l') y x := by
  obtain ⟨l₁, l₂, rfl, hy⟩ := h
  exact ⟨l₁, l₂ ++ l', by simp, hy⟩

theorem Precedes.mem {l : List α} (h : Precedes l y x) : y ∈ l ∧ x ∈ l := by
  obtain ⟨l₁, l₂, rfl, hy⟩ := h
  exact ⟨List.mem_append_left _ hy, List.mem_append_right _ List.mem_cons_self⟩

theorem precedes_of_mem_take {l : List α} {k : Nat} (hy : y ∈ l.take k) (hx : x ∈ l) (hnot : x ∉ l.take k) : Precedes l y x := by
  rw [← List.take_append_drop k l] at hx
  obtain ⟨u, v, hdrop⟩ := List.append_of_mem ((List.mem_append.mp hx).resolve_left hnot)
  refine ⟨l.take k ++ u, v, ?_, List.mem_append_left _ hy⟩
  rw [List.append_assoc, ← hdrop, List.take_append_drop]

/-- What is appended to a list comes after what was there. -/
theorem precedes_of_grows {l l' : List α} (h : l <+: l') (hy : y ∈ l) (hnot : x ∉ l) (hx : x ∈ l') : Precedes l' y x := by
  obtain ⟨m, rfl⟩ := h
  have htake : (l ++ m).take l.length = l := List.take_left
  exact precedes_of_mem_take (htake.symm ▸ hy) hx (htake.symm ▸ hnot)

/-- In a list without duplicates, what precedes an element is what stands before it. -/
theorem Precedes.mem_of_eq {l l₁ l₂ : List α} (hnodup : l.Nodup) (h : Precedes l y x) (heq : l = l₁ ++ x :: l₂) :
    y ∈ l₁ := by
  obtain ⟨k₁, k₂, hk, hy⟩ := h
  have hsame : k₁ = l₁ := by
    rw [hk] at heq hnodup
    rcases List.append_eq_append_iff.mp heq with ⟨m, hm, htail⟩ | ⟨m, hm, htail⟩
    · cases m with
      | nil => simpa using hm.symm
      | cons z m =>
        simp only [List.cons_append, List.cons.injEq] at htail
        rw [htail.2] at hnodup
        simp [List.nodup_append'] at hnodup
    · cases m with
      | nil => simpa using hm
      | cons z m =>
        simp only [List.cons_append, List.cons.injEq] at htail
        rw [hm, ← htail.1] at hnodup
        simp [List.nodup_append'] at hnodup
  rwa [← hsame]

theorem precedes_iff_sublist {l : List α} : Precedes l y x ↔ [y, x].Sublist l := by
  constructor
  · rintro ⟨l₁, l₂, rfl, hy⟩
    exact (List.singleton_sublist.mpr hy).append (List.singleton_sublist.mpr List.mem_cons_self)
  · intro h
    obtain ⟨r₁, r₂, rfl, hy, hx⟩ := List.cons_sublist_iff.mp h
    obtain ⟨u, v, rfl⟩ := List.append_of_mem (List.singleton_sublist.mp hx)
    exact ⟨r₁ ++ u, v, by rw [List.append_assoc], List.mem_append_left _ hy⟩

theorem Precedes.asymm {l : List α} (hnodup : l.Nodup) (h : Precedes l y x) : ¬ Precedes l x y := by
  rintro ⟨l₁, l₂, rfl, hx⟩
  obtain ⟨u, v, rfl⟩ := List.append_of_mem hx
  have heq : u ++ x :: v ++ y :: l₂ = u ++ x :: (v ++ y :: l₂) := by rw [List.append_assoc]; rfl
  have hy : y ∈ u := h.mem_of_eq hnodup heq
  exact (List.nodup_append'.mp hnodup).2.2 (List.mem_append_left _ hy) List.mem_cons_self

/-- What precedes an element of a list without duplicates does so in every initial part that has the element. -/
theorem Precedes.of_append {l l' : List α} (hnodup : (l ++ l').Nodup) (h : Precedes (l ++ l') y x) (hx : x ∈ l) :
    Precedes l y x := by
  obtain ⟨u, v, rfl⟩ := List.append_of_mem hx
  have heq : u ++ x :: v ++ l' = u ++ x :: (v ++ l') := by rw [List.append_assoc]; rfl
  exact ⟨u, v, rfl, h.mem_of_eq hnodup heq⟩

/-- What precedes a job that was started preceded it before the last step. -/
theorem Run.precedes_step (h : Run p) {a : Act α} (hstep : Step p a p') (hx : x ∈ p'.started) (hy : Precedes p'.pushed y x) :
    Precedes p.pushed y x := by
  have hnodup := (h.step hstep).pushed_nodup
  cases hstep with
  | push => exact hy.of_append hnodup (h.started_prefix.subset hx)
  | start | barrier | finish => exact hy

/-- When a job starts, whatever precedes it has been started. -/
theorem Run.precedes_start (h : Run p) {rest : List α} (hnext : p.pushed = p.started ++ x :: rest)
    (hy : Precedes p.pushed y x) : y ∈ p.started :=
  hy.mem_of_eq h.pushed_nodup hnext

/-- When a barrier starts, whatever precedes it has finished. -/
theorem Run.precedes_barrier (h : Run p) (hstep : Step p (.barrier x) p') (hy : Precedes p.pushed y x) :
    y ∈ p.finished := by
  cases hstep with
  | barrier hnext hdone => exact hdone y (h.precedes_start hnext hy)

/-- What stands between two members of a segment of a list without duplicates is in the segment. -/
theorem mem_of_between {a b c : List α} {z : α} (hnodup : (a ++ b ++ c).Nodup) (hxyz : [x, y, z].Sublist (a ++ b ++ c))
    (hx : x ∈ b) (hz : z ∈ b) : y ∈ b := by
  obtain ⟨hab, -, hdisj⟩ := List.nodup_append'.mp hnodup
  have hdisj' := (List.nodup_append'.mp hab).2.2
  have hxy : [x, y].Sublist (a ++ (b ++ c)) := by
    rw [← List.append_assoc]
    exact (List.sublist_append_left [x, y] [z]).trans hxyz
  have hyz : [y, z].Sublist (a ++ b ++ c) := (List.sublist_cons_self x [y, z]).trans hxyz
  -- The first of two members is in the left part of a cut, or both are in the right part.
  have hcut : ∀ {v w : α} {l r : List α}, [v, w].Sublist (l ++ r) → v ∈ l ∨ w ∈ r := by
    intro v w l r h
    obtain ⟨l₁, l₂, heq, hl, hr⟩ := List.sublist_append_iff.mp h
    cases l₁ with
    | nil =>
      rw [List.nil_append] at heq
      exact .inr (hr.subset (heq ▸ List.mem_cons_of_mem v List.mem_cons_self))
    | cons u l₁ =>
      rw [List.cons_append, List.cons.injEq] at heq
      exact .inl (hl.subset (heq.1 ▸ List.mem_cons_self))
  have hya : y ∈ b ++ c := (hcut hxy).resolve_left fun hmem => hdisj' hmem hx
  have hyb : y ∈ a ++ b := (hcut hyz).resolve_right fun hmem => hdisj (List.mem_append_right _ hz) hmem
  exact (List.mem_append.mp hya).resolve_right fun hmem => hdisj hyb hmem

end Pipeline

end Aveo.Lib

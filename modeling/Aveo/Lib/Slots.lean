import Mathlib.Data.List.Basic
import Mathlib.Data.List.ReduceOption

/-!
# Tables with holes

A vector of entries in which a removed entry leaves a hole, and a new entry takes the first hole or the end of the
vector. An entry is looked up by its value and known by its index from then on.
-/

namespace Aveo.Lib.Slots

variable {α : Type} [DecidableEq α]

/-- The index of an entry, as `std::find` finds it. -/
def find (t : List (Option α)) (a : α) : Option Nat := t.findIdx? (· = some a)

/-- The entry goes into the first hole, or to the end. -/
def put (t : List (Option α)) (a : α) : List (Option α) :=
  match t.findIdx? (· = none) with
  | some i => t.set i (some a)
  | none => t ++ [some a]

/-- The entry is replaced by a hole. -/
def remove (t : List (Option α)) (a : α) : List (Option α) :=
  match find t a with
  | some i => t.set i none
  | none => t

/-- No entry stands at two indices. -/
def Unique (t : List (Option α)) : Prop :=
  ∀ (i j : Nat) (a : α), t[i]? = some (some a) → t[j]? = some (some a) → i = j

variable {t : List (Option α)} {a b : α} {i j : Nat}

theorem find_eq_some_of (h : find t a = some i) : t[i]? = some (some a) := by
  obtain ⟨hi, hp, -⟩ := List.findIdx?_eq_some_iff_getElem.mp h
  rw [List.getElem?_eq_getElem hi]
  exact congrArg some (of_decide_eq_true hp)

theorem find_eq_none : find t a = none ↔ ∀ i : Nat, t[i]? ≠ some (some a) := by
  rw [find, List.findIdx?_eq_none_iff]
  constructor
  · intro h i hi
    simpa using h _ (List.mem_of_getElem? hi)
  · intro h x hx
    obtain ⟨i, hi⟩ := List.mem_iff_getElem?.mp hx
    refine decide_eq_false fun heq => h i ?_
    rw [hi, heq]

theorem find_eq_some (hu : Unique t) : find t a = some i ↔ t[i]? = some (some a) := by
  constructor
  · exact find_eq_some_of
  · intro hi
    cases hfind : find t a with
    | none => exact absurd hi (find_eq_none.mp hfind i)
    | some j => rw [hu j i a (find_eq_some_of hfind) hi]

omit [DecidableEq α] in
theorem unique_nil : Unique ([] : List (Option α)) := by
  intro i j a h
  simp at h

omit [DecidableEq α] in
/-- A new entry gets an index that no other entry has, and nothing else changes. -/
theorem put_spec (t : List (Option α)) (a : α) :
    ∃ i : Nat, (∀ b, t[i]? ≠ some (some b)) ∧
      ∀ (j : Nat) (b : α), (put t a)[j]? = some (some b) ↔ (j = i ∧ b = a) ∨ t[j]? = some (some b) := by
  unfold put
  cases hfind : t.findIdx? (· = none) with
  | some i =>
    obtain ⟨hi, hp, -⟩ := List.findIdx?_eq_some_iff_getElem.mp hfind
    have hhole : t[i]? = some none := by
      rw [List.getElem?_eq_getElem hi]
      exact congrArg some (of_decide_eq_true hp)
    refine ⟨i, fun b => by simp [hhole], fun j b => ?_⟩
    by_cases hij : j = i
    · subst hij
      simp [List.getElem?_set_self hi, hhole, eq_comm]
    · simp [List.getElem?_set_ne (Ne.symm hij), hij]
  | none =>
    refine ⟨t.length, fun b => by simp, fun j b => ?_⟩
    rcases Nat.lt_trichotomy j t.length with hlt | rfl | hgt
    · simp [List.getElem?_append_left hlt, Nat.ne_of_lt hlt]
    · simp [eq_comm]
    · simp [List.getElem?_eq_none (show (t ++ [some a]).length ≤ j by simp; omega),
        List.getElem?_eq_none (Nat.le_of_lt hgt), Nat.ne_of_gt hgt]

omit [DecidableEq α] in
theorem Unique.put (hu : Unique t) (hfresh : ∀ i : Nat, t[i]? ≠ some (some a)) : Unique (put t a) := by
  obtain ⟨i, -, hspec⟩ := put_spec t a
  intro j k b hj hk
  rcases (hspec j b).mp hj with ⟨hji, hba⟩ | hold
  · rcases (hspec k b).mp hk with ⟨hki, -⟩ | hold'
    · rw [hji, hki]
    · exact absurd (hba ▸ hold') (hfresh k)
  · rcases (hspec k b).mp hk with ⟨-, hba⟩ | hold'
    · exact absurd (hba ▸ hold) (hfresh j)
    · exact hu j k b hold hold'

/-- Removing an entry takes that entry only. -/
theorem remove_spec (hu : Unique t) (a : α) :
    (remove t a)[j]? = some (some b) ↔ t[j]? = some (some b) ∧ b ≠ a := by
  unfold remove
  cases hfind : find t a with
  | none =>
    refine ⟨fun h => ⟨h, ?_⟩, fun h => h.1⟩
    rintro rfl
    exact find_eq_none.mp hfind j h
  | some i =>
    have hi := find_eq_some_of hfind
    have hlt : i < t.length := (List.getElem?_eq_some_iff.mp hi).1
    by_cases hij : j = i
    · subst hij
      simp [List.getElem?_set_self hlt, hi, eq_comm]
    · simp only [List.getElem?_set_ne (Ne.symm hij)]
      refine ⟨fun h => ⟨h, ?_⟩, fun h => h.1⟩
      rintro rfl
      exact hij (hu j i b h hi)

theorem Unique.remove (hu : Unique t) (a : α) : Unique (remove t a) := fun i j b hi hj =>
  hu i j b ((remove_spec hu a).mp hi).1 ((remove_spec hu a).mp hj).1

omit [DecidableEq α] in
/-- A table with a hole does not grow. -/
theorem length_put_of_hole (h : none ∈ t) : (put t a).length = t.length := by
  unfold put
  cases hfind : t.findIdx? (· = none) with
  | some i => exact List.length_set
  | none =>
    have hnone := List.findIdx?_eq_none_iff.mp hfind none h
    simp at hnone

omit [DecidableEq α] in
/-- A table without a hole has as many entries as slots, and grows by one. -/
theorem length_put_of_full (h : none ∉ t) : (put t a).length = t.reduceOption.length + 1 := by
  have hall : t.reduceOption.length = t.length := by
    rw [List.reduceOption_length_eq_iff]
    intro x hx
    cases x with
    | none => exact absurd hx h
    | some a => rfl
  unfold put
  cases hfind : t.findIdx? (· = none) with
  | some i =>
    obtain ⟨hi, hp, -⟩ := List.findIdx?_eq_some_iff_getElem.mp hfind
    exact absurd (of_decide_eq_true hp ▸ List.getElem_mem hi) h
  | none => rw [List.length_append, List.length_singleton, hall]

omit [DecidableEq α] in
theorem Unique.nodup_reduceOption (hu : Unique t) : t.reduceOption.Nodup := by
  rw [List.reduceOption, List.Nodup, List.pairwise_filterMap, List.pairwise_iff_getElem]
  rintro i j hi hj hij a ha b hb rfl
  have heq := hu i j a (by rw [List.getElem?_eq_getElem hi, ← ha]; rfl) (by rw [List.getElem?_eq_getElem hj, ← hb]; rfl)
  omega

end Aveo.Lib.Slots

import Mathlib.Data.List.Nodup
import Mathlib.Data.Multiset.Basic

/-!
# The blocking map

`BlockingMap` of `Command.hpp`, an `unordered_map` behind a mutex. Each operation runs under the
mutex and is one step. The map has no duplicate key, and `insert` keeps the old entry when the key
is taken, so the new value is dropped without notice: this is where a command could get lost.
`wait` has no definition of its own: a thread in it is blocked while the key is absent and takes
the entry by `tryFind` once it is there, because every `insert` notifies under the same mutex.
-/

namespace Aveo

/-- An `unordered_map`: entries with pairwise distinct keys. -/
structure BlockingMap (κ ν : Type) where
  entries : List (κ × ν)
  nodupKeys : (entries.map Prod.fst).Nodup

namespace BlockingMap

variable {κ ν : Type}

def keys (m : BlockingMap κ ν) : List κ := m.entries.map Prod.fst

def values (m : BlockingMap κ ν) : List ν := m.entries.map Prod.snd

def empty : BlockingMap κ ν := ⟨[], List.nodup_nil⟩

def isEmpty (m : BlockingMap κ ν) : Bool := m.entries.isEmpty

variable [DecidableEq κ]

/-- `insert`: the entry is added unless its key is present already. -/
def insert (m : BlockingMap κ ν) (k : κ) (v : ν) : BlockingMap κ ν :=
  if h : k ∈ m.entries.map Prod.fst then m
  else ⟨(k, v) :: m.entries, List.nodup_cons.mpr ⟨h, m.nodupKeys⟩⟩

def find (m : BlockingMap κ ν) (k : κ) : Option ν := (m.entries.find? (·.1 = k)).map Prod.snd

def erase (m : BlockingMap κ ν) (k : κ) : BlockingMap κ ν :=
  ⟨m.entries.filter (·.1 ≠ k), (List.filter_sublist.map Prod.fst).nodup m.nodupKeys⟩

/-- `tryFind`: the entry is moved out of the map. -/
def tryFind (m : BlockingMap κ ν) (k : κ) : Option (ν × BlockingMap κ ν) :=
  (m.find k).map fun v => (v, m.erase k)

variable {m m' : BlockingMap κ ν} {k k' : κ} {v : ν}

omit [DecidableEq κ] in
@[simp] theorem keys_empty : (empty : BlockingMap κ ν).keys = [] := rfl

omit [DecidableEq κ] in
@[simp] theorem values_empty : (empty : BlockingMap κ ν).values = [] := rfl

omit [DecidableEq κ] in
theorem isEmpty_iff : m.isEmpty = true ↔ m.keys = [] := by
  simp [isEmpty, keys]

omit [DecidableEq κ] in
theorem isEmpty_iff_values : m.isEmpty = true ↔ m.values = [] := by
  simp [isEmpty, values]

theorem insert_of_mem (h : k ∈ m.keys) : m.insert k v = m := dif_pos h

theorem insert_entries (h : k ∉ m.keys) : (m.insert k v).entries = (k, v) :: m.entries := by
  change (dite _ _ _ : BlockingMap κ ν).entries = _
  rw [dif_neg (show ¬ k ∈ m.entries.map Prod.fst from h)]

@[simp] theorem keys_insert (h : k ∉ m.keys) : (m.insert k v).keys = k :: m.keys := by
  simp only [keys, insert_entries h, List.map_cons]

@[simp] theorem values_insert (h : k ∉ m.keys) : (m.insert k v).values = v :: m.values := by
  simp only [values, insert_entries h, List.map_cons]

theorem mem_keys_insert : k' ∈ (m.insert k v).keys ↔ k' = k ∨ k' ∈ m.keys := by
  by_cases h : k ∈ m.keys
  · rw [insert_of_mem h]
    constructor
    · exact Or.inr
    · rintro (rfl | h')
      · exact h
      · exact h'
  · rw [keys_insert h, List.mem_cons]

theorem find_eq_some : m.find k = some v ↔ (k, v) ∈ m.entries := by
  unfold find
  constructor
  · intro h
    obtain ⟨⟨k₁, v₁⟩, hfind, rfl⟩ := Option.map_eq_some_iff.mp h
    have hk : k₁ = k := by simpa using List.find?_some hfind
    subst hk
    exact List.mem_of_find?_eq_some hfind
  · intro h
    have hsome : (m.entries.find? (·.1 = k)).isSome := by
      rw [List.find?_isSome]
      exact ⟨(k, v), h, by simp⟩
    obtain ⟨⟨k₁, v₁⟩, hfind⟩ := Option.isSome_iff_exists.mp hsome
    have hk : k₁ = k := by simpa using List.find?_some hfind
    subst hk
    have hmem := List.mem_of_find?_eq_some hfind
    have heq : (k₁, v₁) = (k₁, v) := List.inj_on_of_nodup_map m.nodupKeys hmem h rfl
    rw [hfind]
    simp [(Prod.mk.inj heq).2]

theorem find_eq_none : m.find k = none ↔ k ∉ m.keys := by
  rw [find, keys, Option.map_eq_none_iff, List.find?_eq_none, List.mem_map]
  constructor
  · rintro h ⟨e, he, hk⟩
    exact h e he (by simpa using hk)
  · intro h e he hk
    exact h ⟨e, he, by simpa using hk⟩

theorem tryFind_eq_none : m.tryFind k = none ↔ k ∉ m.keys := by
  rw [tryFind, Option.map_eq_none_iff, find_eq_none]

theorem tryFind_eq_some : m.tryFind k = some (v, m') ↔ (k, v) ∈ m.entries ∧ m' = m.erase k := by
  simp only [tryFind, Option.map_eq_some_iff, Prod.mk.injEq, find_eq_some]
  constructor
  · rintro ⟨w, hw, rfl, rfl⟩
    exact ⟨hw, rfl⟩
  · rintro ⟨hv, rfl⟩
    exact ⟨v, hv, rfl, rfl⟩

omit [DecidableEq κ] in
theorem mem_keys_of_entry (h : (k, v) ∈ m.entries) : k ∈ m.keys :=
  List.mem_map.mpr ⟨_, h, rfl⟩

omit [DecidableEq κ] in
theorem mem_values_of_entry (h : (k, v) ∈ m.entries) : v ∈ m.values :=
  List.mem_map.mpr ⟨_, h, rfl⟩

theorem mem_keys_erase : k' ∈ (m.erase k).keys ↔ k' ∈ m.keys ∧ k' ≠ k := by
  simp only [keys, erase, List.mem_map, List.mem_filter, decide_not, Bool.not_eq_eq_eq_not, Bool.not_true,
    decide_eq_false_iff_not, Prod.exists, exists_and_right, exists_eq_right]

theorem mem_entries_erase {e : κ × ν} : e ∈ (m.erase k).entries ↔ e ∈ m.entries ∧ e.1 ≠ k := by
  simp [erase]

/-- Moving an entry out takes exactly that entry. -/
theorem entries_perm_erase (h : (k, v) ∈ m.entries) : m.entries.Perm ((k, v) :: (m.erase k).entries) := by
  obtain ⟨l, hnd⟩ := m
  induction l with
  | nil => cases h
  | cons e l ih =>
    obtain ⟨hhead, htail⟩ := List.nodup_cons.mp hnd
    rcases List.mem_cons.mp h with heq | hmem
    · subst heq
      have hrest : (l.filter fun x => decide (x.1 ≠ k)) = l := by
        rw [List.filter_eq_self]
        intro x hx
        have : x.1 ≠ k := fun hk => hhead (List.mem_map.mpr ⟨x, hx, hk⟩)
        simpa using this
      simp only [erase, List.filter_cons, ne_eq, not_true_eq_false, decide_false, Bool.false_eq_true, if_false]
      rw [hrest]
    · have hne : e.1 ≠ k := fun hk => hhead (List.mem_map.mpr ⟨_, hmem, hk.symm⟩)
      have hperm := ih htail hmem
      simp only [erase, List.filter_cons, ne_eq, hne, not_false_eq_true, decide_true, if_true] at hperm ⊢
      exact (List.Perm.cons e hperm).trans (List.Perm.swap _ _ _)

theorem keys_perm_erase (h : (k, v) ∈ m.entries) : m.keys.Perm (k :: (m.erase k).keys) :=
  (entries_perm_erase h).map Prod.fst

theorem values_perm_erase (h : (k, v) ∈ m.entries) : m.values.Perm (v :: (m.erase k).values) :=
  (entries_perm_erase h).map Prod.snd

end BlockingMap

end Aveo

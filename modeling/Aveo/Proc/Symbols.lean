import Aveo.Lib.Machine
import Aveo.Queue.Command
import Mathlib.Data.List.Nodup

/-!
# The cache of symbol addresses

`getSym` looks a symbol up in `sym_name`, asks the VE if it is not there, and inserts the answer; `unloadLibrary` clears
the entries of the library and then sends its request. Each access to `sym_name` runs under `sym_mtx` and is one step,
except that the entry of a hit is read after the mutex was released. The VE serves the requests in the order in which
they were queued, and its clock counts them, so that an address carries the time at which it was resolved.
-/

namespace Aveo

open Lib

/-- An address with the time at which the VE resolved it. -/
structure Resolved where
  addr : Word
  time : Nat
  deriving DecidableEq

/-- Where a thread is in `getSym` or `unloadLibrary`. -/
inductive SymPc
  | idle
  /-- At the reading of the entry that was found. -/
  | hit (libhdl : Word) (symname : String)
  /-- At the request for a symbol that was not found. -/
  | missed (libhdl : Word) (symname : String)
  /-- In `callWaitResult` for GETSYM. -/
  | resolving (libhdl : Word) (symname : String)
  /-- After `callWaitResult`, with the status and the answer of the VE if there is one. -/
  | resolved (libhdl : Word) (symname : String) (rv : CommandState) (answer : Option Resolved)
  /-- At the request to unload, with the entries cleared. -/
  | cleared (handle : Word)
  /-- In `callWaitResult` for UNLOADLIB. -/
  | unloading (handle : Word)
  /-- After `callWaitResult`, with the status, the result and the time at which the VE unloaded the library, if it did. -/
  | unloaded (handle : Word) (rv : CommandState) (result : Word) (time : Option Nat)
  deriving DecidableEq

/-- A request in the queue of the main context. -/
inductive SymRequest
  | getsym (libhdl : Word) (symname : String)
  | unloadlib (handle : Word)
  deriving DecidableEq

/-- A call returned: `getSym` with an address or with zero, `unloadLibrary` with a result. -/
inductive SymEvent
  | found (libhdl : Word) (symname : String) (answer : Option Resolved)
  | unloaded (handle : Word) (result : BitVec 32) (time : Option Nat)
  deriving DecidableEq

/-- The cache and the threads that use it. `dangling` is set if the entry of a hit was erased before it was read. -/
structure Symbols (n : Nat) where
  symName : Word × String → Option Resolved
  pc : Fin n → SymPc
  queue : List (Fin n × SymRequest)
  time : Nat
  dangling : Bool
  log : List SymEvent

/-- `VEO_SYMNAME_LEN_MAX`. -/
def symnameLenMax : Nat := 255

namespace Symbols

variable {n : Nat}

def new (n : Nat) : Symbols n :=
  { symName := fun _ => none, pc := fun _ => .idle, queue := [], time := 0, dangling := false, log := [] }

def setPc (s : Symbols n) (t : Fin n) (p : SymPc) : Symbols n := { s with pc := Function.update s.pc t p }

def emit (s : Symbols n) (e : SymEvent) : Symbols n := { s with log := s.log ++ [e] }

/-- The entries of a library are erased. -/
def clear (s : Symbols n) (handle : Word) : Symbols n :=
  { s with symName := fun key => if key.1 = handle then none else s.symName key }

/-- A thread calls a function or goes on in it, the VE serves a request, or a request fails: it is not accepted, or its
command is completed with another status than OK, before or after it was served. The value is 0 if the command was
cancelled and -1 if URPC refused it. -/
inductive Label (n : Nat)
  | getSym (t : Fin n) (libhdl : Word) (symname : String)
  | unloadLibrary (t : Fin n) (handle : Word)
  | request (t : Fin n)
  | refuse (t : Fin n)
  | serve (val : Word)
  | fail (t : Fin n) (rv : CommandState) (retval : Word)
  | goOn (t : Fin n)
  deriving DecidableEq

def step (s : Symbols n) : Label n → Option (Symbols n)
  | .getSym t libhdl symname =>
      if s.pc t ≠ .idle then none
      else if symnameLenMax < symname.utf8ByteSize then some s -- an exception
      else
        match s.symName (libhdl, symname) with
        | some _ => some (s.setPc t (.hit libhdl symname))
        | none => some (s.setPc t (.missed libhdl symname))
  | .unloadLibrary t handle => if s.pc t ≠ .idle then none else some ((s.clear handle).setPc t (.cleared handle))
  | .request t =>
      match s.pc t with
      | .missed libhdl symname =>
          some ({ s with queue := s.queue ++ [(t, SymRequest.getsym libhdl symname)] }.setPc t (.resolving libhdl symname))
      | .cleared handle => some ({ s with queue := s.queue ++ [(t, SymRequest.unloadlib handle)] }.setPc t (.unloading handle))
      | _ => none
  | .refuse t =>
      match s.pc t with
      | .missed libhdl symname => some (s.setPc t (.resolved libhdl symname .error none))
      | .cleared handle => some (s.setPc t (.unloaded handle .error (-1) none))
      | _ => none
  | .serve val =>
      match s.queue with
      | [] => none
      | (t, .getsym libhdl symname) :: rest =>
          some ({ s with queue := rest, time := s.time + 1 }.setPc t (.resolved libhdl symname .ok (some ⟨val, s.time + 1⟩)))
      | (t, .unloadlib handle) :: rest =>
          some ({ s with queue := rest, time := s.time + 1 }.setPc t (.unloaded handle .ok val (some (s.time + 1))))
  | .fail t rv retval =>
      if rv = .ok then none
      else
        match s.pc t with
        | .resolving libhdl symname =>
            some ({ s with queue := s.queue.filter (·.1 ≠ t) }.setPc t (.resolved libhdl symname rv none))
        | .resolved libhdl symname _ _ => some (s.setPc t (.resolved libhdl symname rv none))
        | .unloading handle =>
            some ({ s with queue := s.queue.filter (·.1 ≠ t) }.setPc t (.unloaded handle rv retval none))
        | .unloaded handle _ _ time => some (s.setPc t (.unloaded handle rv retval time))
        | _ => none
  | .goOn t =>
      match s.pc t with
      | .hit libhdl symname =>
          match s.symName (libhdl, symname) with
          | some e => some ((s.emit (.found libhdl symname (some e))).setPc t .idle)
          | none => some ({ s with dangling := true }.setPc t .idle)
      | .resolved libhdl symname rv answer =>
          match answer with
          | some e =>
              if rv ≠ .ok ∨ e.addr = 0 then some ((s.emit (.found libhdl symname none)).setPc t .idle)
              else
                some (({ s with symName := Function.update s.symName (libhdl, symname) (some e) }.emit
                  (.found libhdl symname (some e))).setPc t .idle)
          | none => some ((s.emit (.found libhdl symname none)).setPc t .idle)
      | .unloaded handle _ result time => some ((s.emit (.unloaded handle (result.setWidth 32) time)).setPc t .idle)
      | _ => none

end Symbols

/-- The machine of the cache with `n` threads. -/
def symbolCache (n : Nat) : Machine (Symbols n) (Symbols.Label n) where
  init s := s = .new n
  step := Symbols.step

namespace SymPc

/-- The library of a `getSym` in progress. -/
def getting : SymPc → Option Word
  | .hit h _ | .missed h _ | .resolving h _ | .resolved h _ _ _ => some h
  | _ => none

/-- The library of an `unloadLibrary` that has cleared the entries and whose request the VE has yet to serve. -/
def unloads : SymPc → Option Word
  | .cleared h | .unloading h => some h
  | _ => none

def waits : SymPc → Bool
  | .resolving _ _ | .unloading _ => true
  | _ => false

/-- The entry that a hit has to read. -/
def entry : SymPc → Option (Word × String)
  | .hit h name => some (h, name)
  | _ => none

/-- The library of an address that was resolved and is yet to be inserted, with the time. -/
def answered : SymPc → Option (Word × Nat)
  | .resolved h _ _ (some e) => some (h, e.time)
  | _ => none

/-- The library that was unloaded by an `unloadLibrary` that has yet to return, with the time. -/
def served : SymPc → Option (Word × Nat)
  | .unloaded h _ _ (some p) => some (h, p)
  | _ => none

variable {p : SymPc} {h h' : Word} {name : String} {q : Nat}

theorem getting_ne_of_unloads (hp : p.unloads = some h) : p.getting ≠ some h' := by
  unfold unloads at hp
  split at hp <;> cases hp <;> exact nofun

theorem getting_of_entry (hp : p.entry = some (h, name)) : p.getting = some h := by
  cases p <;> cases hp
  rfl

theorem getting_of_answered (hp : p.answered = some (h, q)) : p.getting = some h := by
  unfold answered at hp
  split at hp <;> cases hp
  rfl

end SymPc

/-- Where the thread of a request in the queue is. -/
def SymRequest.waiting : SymRequest → SymPc
  | .getsym h name => .resolving h name
  | .unloadlib h => .unloading h

theorem SymRequest.waits_waiting (r : SymRequest) : r.waiting.waits = true := by cases r <;> rfl

namespace Symbols

variable {n : Nat}

/-- The entries of a library are not cleared while one of its symbols is being looked up, and no lookup for a library
starts between the clearing and the unloading. -/
def noOverlap : Machine.Cond (Symbols n) (Label n) := fun s l _ =>
  match l with
  | .unloadLibrary _ handle => ∀ t, (s.pc t).getting ≠ some handle
  | .getSym _ libhdl _ => ∀ t, (s.pc t).unloads ≠ some libhdl
  | _ => True

variable {s s' : Symbols n} {l : Label n} {t : Fin n} {C : Machine.Cond (Symbols n) (Label n)}

/-! ### The queue -/

/-- The threads of the requests in the queue wait for them, each for one. -/
structure Queued (s : Symbols n) : Prop where
  waiting : ∀ t r, (t, r) ∈ s.queue → s.pc t = r.waiting
  nodup : (s.queue.map Prod.fst).Nodup

/-- A thread that is not in the queue moves. -/
theorem Queued.move (hq : s.Queued) {p : SymPc} (hqueue : s'.queue = s.queue) (hpc : s'.pc = Function.update s.pc t p)
    (hout : (s.pc t).waits = false) : s'.Queued := by
  refine ⟨fun t' r hmem => ?_, hqueue ▸ hq.nodup⟩
  have hwait := hq.waiting t' r (hqueue ▸ hmem)
  have hne : t' ≠ t := by
    rintro rfl
    rw [hwait, r.waits_waiting] at hout
    cases hout
  rw [hpc, Function.update_of_ne hne, hwait]

theorem Queued.push (hq : s.Queued) {r : SymRequest} (hqueue : s'.queue = s.queue ++ [(t, r)])
    (hpc : s'.pc = Function.update s.pc t r.waiting) (hout : (s.pc t).waits = false) : s'.Queued := by
  have hnot : ∀ r', (t, r') ∉ s.queue := by
    intro r' hmem
    rw [hq.waiting t r' hmem, r'.waits_waiting] at hout
    cases hout
  constructor
  · intro t' r' hmem
    rw [hqueue, List.mem_append, List.mem_singleton] at hmem
    obtain hmem | heq := hmem
    · have hne : t' ≠ t := fun heq => hnot r' (heq ▸ hmem)
      rw [hpc, Function.update_of_ne hne, hq.waiting t' r' hmem]
    · cases heq
      rw [hpc, Function.update_self]
  · rw [hqueue, List.map_append, List.nodup_append]
    refine ⟨hq.nodup, List.nodup_singleton _, ?_⟩
    rintro t' ht' _ hsingle rfl
    obtain ⟨⟨t', r'⟩, hmem, rfl⟩ := List.mem_map.mp ht'
    cases List.mem_singleton.mp hsingle
    exact hnot r' hmem

/-- The requests of a thread leave the queue, and it moves. -/
theorem Queued.drop (hq : s.Queued) {p : SymPc} (hsub : s'.queue.Sublist s.queue) (hout : ∀ r, (t, r) ∉ s'.queue)
    (hpc : s'.pc = Function.update s.pc t p) : s'.Queued := by
  refine ⟨fun t' r hmem => ?_, hq.nodup.sublist (hsub.map _)⟩
  have hne : t' ≠ t := fun heq => hout r (heq ▸ hmem)
  rw [hpc, Function.update_of_ne hne, hq.waiting t' r (hsub.subset hmem)]

/-! ### What a step does -/

/-- What a step does to the cache, the clock and the log, and to the thread that moves. -/
inductive Effect (s : Symbols n) (l : Label n) (s' : Symbols n) : Prop
  | none (hs' : s' = s)
  /-- A lookup starts. -/
  | lookup (t : Fin n) (h : Word) (name : String) (hl : l = .getSym t h name) (hpc : s.pc t = .idle) (p : SymPc)
      (hp : p = .missed h name ∨ p = .hit h name ∧ (s.symName (h, name)).isSome) (hs' : s' = s.setPc t p)
  | clear (t : Fin n) (h : Word) (hl : l = .unloadLibrary t h) (hpc : s.pc t = .idle)
      (hs' : s' = (s.clear h).setPc t (.cleared h))
  /-- A thread goes on to or comes from its request without an answer, or loses the answer. -/
  | goesOn (t : Fin n) (p : SymPc) (queue : List (Fin n × SymRequest)) (hget : p.getting = (s.pc t).getting)
      (hunloads : p.unloads = none ∨ p.unloads = (s.pc t).unloads) (hentry : p.entry = none)
      (hanswered : p.answered = none) (hserved : p.served = none ∨ p.served = (s.pc t).served)
      (hqueued : s.Queued → s'.Queued) (hs' : s' = { s with queue := queue }.setPc t p)
  | serve (t : Fin n) (h : Word) (name : String) (val : Word) (rest : List (Fin n × SymRequest))
      (hqueue : s.queue = (t, .getsym h name) :: rest)
      (hs' : s' = { s with queue := rest, time := s.time + 1 }.setPc t (.resolved h name .ok (some ⟨val, s.time + 1⟩)))
  | serveUnload (t : Fin n) (h : Word) (val : Word) (rest : List (Fin n × SymRequest))
      (hqueue : s.queue = (t, .unloadlib h) :: rest)
      (hs' : s' = { s with queue := rest, time := s.time + 1 }.setPc t (.unloaded h .ok val (some (s.time + 1))))
  /-- The entry of a hit is read. -/
  | read (t : Fin n) (h : Word) (name : String) (e : Resolved) (hpc : s.pc t = .hit h name)
      (he : s.symName (h, name) = some e) (hs' : s' = (s.emit (.found h name (some e))).setPc t .idle)
  | dangle (t : Fin n) (h : Word) (name : String) (hpc : s.pc t = .hit h name) (he : s.symName (h, name) = .none)
      (hs' : s' = { s with dangling := true }.setPc t .idle)
  | notFound (t : Fin n) (h : Word) (name : String) (hpc : (s.pc t).getting = some h ∧ (s.pc t).waits = false)
      (hs' : s' = (s.emit (.found h name .none)).setPc t .idle)
  | insert (t : Fin n) (h : Word) (name : String) (e : Resolved) (hpc : s.pc t = .resolved h name .ok (some e))
      (hs' : s' = ({ s with symName := Function.update s.symName (h, name) (some e) }.emit
        (.found h name (some e))).setPc t .idle)
  | unloaded (t : Fin n) (h : Word) (rv : CommandState) (result : Word) (time : Option Nat)
      (hpc : s.pc t = .unloaded h rv result time)
      (hs' : s' = (s.emit (.unloaded h (result.setWidth 32) time)).setPc t .idle)

theorem effect (hstep : s.step l = some s') : Effect s l s' := by
  cases l with
  | getSym t h name =>
    simp only [step] at hstep
    split at hstep
    · cases hstep
    · rename_i hpc
      split at hstep
      · exact .none (Option.some.inj hstep).symm
      · split at hstep
        · rename_i e he
          exact .lookup t h name rfl (not_not.mp hpc) _ (.inr ⟨rfl, by rw [he]; rfl⟩) (Option.some.inj hstep).symm
        · exact .lookup t h name rfl (not_not.mp hpc) _ (.inl rfl) (Option.some.inj hstep).symm
  | unloadLibrary t h =>
    simp only [step] at hstep
    split at hstep
    · cases hstep
    · rename_i hpc
      exact .clear t h rfl (not_not.mp hpc) (Option.some.inj hstep).symm
  | request t =>
    simp only [step] at hstep
    split at hstep
    · rename_i h name hpc
      cases hstep
      exact .goesOn t _ _ (by rw [hpc]; rfl) (.inl rfl) rfl rfl (.inl rfl)
        (fun hq => hq.push rfl rfl (by rw [hpc]; rfl)) rfl
    · rename_i h hpc
      cases hstep
      exact .goesOn t _ _ (by rw [hpc]; rfl) (.inr (by rw [hpc]; rfl)) rfl rfl (.inl rfl)
        (fun hq => hq.push rfl rfl (by rw [hpc]; rfl)) rfl
    · cases hstep
  | refuse t =>
    simp only [step] at hstep
    split at hstep
    · rename_i h name hpc
      cases hstep
      exact .goesOn t _ s.queue (by rw [hpc]; rfl) (.inl rfl) rfl rfl (.inl rfl)
        (fun hq => hq.move rfl rfl (by rw [hpc]; rfl)) rfl
    · rename_i h hpc
      cases hstep
      exact .goesOn t _ s.queue (by rw [hpc]; rfl) (.inl rfl) rfl rfl (.inl rfl)
        (fun hq => hq.move rfl rfl (by rw [hpc]; rfl)) rfl
    · cases hstep
  | serve val =>
    simp only [step] at hstep
    split at hstep
    · cases hstep
    · rename_i t h name rest hqueue
      exact .serve t h name val rest hqueue (Option.some.inj hstep).symm
    · rename_i t h rest hqueue
      exact .serveUnload t h val rest hqueue (Option.some.inj hstep).symm
  | fail t rv retval =>
    have hfilter : ∀ r, (t, r) ∉ s.queue.filter (·.1 ≠ t) := fun r hmem => by simp at hmem
    simp only [step] at hstep
    split at hstep
    · cases hstep
    · split at hstep
      · rename_i h name hpc
        cases hstep
        exact .goesOn t _ _ (by rw [hpc]; rfl) (.inl rfl) rfl rfl (.inl rfl)
          (fun hq => hq.drop List.filter_sublist hfilter rfl) rfl
      · rename_i h name _ _ hpc
        cases hstep
        exact .goesOn t _ s.queue (by rw [hpc]; rfl) (.inl rfl) rfl rfl (.inl rfl)
          (fun hq => hq.move rfl rfl (by rw [hpc]; rfl)) rfl
      · rename_i h hpc
        cases hstep
        exact .goesOn t _ _ (by rw [hpc]; rfl) (.inl rfl) rfl rfl (.inl rfl)
          (fun hq => hq.drop List.filter_sublist hfilter rfl) rfl
      · rename_i h _ _ time hpc
        cases hstep
        exact .goesOn t _ s.queue (by rw [hpc]; rfl) (.inl rfl) rfl rfl (.inr (by rw [hpc]; cases time <;> rfl))
          (fun hq => hq.move rfl rfl (by rw [hpc]; rfl)) rfl
      · cases hstep
  | goOn t =>
    simp only [step] at hstep
    split at hstep
    · rename_i h name hpc
      split at hstep
      · rename_i e he
        exact .read t h name e hpc he (Option.some.inj hstep).symm
      · rename_i he
        exact .dangle t h name hpc he (Option.some.inj hstep).symm
    · rename_i h name rv answer hpc
      have hgetting : (s.pc t).getting = some h ∧ (s.pc t).waits = false := by
        rw [hpc]
        exact ⟨rfl, rfl⟩
      split at hstep
      · rename_i e
        split at hstep
        · exact .notFound t h name hgetting (Option.some.inj hstep).symm
        · rename_i hgood
          rw [not_or, not_not] at hgood
          exact .insert t h name e (hgood.1 ▸ hpc) (Option.some.inj hstep).symm
      · exact .notFound t h name hgetting (Option.some.inj hstep).symm
    · rename_i h rv result time hpc
      exact .unloaded t h rv result time hpc (Option.some.inj hstep).symm
    · cases hstep

theorem Queued.step (hq : s.Queued) (hstep : s.step l = some s') : s'.Queued := by
  have hhead : ∀ {t r rest}, s.queue = (t, r) :: rest → ∀ r', (t, r') ∉ rest := by
    intro t r rest hqueue r' hmem
    have hnodup := hq.nodup
    rw [hqueue, List.map_cons, List.nodup_cons] at hnodup
    exact hnodup.1 (List.mem_map.mpr ⟨(t, r'), hmem, rfl⟩)
  cases effect hstep with
  | none hs' => exact hs' ▸ hq
  | lookup t h name hl hpc p hp hs' => exact hs' ▸ hq.move rfl rfl (by rw [hpc]; rfl)
  | clear t h hl hpc hs' => exact hs' ▸ hq.move rfl rfl (by rw [hpc]; rfl)
  | goesOn t p queue hget hunloads hentry hanswered hserved hqueued => exact hqueued hq
  | serve t h name val rest hqueue hs' =>
    exact hs' ▸ hq.drop (hqueue ▸ List.sublist_cons_self ..) (hhead hqueue) rfl
  | serveUnload t h val rest hqueue hs' =>
    exact hs' ▸ hq.drop (hqueue ▸ List.sublist_cons_self ..) (hhead hqueue) rfl
  | read t h name e hpc he hs' => exact hs' ▸ hq.move rfl rfl (by rw [hpc]; rfl)
  | dangle t h name hpc he hs' => exact hs' ▸ hq.move rfl rfl (by rw [hpc]; rfl)
  | notFound t h name hpc hs' => exact hs' ▸ hq.move rfl rfl hpc.2
  | insert t h name e hpc hs' => exact hs' ▸ hq.move rfl rfl (by rw [hpc]; rfl)
  | unloaded t h rv result time hpc hs' => exact hs' ▸ hq.move rfl rfl (by rw [hpc]; rfl)

theorem Queued.of_reachable (hs : (symbolCache n).Reachable C s) : s.Queued := by
  refine hs.invariant (I := Queued) ?_ fun s l s' _ hstep _ hq => hq.step hstep
  rintro s rfl
  exact ⟨fun _ _ hmem => (List.not_mem_nil hmem).elim, List.nodup_nil⟩

/-! ### Addresses and unloadings -/

/-- The VE has unloaded a library at a time, and the call has returned or is about to. -/
def Unloaded (s : Symbols n) (h : Word) (p : Nat) : Prop :=
  (∃ t, (s.pc t).served = some (h, p)) ∨ ∃ result, .unloaded h result (some p) ∈ s.log

/-- Every address of a library in the cache or on its way there was resolved after a time. -/
structure Fresh (s : Symbols n) (h : Word) (p : Nat) : Prop where
  clock : p ≤ s.time
  cached : ∀ name e, s.symName (h, name) = some e → p < e.time
  answered : ∀ t q, (s.pc t).answered = some (h, q) → p < q

/-- In the log, no address of a library that was resolved before the library was unloaded comes after the unloading. -/
def InOrder : SymEvent → SymEvent → Prop
  | .unloaded h _ (some p), .found h' _ (some e) => h = h' → p < e.time
  | _, _ => True

structure Coherent (s : Symbols n) : Prop where
  apart : ∀ t t' h, (s.pc t).unloads = some h → (s.pc t').getting ≠ some h
  empty : ∀ t h, (s.pc t).unloads = some h → ∀ name, s.symName (h, name) = none
  found : ∀ t h name, (s.pc t).entry = some (h, name) → (s.symName (h, name)).isSome
  fresh : ∀ h p, s.Unloaded h p → s.Fresh h p
  ordered : s.log.Pairwise InOrder
  defined : s.dangling = false

section

variable {p : SymPc} {h : Word} {name : String}

/-- What is seen of a thread after a step, it has from the step or had before. -/
theorem view_update {α : Type} {f : SymPc → Option α} {a : α} {t' : Fin n} (hpc : s'.pc = Function.update s.pc t p)
    (hview : f (s'.pc t') = some a) : f p = some a ∨ f (s.pc t') = some a := by
  rw [hpc] at hview
  by_cases heq : t' = t
  · rw [heq, Function.update_self] at hview
    exact .inl hview
  · rw [Function.update_of_ne heq] at hview
    exact .inr hview

/-- A thread moves without a return, entries are only erased, and what is new agrees with the rest of the state. -/
structure Agrees (s s' : Symbols n) (t : Fin n) (p : SymPc) : Prop where
  pc : s'.pc = Function.update s.pc t p
  log : s'.log = s.log
  dangling : s'.dangling = s.dangling
  clock : s.time ≤ s'.time
  cached : ∀ key e, s'.symName key = some e → s.symName key = some e
  getting : ∀ h, p.getting = some h → ∀ t', (s.pc t').unloads ≠ some h
  unloads : ∀ h, p.unloads = some h → (∀ t', (s.pc t').getting ≠ some h) ∧ ∀ name, s'.symName (h, name) = none
  entry : ∀ t' h name, (s'.pc t').entry = some (h, name) → (s'.symName (h, name)).isSome
  answered : ∀ h q, p.answered = some (h, q) → ∀ r, s.Unloaded h r → r < q
  served : ∀ h q, p.served = some (h, q) → s'.Fresh h q

theorem Agrees.unloaded (ha : Agrees s s' t p) {q : Nat} (hu : s'.Unloaded h q) : p.served = some (h, q) ∨ s.Unloaded h q := by
  obtain ⟨t', ht'⟩ | ⟨v, hmem⟩ := hu
  · exact (view_update ha.pc ht').imp_right fun ht' => .inl ⟨t', ht'⟩
  · exact .inr (.inr ⟨v, ha.log ▸ hmem⟩)

theorem Coherent.of_agrees (hc : s.Coherent) (ha : Agrees s s' t p) : s'.Coherent := by
  refine ⟨fun t₁ t₂ h h₁ h₂ => ?_, fun t' h h₁ name => ?_, ha.entry, fun h q hu => ?_, ?_, ?_⟩
  · obtain h₁ | h₁ := view_update ha.pc h₁ <;> obtain h₂ | h₂ := view_update ha.pc h₂
    · exact SymPc.getting_ne_of_unloads h₁ h₂
    · exact (ha.unloads h h₁).1 t₂ h₂
    · exact ha.getting h h₂ t₁ h₁
    · exact hc.apart t₁ t₂ h h₁ h₂
  · obtain h₁ | h₁ := view_update ha.pc h₁
    · exact (ha.unloads h h₁).2 name
    · refine Option.eq_none_iff_forall_not_mem.mpr fun e he => ?_
      have hold := ha.cached _ e he
      rw [hc.empty t' h h₁ name] at hold
      cases hold
  · obtain hserved | hold := ha.unloaded hu
    · exact ha.served h q hserved
    have hf := hc.fresh h q hold
    refine ⟨Nat.le_trans hf.clock ha.clock, fun name e he => hf.cached name e (ha.cached _ e he), fun t' q' hq' => ?_⟩
    obtain hnew | hq' := view_update ha.pc hq'
    · exact ha.answered h q' hnew q hold
    · exact hf.answered t' q' hq'
  · rw [ha.log]
    exact hc.ordered
  · rw [ha.dangling, hc.defined]

/-- A thread goes on with the same library, and without an answer. -/
theorem Coherent.goesOn (hc : s.Coherent) {queue : List (Fin n × SymRequest)}
    (hget : p.getting = none ∨ p.getting = (s.pc t).getting) (hunloads : p.unloads = none ∨ p.unloads = (s.pc t).unloads)
    (hentry : p.entry = none) (hanswered : p.answered = none) (hserved : p.served = none ∨ p.served = (s.pc t).served) :
    ({ s with queue := queue }.setPc t p).Coherent := by
  have hview : ∀ {α : Type} {f : SymPc → Option α} {a : α}, (f p = none ∨ f p = f (s.pc t)) → f p = some a →
      f (s.pc t) = some a := by
    intro α f a hf ha
    obtain hnone | hsame := hf
    · rw [hnone] at ha
      cases ha
    · exact hsame ▸ ha
  refine hc.of_agrees (t := t) (p := p) ⟨rfl, rfl, rfl, Nat.le_refl _, fun _ _ he => he, ?_, ?_, ?_, ?_, ?_⟩
  · exact fun h hh t' ht' => hc.apart t' t h ht' (hview hget hh)
  · intro h hh
    have hh' := hview hunloads hh
    exact ⟨fun t' ht' => hc.apart t t' h hh' ht', hc.empty t h hh'⟩
  · intro t' h name he
    obtain he | he := view_update (s := s) rfl he
    · rw [hentry] at he
      cases he
    · exact hc.found t' h name he
  · intro h q hq
    rw [hanswered] at hq
    cases hq
  · intro h q hq
    have hf := hc.fresh h q (.inl ⟨t, hview hserved hq⟩)
    refine ⟨hf.clock, hf.cached, fun t' q' hq' => ?_⟩
    obtain hq' | hq' := view_update (s := s) rfl hq'
    · rw [hanswered] at hq'
      cases hq'
    · exact hf.answered t' q' hq'

/-- A lookup starts while the library is not being unloaded. -/
theorem Coherent.lookup (hc : s.Coherent) (hfree : ∀ t', (s.pc t').unloads ≠ some h)
    (hp : p = .missed h name ∨ p = .hit h name ∧ (s.symName (h, name)).isSome) : (s.setPc t p).Coherent := by
  refine hc.of_agrees (t := t) (p := p) ⟨rfl, rfl, rfl, Nat.le_refl _, fun _ _ he => he, ?_, ?_, ?_, ?_, ?_⟩
  · intro h' hh'
    have heq : h = h' := by obtain rfl | ⟨rfl, -⟩ := hp <;> exact Option.some.inj hh'
    exact heq ▸ hfree
  · obtain rfl | ⟨rfl, -⟩ := hp <;> exact nofun
  · intro t' h' name' he
    obtain he | he := view_update (s := s) rfl he
    · obtain rfl | ⟨rfl, hsome⟩ := hp
      · cases he
      · cases he
        exact hsome
    · exact hc.found t' h' name' he
  · obtain rfl | ⟨rfl, -⟩ := hp <;> exact nofun
  · obtain rfl | ⟨rfl, -⟩ := hp <;> exact nofun

/-- The entries of a library are cleared while none of its symbols is looked up. -/
theorem Coherent.clear (hc : s.Coherent) (hfree : ∀ t', (s.pc t').getting ≠ some h) :
    ((s.clear h).setPc t (.cleared h)).Coherent := by
  refine hc.of_agrees (t := t) (p := .cleared h) ⟨rfl, rfl, rfl, Nat.le_refl _, ?_, nofun, ?_, ?_, nofun, nofun⟩
  · intro key e he
    simp only [Symbols.setPc, Symbols.clear] at he
    split at he
    · cases he
    · exact he
  · intro h' hh'
    cases hh'
    exact ⟨hfree, fun name => if_pos rfl⟩
  · intro t' h' name' he
    obtain hnew | hold := view_update (s := s) rfl he
    · cases hnew
    · have hne : h' ≠ h := fun heq => hfree t' (heq ▸ SymPc.getting_of_entry hold)
      simp only [Symbols.setPc, Symbols.clear]
      rw [if_neg hne]
      exact hc.found t' h' name' hold

/-- The VE resolves a symbol. -/
theorem Coherent.serve (hc : s.Coherent) {queue : List (Fin n × SymRequest)} {val : Word} (hpc : s.pc t = .resolving h name) :
    ({ s with queue := queue, time := s.time + 1 }.setPc t (.resolved h name .ok (some ⟨val, s.time + 1⟩))).Coherent := by
  refine hc.of_agrees (t := t) (p := .resolved h name .ok (some ⟨val, s.time + 1⟩))
    ⟨rfl, rfl, rfl, Nat.le_succ _, fun _ _ he => he, ?_, nofun, ?_, ?_, nofun⟩
  · intro h' hh' t' ht'
    cases hh'
    exact hc.apart t' t h ht' (by rw [hpc]; rfl)
  · intro t' h' name' he
    obtain he | he := view_update (s := s) rfl he
    · cases he
    · exact hc.found t' h' name' he
  · intro h' q hq r hu
    cases hq
    exact Nat.lt_succ_of_le (hc.fresh h r hu).clock

/-- The VE unloads a library. The cache has no address of it, and none is on its way. -/
theorem Coherent.serveUnload (hc : s.Coherent) {queue : List (Fin n × SymRequest)} {val : Word} (hpc : s.pc t = .unloading h) :
    ({ s with queue := queue, time := s.time + 1 }.setPc t (.unloaded h .ok val (some (s.time + 1)))).Coherent := by
  have hunloads : (s.pc t).unloads = some h := by rw [hpc]; rfl
  refine hc.of_agrees (t := t) (p := .unloaded h .ok val (some (s.time + 1)))
    ⟨rfl, rfl, rfl, Nat.le_succ _, fun _ _ he => he, nofun, nofun, ?_, nofun, ?_⟩
  · intro t' h' name' he
    obtain he | he := view_update (s := s) rfl he
    · cases he
    · exact hc.found t' h' name' he
  · intro h' q hq
    cases hq
    refine ⟨Nat.le_refl _, fun name e he => ?_, fun t' q hq => ?_⟩
    · have hnone := hc.empty t h hunloads name
      rw [show s.symName (h, name) = some e from he] at hnone
      cases hnone
    · obtain hq | hq := view_update (s := s) rfl hq
      · cases hq
      · exact absurd (SymPc.getting_of_answered hq) (hc.apart t t' h hunloads)

/-- An address that was resolved after every unloading of its library is inserted. -/
theorem Coherent.insert (hc : s.Coherent) {e : Resolved} (hpc : s.pc t = .resolved h name .ok (some e)) :
    { s with symName := Function.update s.symName (h, name) (some e) }.Coherent := by
  have hnew : ∀ r, s.Unloaded h r → r < e.time := fun r hu => (hc.fresh h r hu).answered t e.time (by rw [hpc]; rfl)
  refine ⟨hc.apart, fun t' h' hh' name' => ?_, fun t' h' name' he => ?_, fun h' q hu => ?_, hc.ordered, hc.defined⟩
  · have hne : (h', name') ≠ (h, name) := by
      rintro ⟨⟩
      exact hc.apart t' t h hh' (by rw [hpc]; rfl)
    simp only [Function.update_of_ne hne]
    exact hc.empty t' h' hh' name'
  · by_cases heq : (h', name') = (h, name)
    · simp only [heq, Function.update_self, Option.isSome_some]
    · simp only [Function.update_of_ne heq]
      exact hc.found t' h' name' he
  · have hf := hc.fresh h' q hu
    refine ⟨hf.clock, fun name' e' he' => ?_, hf.answered⟩
    by_cases heq : (h', name') = (h, name)
    · cases heq
      simp only [Function.update_self] at he'
      cases he'
      exact hnew q hu
    · simp only [Function.update_of_ne heq] at he'
      exact hf.cached name' e' he'

/-- A call returns, with an address that is fresh or without one, or after a library was unloaded. -/
theorem Coherent.emit (hc : s.Coherent) {e : SymEvent} (hunloaded : ∀ h v p, e = .unloaded h v (some p) → s.Unloaded h p)
    (hfound : ∀ h name r, e = .found h name (some r) → ∀ p, s.Unloaded h p → p < r.time) : (s.emit e).Coherent := by
  refine ⟨hc.apart, hc.empty, hc.found, fun h p hu => ?_, ?_, hc.defined⟩
  · have hf : s.Fresh h p := by
      refine hc.fresh h p ?_
      obtain hpc | ⟨v, hmem⟩ := hu
      · exact .inl hpc
      · rw [Symbols.emit, List.mem_append, List.mem_singleton] at hmem
        obtain hold | hnew := hmem
        · exact .inr ⟨v, hold⟩
        · exact hunloaded h v p hnew.symm
    exact ⟨hf.clock, hf.cached, hf.answered⟩
  · rw [Symbols.emit, List.pairwise_append]
    refine ⟨hc.ordered, List.pairwise_singleton _ _, fun a ha b hb => ?_⟩
    cases List.mem_singleton.mp hb
    unfold InOrder
    split
    · rintro rfl
      exact hfound _ _ _ rfl _ (.inr ⟨_, ha⟩)
    · trivial

theorem Coherent.idle (hc : s.Coherent) : (s.setPc t .idle).Coherent :=
  @hc.goesOn n s t .idle s.queue (.inl rfl) (.inl rfl) rfl rfl (.inl rfl)

end

theorem Coherent.step (hc : s.Coherent) (hq : s.Queued) (hstep : s.step l = some s') (hC : noOverlap s l s') : s'.Coherent := by
  cases effect hstep with
  | none hs' => exact hs' ▸ hc
  | lookup t h name hl hpc p hp hs' =>
    subst hl
    exact hs' ▸ hc.lookup hC hp
  | clear t h hl hpc hs' =>
    subst hl
    exact hs' ▸ hc.clear hC
  | goesOn t p queue hget hunloads hentry hanswered hserved hqueued hs' =>
    exact hs' ▸ hc.goesOn (.inr hget) hunloads hentry hanswered hserved
  | serve t h name val rest hqueue hs' =>
    exact hs' ▸ hc.serve (hq.waiting t (.getsym h name) (hqueue ▸ List.mem_cons_self))
  | serveUnload t h val rest hqueue hs' =>
    exact hs' ▸ hc.serveUnload (hq.waiting t (.unloadlib h) (hqueue ▸ List.mem_cons_self))
  | read t h name e hpc he hs' =>
    refine hs' ▸ (hc.emit (by rintro _ _ _ ⟨⟩) fun h' name' r heq p hu => ?_).idle
    cases heq
    exact (hc.fresh h p hu).cached name e he
  | dangle t h name hpc he hs' =>
    have hsome := hc.found t h name (by rw [hpc]; rfl)
    rw [he] at hsome
    cases hsome
  | notFound t h name hpc hs' => exact hs' ▸ (hc.emit (by rintro _ _ _ ⟨⟩) (by rintro _ _ _ ⟨⟩)).idle
  | insert t h name e hpc hs' =>
    refine hs' ▸ ((hc.insert hpc).emit (by rintro _ _ _ ⟨⟩) fun h' name' r heq p hu => ?_).idle
    cases heq
    exact (hc.fresh h p hu).answered t e.time (by rw [hpc]; rfl)
  | unloaded t h rv result time hpc hs' =>
    refine hs' ▸ (hc.emit (fun h' v p heq => ?_) (by rintro _ _ _ ⟨⟩)).idle
    cases heq
    exact .inl ⟨t, by rw [hpc]; rfl⟩

theorem Coherent.of_reachable (hs : (symbolCache n).Reachable noOverlap s) : s.Coherent := by
  refine hs.invariant (I := Coherent) ?_ fun s l s' hr hstep hC hc => hc.step (.of_reachable hr) hstep hC
  rintro s rfl
  refine ⟨nofun, nofun, nofun, fun h p hu => ?_, List.Pairwise.nil, rfl⟩
  obtain ⟨t, ht⟩ | ⟨v, hmem⟩ := hu
  · cases ht
  · exact (List.not_mem_nil hmem).elim

/-- In every run without such overlaps, no entry is read after it was erased, the cache has no address of a library that
was resolved before an unloading that has returned, and no call that returned after it gave such an address. -/
theorem symbol_cache_coherent (hs : (symbolCache n).Reachable noOverlap s) :
    s.dangling = false ∧
      (∀ h result p, .unloaded h result (some p) ∈ s.log → ∀ name e, s.symName (h, name) = some e → p < e.time) ∧
      s.log.Pairwise InOrder := by
  have hc := Coherent.of_reachable hs
  exact ⟨hc.defined, fun h result p hmem => (hc.fresh h p (.inr ⟨result, hmem⟩)).cached, hc.ordered⟩

instance (s : Symbols n) (l : Label n) (s' : Symbols n) : Decidable (noOverlap s l s') :=
  match l with
  | .unloadLibrary _ _ => inferInstanceAs (Decidable (∀ _, _ ≠ _))
  | .getSym _ _ _ => inferInstanceAs (Decidable (∀ _, _ ≠ _))
  | .request _ | .refuse _ | .serve _ | .fail _ _ _ | .goOn _ => .isTrue trivial

/-- A symbol is resolved, its library is unloaded, and the symbol is resolved again. -/
def reloadTrace : List (Label 2) :=
  [.getSym 0 7 "f", .request 0, .serve 0x100, .goOn 0, .unloadLibrary 1 7, .request 1, .serve 0, .goOn 1,
    .getSym 0 7 "f", .request 0, .serve 0x200, .goOn 0]

theorem symbol_cache_coherent_reload :
    ∃ (s : Symbols 2) (e : Resolved), (symbolCache 2).Reachable noOverlap s ∧ .unloaded 7 0 (some 2) ∈ s.log ∧
      s.symName (7, "f") = some e ∧ 2 < e.time := by
  obtain ⟨s, hs, hp⟩ := Machine.exists_reachable_of_runCond (M := symbolCache 2) (s := new 2) (C := noOverlap)
    (c := fun s l s' => decide (noOverlap s l s')) (fun _ _ _ => of_decide_eq_true) reloadTrace
    (fun s => s.symName (7, "f") = some ⟨0x200, 3⟩ && decide (.unloaded 7 0 (some 2) ∈ s.log)) rfl (by decide +kernel)
  simp only [Bool.and_eq_true, decide_eq_true_eq] at hp
  exact ⟨s, _, hs, hp.2, hp.1, (symbol_cache_coherent hs).2.1 7 0 2 hp.2 "f" _ hp.1⟩

/-- A symbol is resolved, and its library is unloaded before the address is inserted; then the symbol is looked up. -/
def staleTrace : List (Label 2) :=
  [.getSym 0 7 "f", .request 0, .serve 0x100, .unloadLibrary 1 7, .request 1, .serve 0, .goOn 1, .goOn 0,
    .getSym 1 7 "f", .goOn 1]

/-- The address of the unloaded library stays in the cache after both calls have returned, and a later call returns it. -/
theorem symbol_cache_stale :
    ∃ s : Symbols 2, (symbolCache 2).Reachable Machine.anyStep s ∧ (∀ t, s.pc t = .idle) ∧
      s.symName (7, "f") = some ⟨0x100, 1⟩ ∧
      s.log = [.unloaded 7 0 (some 2), .found 7 "f" (some ⟨0x100, 1⟩), .found 7 "f" (some ⟨0x100, 1⟩)] := by
  obtain ⟨s, hs, hp⟩ := Machine.exists_reachable_of_run (M := symbolCache 2) (s := new 2) staleTrace
    (fun s => decide (∀ t, s.pc t = .idle) && s.symName (7, "f") = some ⟨0x100, 1⟩ &&
      s.log = [.unloaded 7 0 (some 2), .found 7 "f" (some ⟨0x100, 1⟩), .found 7 "f" (some ⟨0x100, 1⟩)]) rfl (by decide +kernel)
  simp only [Bool.and_eq_true, decide_eq_true_eq] at hp
  exact ⟨s, hs, hp.1.1, hp.1.2, hp.2⟩

end Symbols

end Aveo

import Aveo.Lib.Machine
import Aveo.Ve.Handlers
import Mathlib.Data.List.TakeWhile

/-!
# The contexts of a process

`openContext` and `delContext` run under `ctx_mutex` and are one step each. A context after the first gets the core after
the one of the last context in the vector, and a thread on the VE: the VE process handles the NEWPEER commands of the main
peer in the order in which they were sent, and keeps the thread in `__handler_loop_pthreads` at the index
`__num_ve_peers`. A command that the VH has stopped waiting for is still handled.
-/

namespace Aveo

open Lib

/-- A context in the vector; the main context has the number 0. -/
structure OpenContext where
  id : Nat
  core : BitVec 32
  deriving DecidableEq

/-- A NEWPEER command that was handled: the index that was used, and what `pthread_create` returned. -/
structure HandledPeer where
  index : Nat
  rc : BitVec 32
  deriving DecidableEq

/-- The thread was created. -/
def HandledPeer.created (h : HandledPeer) : Bool := h.rc = 0

/-- A context was put into the vector, or erased from it. -/
inductive ContextEvent
  | opened (id : Nat)
  | closed (id : Nat)
  deriving DecidableEq

/-- The contexts of a process on the VH, the thread of the main peer on the VE, and how many NEWPEER commands it has not
handled yet. `deleted` is set when the main context was deleted. `history` has what happened to the vector, the last event
first. -/
structure Contexts where
  ctx : List OpenContext
  deleted : Bool
  opened : Nat
  history : List ContextEvent
  queued : Nat
  ve : Ve
  handled : List HandledPeer

/-- What `openContext` meets after the core is computed: no VH side peer, no message sent, no peer attached in time, or an
answer of the VE with the return code, after which the progress thread may fail to start. -/
inductive OpenEnd
  | noPeer
  | notSent
  | timeout
  | answered (rc : BitVec 32) (progress : Bool)
  deriving DecidableEq

/-- The core of a new context, computed from the one of the last context. -/
def nextCore (threads prev : BitVec 32) : BitVec 32 := if 0 ≤ prev.toInt then prev + threads else -1

namespace Contexts

def new (ve : Ve) : Contexts := 
  { ctx := [], deleted := false, opened := 0, history := [], queued := 0, ve := ve, handled := [] }

/-- The VE handles a NEWPEER command, whose reply is sent or refused. -/
def serve (s : Contexts) (rc : BitVec 32) (out : SendEnd) : Contexts :=
  { s with ve := (newpeerHandler s.ve s.ve.replies.length rc out).1, handled := s.handled ++ [⟨s.ve.numVePeers, rc⟩] }

/-- `openContext` from the creation of the VH side peer on. -/
def newPeer (s : Contexts) (core : BitVec 32) : OpenEnd → Option Contexts
  | .noPeer => some s -- an exception
  | .notSent => some s -- a null pointer
  | .timeout => some { s with queued := s.queued + 1 } -- an exception
  | .answered rc progress =>
      if s.queued ≠ 0 then none -- the commands before it are handled first
      else if rc ≠ 0 ∨ progress = false then some (s.serve rc .sent) -- a null pointer or an exception
      else
        some { s.serve rc .sent with
          ctx := s.ctx ++ [⟨s.opened, core⟩]
          opened := s.opened + 1
          history := .opened s.opened :: s.history }

/-- `ProcHandle::openContext`, with the core of the process and the number in VE_OMP_NUM_THREADS, if there is one. -/
def openContext (c : BitVec 32) (omp : Option (BitVec 32)) (s : Contexts) (out : OpenEnd) : Option Contexts :=
  if s.deleted then none -- undefined: the main context is locked first
  else
    match s.ctx.getLast? with
    | none => some { s with ctx := [⟨0, c⟩], opened := 1, history := .opened 0 :: s.history }
    | some last =>
        let threads := omp.getD (-1)
        if threads ≠ 1 then some s -- an exception
        else s.newPeer (nextCore threads last.core) out

def isOpen (s : Contexts) (id : Nat) : Bool := s.ctx.any (·.id = id)

/-- `ProcHandle::delContext`. -/
def delContext (s : Contexts) (id : Nat) : Contexts :=
  if s.isOpen id then
    { s with
      ctx := s.ctx.eraseP (·.id = id)
      deleted := s.deleted || decide (id = 0)
      history := .closed id :: s.history }
  else s

/-- `veo_context_close`, with a context that exists. -/
def veoContextClose (s : Contexts) (id : Nat) : Option Contexts :=
  if id = 0 then (if s.deleted then none else some s)
  else if s.isOpen id then some (s.delContext id)
  else none

/-- A call on the VH, or the VE handles a command that is not waited for any more. -/
inductive Label
  | openContext (out : OpenEnd)
  | delContext (id : Nat)
  | contextClose (id : Nat)
  | serve (rc : BitVec 32) (out : SendEnd)
  deriving DecidableEq

def step (c : BitVec 32) (omp : Option (BitVec 32)) (s : Contexts) : Label → Option Contexts
  | .openContext out => s.openContext c omp out
  | .delContext id => some (s.delContext id)
  | .contextClose id => s.veoContextClose id
  | .serve rc out => if s.queued = 0 then none else some { s.serve rc out with queued := s.queued - 1 }

end Contexts

/-- A process that was started on core `c`. -/
def contexts (c : BitVec 32) (omp : Option (BitVec 32)) : Machine Contexts Contexts.Label where
  init s := s = Contexts.new s.ve ∧ s.ve.numVePeers = 0
  step := Contexts.step c omp

namespace Contexts

variable {c : BitVec 32} {omp : Option (BitVec 32)} {s s' : Contexts} {l : Label}

/-- Never more than `n` contexts are open. -/
def fewOpen (n : Nat) : Machine.Cond Contexts Label := fun _ _ s' => s'.ctx.length ≤ n

/-! ### What a step can do -/

/-- What a step does to the VE process. -/
inductive PeerStep (s s' : Contexts) : Prop
  | same (hve : s'.ve = s.ve) (hhandled : s'.handled = s.handled)
  | served (rc : BitVec 32) (out : SendEnd) (hve : s'.ve = (s.serve rc out).ve)
      (hhandled : s'.handled = (s.serve rc out).handled)

/-- The vector with what is recorded about it. -/
structure Vector where
  ctx : List OpenContext
  deleted : Bool
  opened : Nat
  history : List ContextEvent

def vector (s : Contexts) : Vector := ⟨s.ctx, s.deleted, s.opened, s.history⟩

/-- What a step does to the vector. The main context is erased only by `delContext`. -/
inductive VectorStep (c : BitVec 32) (s : Contexts) (l : Label) (s' : Contexts) : Prop
  | same (h : s'.vector = s.vector)
  | first (hempty : s.ctx = []) (h : s'.vector = ⟨[⟨0, c⟩], s.deleted, 1, .opened 0 :: s.history⟩)
  | opened (last : OpenContext) (hlast : s.ctx.getLast? = some last)
      (h : s'.vector =
        ⟨s.ctx ++ [⟨s.opened, nextCore 1 last.core⟩], s.deleted, s.opened + 1, .opened s.opened :: s.history⟩)
  | erased (id : Nat) (hopen : s.isOpen id = true) (hmain : id = 0 → l = .delContext 0)
      (h : s'.vector = ⟨s.ctx.eraseP (·.id = id), s.deleted || decide (id = 0), s.opened, .closed id :: s.history⟩)

theorem openContext_cases {out : OpenEnd} (h : s.openContext c omp out = some s') :
    VectorStep c s l s' ∧ PeerStep s s' := by
  rw [openContext] at h
  split at h
  · cases h
  · split at h
    · rename_i hlast
      cases h
      exact ⟨.first (List.getLast?_eq_none_iff.mp hlast) rfl, .same rfl rfl⟩
    · rename_i last hlast
      simp only at h
      split at h
      · cases h
        exact ⟨.same rfl, .same rfl rfl⟩
      · rename_i hthreads
        rw [not_not.mp hthreads] at h
        cases out with
        | noPeer =>
          cases h
          exact ⟨.same rfl, .same rfl rfl⟩
        | notSent =>
          cases h
          exact ⟨.same rfl, .same rfl rfl⟩
        | timeout =>
          cases h
          exact ⟨.same rfl, .same rfl rfl⟩
        | answered rc progress =>
          simp only [newPeer] at h
          split at h
          · cases h
          · split at h
            · cases h
              exact ⟨.same rfl, .served rc .sent rfl rfl⟩
            · cases h
              exact ⟨.opened last hlast rfl, .served rc .sent rfl rfl⟩

theorem delContext_cases (s : Contexts) {id : Nat} (hmain : id = 0 → l = .delContext 0) :
    VectorStep c s l (s.delContext id) ∧ PeerStep s (s.delContext id) := by
  rw [delContext]
  split
  · rename_i hopen
    exact ⟨.erased id hopen hmain rfl, .same rfl rfl⟩
  · exact ⟨.same rfl, .same rfl rfl⟩

theorem step_cases (h : s.step c omp l = some s') : VectorStep c s l s' ∧ PeerStep s s' := by
  cases l with
  | openContext out => exact openContext_cases h
  | delContext id =>
    cases h
    exact delContext_cases s fun hzero => by rw [hzero]
  | contextClose id =>
    simp only [step, veoContextClose] at h
    split at h
    · split at h
      · cases h
      · cases h
        exact ⟨.same rfl, .same rfl rfl⟩
    · rename_i hmain
      split at h
      · cases h
        exact delContext_cases s fun hzero => absurd hzero hmain
      · cases h
  | serve rc out =>
    simp only [step] at h
    split at h
    · cases h
    · cases h
      exact ⟨.same rfl, .served rc out rfl rfl⟩

/-! ### The table of VE threads -/

/-- The index of each command is the number of threads that the commands before it created. -/
structure Numbered (s : Contexts) : Prop where
  peers : s.ve.numVePeers = s.handled.countP HandledPeer.created
  index : ∀ (k : Nat) h, s.handled[k]? = some h → h.index = (s.handled.take k).countP HandledPeer.created

theorem numVePeers_newpeerHandler (ve : Ve) (req : Nat) (rc : BitVec 32) (out : SendEnd) :
    (newpeerHandler ve req rc out).1.numVePeers = ve.numVePeers + if rc = 0 then 1 else 0 := by
  by_cases hzero : rc = 0
  · rw [newpeerHandler, if_neg (not_not.mpr hzero), if_pos hzero]
    cases out <;> rfl
  · rw [newpeerHandler, if_pos hzero, if_neg hzero]
    cases out <;> rfl

theorem numbered_step (hs : s.Numbered) (hstep : PeerStep s s') : s'.Numbered := by
  cases hstep with
  | same hve hhandled => exact ⟨by rw [hve, hhandled, hs.peers], by rw [hhandled]; exact hs.index⟩
  | served rc out hve hhandled =>
    refine ⟨?_, ?_⟩
    · rw [hve, hhandled, serve, numVePeers_newpeerHandler, List.countP_append, List.countP_singleton, hs.peers]
      simp only [HandledPeer.created, decide_eq_true_eq]
    · intro k h hk
      rw [hhandled, serve, List.getElem?_append] at hk
      rw [hhandled, serve]
      split at hk
      · rename_i hlt
        rw [List.take_append_of_le_length (Nat.le_of_lt hlt)]
        exact hs.index k h hk
      · rename_i hge
        -- The new command uses the number of threads so far.
        obtain ⟨hlt, rfl⟩ := List.getElem?_eq_some_iff.mp hk
        have hk' : k = s.handled.length := by
          rw [List.length_singleton] at hlt
          omega
        subst hk'
        rw [List.take_left', ← hs.peers]
        · simp
        · rfl

theorem numbered_of_reachable {C : Machine.Cond Contexts Label} (hs : (contexts c omp).Reachable C s) : s.Numbered := by
  refine hs.invariant (I := Numbered) ?_ ?_
  · rintro s ⟨hnew, hpeers⟩
    rw [hnew]
    exact ⟨hpeers, nofun⟩
  · intro s l s' _ hstep _ hI
    exact numbered_step hI (step_cases hstep).2

/-- In every history of openings and closings all NEWPEER commands use an index inside an array of `max` threads exactly if
the commands before the last one created fewer than `max` threads. The number of open contexts makes no difference. -/
theorem newpeer_index_iff {C : Machine.Cond Contexts Label} (hs : (contexts c omp).Reachable C s) {max : Nat}
    (hmax : 1 ≤ max) :
    (∀ h ∈ s.handled, h.index < max) ↔ s.handled.dropLast.countP HandledPeer.created < max := by
  have hnum := numbered_of_reachable hs
  constructor
  · intro hall
    by_cases hempty : s.handled = []
    · rw [hempty]
      exact hmax
    · have hlast := List.getLast_mem hempty
      have hget : s.handled[s.handled.length - 1]? = some (s.handled.getLast hempty) := by
        rw [← List.getLast?_eq_getElem?, List.getLast?_eq_some_getLast hempty]
      have hindex := hnum.index _ _ hget
      rw [← List.dropLast_eq_take] at hindex
      rw [← hindex]
      exact hall _ hlast
  · intro hcount h hmem
    obtain ⟨k, hk⟩ := List.getElem?_of_mem hmem
    have hlt := (List.getElem?_eq_some_iff.mp hk).1
    have hle : (s.handled.take k).countP HandledPeer.created ≤ s.handled.dropLast.countP HandledPeer.created := by
      rw [List.dropLast_eq_take]
      exact (List.take_sublist_take_left (by omega)).countP_le
    rw [hnum.index k h hk]
    omega

/-- A VE process that has handled nothing. -/
def freshVe : Ve := ⟨fun _ => 0, 0, []⟩

/-- The main context is opened, and then `n` times a context is opened and closed again. -/
def reopenTrace (n : Nat) : List Label :=
  .openContext .noPeer :: (List.range n).flatMap fun i => [.openContext (.answered 0 true), .contextClose (i + 1)]

theorem newpeer_index_two :
    ∃ s, (contexts 0 (some 1)).Reachable (fewOpen 2) s ∧ s.handled.length = 2 ∧ ∀ h ∈ s.handled, h.index < 2 := by
  obtain ⟨s, hs, hp⟩ := Machine.exists_reachable_of_runCond (M := contexts 0 (some 1)) (s := new freshVe) (C := fewOpen 2)
    (c := fun _ _ s' => s'.ctx.length ≤ 2) (fun _ _ s' h => (of_decide_eq_true h : s'.ctx.length ≤ 2)) (reopenTrace 2)
    (fun s => s.handled.length = 2 && s.handled.dropLast.countP HandledPeer.created < 2) ⟨rfl, rfl⟩ (by decide +kernel)
  simp only [Bool.and_eq_true, decide_eq_true_eq] at hp
  exact ⟨s, hs, hp.1, (newpeer_index_iff hs (by decide)).mpr hp.2⟩

/-- With room for eight threads the ninth context uses the index 8, although at most two contexts are ever open. -/
theorem newpeer_index_escapes :
    ∃ s, (contexts 0 (some 1)).Reachable (fewOpen 2) s ∧ ∃ h ∈ s.handled, h.index = 8 := by
  obtain ⟨s, hs, hp⟩ := Machine.exists_reachable_of_runCond (M := contexts 0 (some 1)) (s := new freshVe) (C := fewOpen 2)
    (c := fun _ _ s' => s'.ctx.length ≤ 2) (fun _ _ s' h => (of_decide_eq_true h : s'.ctx.length ≤ 2)) (reopenTrace 9)
    (fun s => decide (∃ h ∈ s.handled, h.index = 8)) ⟨rfl, rfl⟩ (by decide +kernel)
  exact ⟨s, hs, of_decide_eq_true hp⟩

/-! ### The cores -/

/-- The main context is first, and the cores are different and among the `n` from `c` on. -/
structure Assigned (c : BitVec 32) (n : Nat) (s : Contexts) : Prop where
  main : s.deleted = false ∧ (s.ctx = [] ∨ s.ctx.head? = some ⟨0, c⟩)
  distinct : (s.ctx.map OpenContext.core).Nodup
  range : ∀ x ∈ s.ctx, c.toInt ≤ x.core.toInt ∧ x.core.toInt ≤ c.toInt + n - 1

/-- A place in the order of the openings, with its context and whether that is still open. -/
structure Place where
  id : Nat
  isOpen : Bool
  deriving DecidableEq

def Place.close (id : Nat) (p : Place) : Place := if p.id = id then { p with isOpen := false } else p

/-- The places that are taken, from the last one on: those of the open contexts, and those of closed ones as long as a context
that was opened later, with them below it, is open. -/
def places : List ContextEvent → List Place
  | [] => []
  | .opened id :: before => ⟨id, true⟩ :: places before
  | .closed id :: before => ((places before).map (Place.close id)).dropWhile (!·.isOpen)

/-- The main context is not deleted, and when a context is opened fewer than `n` places are taken and the core behind them
is an `int`. -/
def fitting (c : BitVec 32) (n : Nat) : Machine.Cond Contexts Label := fun s l s' =>
  (l = .delContext 0 → s.ctx = []) ∧
    (s.ctx.length < s'.ctx.length → (places s.history).length < n ∧ c.toInt + (places s.history).length < 2 ^ 31)

instance {n : Nat} : Decidable (fitting c n s l s') :=
  inferInstanceAs (Decidable ((l = .delContext 0 → s.ctx = []) ∧
    (s.ctx.length < s'.ctx.length → (places s.history).length < n ∧ c.toInt + (places s.history).length < 2 ^ 31)))

/-- The contexts at the places, each on the core that is as far behind `c` as there are places below it. -/
def fill (c : BitVec 32) : List Place → List OpenContext
  | [] => []
  | p :: below => fill c below ++ if p.isOpen then [⟨p.id, c + BitVec.ofNat 32 below.length⟩] else []

@[simp] theorem Place.close_id (id : Nat) (p : Place) : (p.close id).id = p.id := by
  rw [Place.close]
  split <;> rfl

theorem Place.close_of_ne {id : Nat} {p : Place} (h : p.id ≠ id) : p.close id = p := if_neg h

/-- A context at a place is the one that was opened there, and its core tells the place. -/
theorem mem_fill {ps : List Place} {x : OpenContext} (hx : x ∈ fill c ps) :
    (∃ p ∈ ps, x.id = p.id) ∧ ∃ k < ps.length, x.core = c + BitVec.ofNat 32 k := by
  induction ps with
  | nil => cases hx
  | cons p below ih =>
    rcases List.mem_append.mp hx with hold | hnew
    · obtain ⟨⟨q, hq, hid⟩, k, hk, hcore⟩ := ih hold
      exact ⟨⟨q, List.mem_cons_of_mem p hq, hid⟩, k, Nat.lt_succ_of_lt hk, hcore⟩
    · split at hnew
      · rw [List.mem_singleton.mp hnew]
        exact ⟨⟨p, List.mem_cons_self, rfl⟩, below.length, Nat.lt_succ_self _, rfl⟩
      · cases hnew

/-- What `dropWhile` has to leave at the end is there afterwards. -/
theorem getLast?_dropWhile {α : Type} {f : α → Bool} {l : List α} {a : α} (hlast : l.getLast? = some a) (ha : f a = false) :
    (l.dropWhile f).getLast? = some a := by
  have hne : l.dropWhile f ≠ [] := by
    rw [Ne, List.dropWhile_eq_nil_iff]
    intro hall
    rw [hall a (List.mem_of_getLast? hlast)] at ha
    cases ha
  obtain ⟨pre, hpre⟩ := List.dropWhile_suffix (l := l) f
  rwa [← hpre, List.getLast?_append_of_ne_nil _ hne] at hlast

/-- Closed contexts at the end leave no trace in the vector. -/
theorem fill_dropWhile (ps : List Place) : fill c (ps.dropWhile (!·.isOpen)) = fill c ps := by
  induction ps with
  | nil => rfl
  | cons p below ih =>
    rw [List.dropWhile_cons]
    split
    · rename_i hclosed
      rw [ih, fill, if_neg (by simpa using hclosed), List.append_nil]
    · rfl

/-- Closing a context is erasing it from the vector. -/
theorem fill_close {ps : List Place} (hids : ps.Pairwise fun p q => q.id < p.id) (id : Nat) :
    fill c (ps.map (Place.close id)) = (fill c ps).eraseP (·.id = id) := by
  induction ps with
  | nil => rfl
  | cons p below ih =>
    obtain ⟨hlt, hbelow⟩ := List.pairwise_cons.mp hids
    have hnone : ¬ (fill c below).any (fun x => decide (x.id = id)) = true →
        (fill c below).eraseP (fun x => decide (x.id = id)) = fill c below := by
      intro hany
      apply List.eraseP_of_forall_not
      intro x hx hxid
      exact hany (List.any_eq_true.mpr ⟨x, hx, hxid⟩)
    rw [List.map_cons, fill, fill, ih hbelow, List.length_map, List.eraseP_append]
    by_cases hid : p.id = id
    · -- The context is at the top, and at no other place.
      have hany : ¬ (fill c below).any (fun x => decide (x.id = id)) = true := by
        rw [List.any_eq_true]
        rintro ⟨x, hx, hxid⟩
        obtain ⟨⟨q, hq, hxq⟩, -⟩ := mem_fill hx
        have hqp := hlt q hq
        have hxq' := of_decide_eq_true hxid
        omega
      rw [if_neg hany, hnone hany, Place.close, if_pos hid]
      cases p.isOpen <;> simp [hid]
    · rw [Place.close_of_ne hid]
      by_cases hany : (fill c below).any (fun x => decide (x.id = id)) = true
      · rw [if_pos hany]
      · rw [if_neg hany, hnone hany]
        cases p.isOpen <;> simp [hid]

theorem getLast?_fill {p : Place} {below : List Place} (hopen : p.isOpen = true) :
    (fill c (p :: below)).getLast? = some ⟨p.id, c + BitVec.ofNat 32 below.length⟩ := by
  rw [fill, if_pos hopen, List.getLast?_concat]

theorem head?_fill {ps : List Place} (hlast : ps.getLast? = some ⟨0, true⟩) : (fill c ps).head? = some ⟨0, c⟩ := by
  induction ps with
  | nil => cases hlast
  | cons p below ih =>
    cases below with
    | nil =>
      cases hlast
      show some (⟨0, c + 0#32⟩ : OpenContext) = some ⟨0, c⟩
      rw [BitVec.add_zero]
    | cons q rest =>
      have hhead := ih (by rwa [List.getLast?_cons_cons] at hlast)
      rw [fill, List.head?_append, hhead]
      rfl

/-- The core at a place. -/
theorem toInt_core (hc : 0 ≤ c.toInt) {k : Nat} (hk : c.toInt + k < 2 ^ 31) :
    (c + BitVec.ofNat 32 k).toInt = c.toInt + k := by
  have hsmall : (BitVec.ofNat 32 k).toInt = k := by
    rw [BitVec.toInt_ofNat']
    exact Int.bmod_eq_of_le (by omega) (by omega)
  rw [BitVec.toInt_add, hsmall]
  exact Int.bmod_eq_of_le (by omega) (by omega)

/-- The cores increase along the vector. -/
theorem fill_increasing (hc : 0 ≤ c.toInt) {ps : List Place} (hint : c.toInt + ps.length ≤ 2 ^ 31) :
    (fill c ps).Pairwise fun x y => x.core.toInt < y.core.toInt := by
  induction ps with
  | nil => exact List.Pairwise.nil
  | cons p below ih =>
    rw [List.length_cons] at hint
    have hbelow : c.toInt + below.length ≤ 2 ^ 31 := by omega
    rw [fill, List.pairwise_append]
    refine ⟨ih hbelow, ?_, ?_⟩
    · split
      · exact List.pairwise_singleton _ _
      · exact List.Pairwise.nil
    · intro x hx y hy
      obtain ⟨-, k, hk, hcore⟩ := mem_fill hx
      split at hy
      · rw [List.mem_singleton.mp hy, hcore, toInt_core hc (by omega), toInt_core hc (by omega)]
        omega
      · cases hy

/-- The vector has the contexts at the places that are taken, and there are at most `n` of those. -/
structure Placed (c : BitVec 32) (n : Nat) (s : Contexts) : Prop where
  ctx : s.ctx = fill c (places s.history)
  top : ∀ p below, places s.history = p :: below → p.isOpen = true
  ids : (places s.history).Pairwise fun p q => q.id < p.id
  fresh : ∀ p ∈ places s.history, p.id < s.opened
  room : (places s.history).length ≤ n
  int : c.toInt + (places s.history).length ≤ 2 ^ 31
  deleted : s.deleted = false
  main : places s.history = [] ∨ (places s.history).getLast? = some ⟨0, true⟩

namespace Placed

variable {n : Nat}

theorem places_eq_nil (hs : s.Placed c n) (hempty : s.ctx = []) : places s.history = [] := by
  cases hplaces : places s.history with
  | nil => rfl
  | cons p below =>
    have hlast := @getLast?_fill c p below (hs.top p below hplaces)
    rw [← hplaces, ← hs.ctx, hempty] at hlast
    cases hlast

theorem head (hs : s.Placed c n) : s.ctx = [] ∨ s.ctx.head? = some ⟨0, c⟩ := by
  rcases hs.main with hnil | hlast
  · exact .inl (by rw [hs.ctx, hnil]; rfl)
  · exact .inr (by rw [hs.ctx, head?_fill hlast])

theorem assigned (hc : 0 ≤ c.toInt) (hs : s.Placed c n) : s.Assigned c n := by
  refine ⟨⟨hs.deleted, hs.head⟩, ?_, ?_⟩
  · rw [hs.ctx, List.Nodup, List.pairwise_map]
    apply (fill_increasing hc hs.int).imp
    intro x y hlt heq
    rw [heq] at hlt
    exact absurd hlt (Int.lt_irrefl _)
  · intro x hx
    rw [hs.ctx] at hx
    obtain ⟨-, k, hk, hcore⟩ := mem_fill hx
    have hroom := hs.room
    have hint := hs.int
    rw [hcore, toInt_core hc (by omega)]
    omega

/-- The core of a new context is the one behind the places. -/
theorem nextCore_eq (hc : 0 ≤ c.toInt) (hs : s.Placed c n) {last : OpenContext} (hlast : s.ctx.getLast? = some last) :
    nextCore 1 last.core = c + BitVec.ofNat 32 (places s.history).length := by
  cases hplaces : places s.history with
  | nil =>
    rw [hs.ctx, hplaces] at hlast
    cases hlast
  | cons p below =>
    have hint := hs.int
    rw [hplaces, List.length_cons] at hint
    rw [hs.ctx, hplaces, getLast?_fill (hs.top p below hplaces)] at hlast
    cases hlast
    have hcore := toInt_core (k := below.length) hc (by omega)
    rw [nextCore, if_pos (by rw [hcore]; omega), List.length_cons, BitVec.ofNat_add, ← BitVec.add_assoc]
    rfl

/-- A context takes the place behind the others. -/
theorem push (hs : s.Placed c n) {id : Nat}
    (hctx : s'.ctx = s.ctx ++ [⟨id, c + BitVec.ofNat 32 (places s.history).length⟩]) (hdeleted : s'.deleted = s.deleted)
    (hhistory : s'.history = .opened id :: s.history) (habove : ∀ p ∈ places s.history, p.id < id) (hid : id < s'.opened)
    (hmain : places s.history = [] → id = 0) (hroom : (places s.history).length < n)
    (hint : c.toInt + (places s.history).length < 2 ^ 31) : s'.Placed c n := by
  have hplaces : places s'.history = ⟨id, true⟩ :: places s.history := by rw [hhistory, places]
  refine ⟨?_, ?_, ?_, ?_, ?_, ?_, hdeleted.trans hs.deleted, .inr ?_⟩
  · rw [hctx, hplaces, fill, if_pos rfl, ← hs.ctx]
  · intro p below hp
    rw [hplaces] at hp
    cases hp
    rfl
  · rw [hplaces]
    exact List.pairwise_cons.mpr ⟨habove, hs.ids⟩
  · intro p hp
    rw [hplaces] at hp
    rcases List.mem_cons.mp hp with rfl | hold
    · exact hid
    · exact Nat.lt_trans (habove p hold) hid
  · rw [hplaces, List.length_cons]
    omega
  · rw [hplaces, List.length_cons]
    omega
  · rw [hplaces]
    rcases hs.main with hnil | hlast
    · rw [hnil, hmain hnil]
      rfl
    · rw [List.getLast?_cons_of_ne_nil fun hnil => by rw [hnil] at hlast; cases hlast]
      exact hlast

theorem erased (hs : s.Placed c n) {id : Nat} (hid : id ≠ 0)
    (h : s'.vector = ⟨s.ctx.eraseP (·.id = id), s.deleted || decide (id = 0), s.opened, .closed id :: s.history⟩) :
    s'.Placed c n := by
  obtain ⟨hctx, hdeleted, hopened, hhistory⟩ := Vector.mk.inj h
  have hplaces : places s'.history = ((places s.history).map (Place.close id)).dropWhile (!·.isOpen) := by
    rw [hhistory, places]
  have hsub : (places s'.history).Sublist ((places s.history).map (Place.close id)) := by
    rw [hplaces]
    exact List.dropWhile_sublist _
  have hlen : (places s'.history).length ≤ (places s.history).length := by
    have := hsub.length_le
    rwa [List.length_map] at this
  refine ⟨?_, ?_, ?_, ?_, Nat.le_trans hlen hs.room, ?_, ?_, ?_⟩
  · rw [hctx, hplaces, fill_dropWhile, fill_close hs.ids, hs.ctx]
  · intro p below hp
    have hnot := List.head_dropWhile_not (fun p : Place => !p.isOpen) (l := (places s.history).map (Place.close id))
      (by rw [← hplaces, hp]; exact List.cons_ne_nil _ _)
    simp only [← hplaces, hp, List.head_cons] at hnot
    simpa using hnot
  · refine List.Pairwise.sublist hsub (List.pairwise_map.mpr ?_)
    simpa using hs.ids
  · intro p hp
    obtain ⟨q, hq, rfl⟩ := List.mem_map.mp (hsub.subset hp)
    rw [Place.close_id, hopened]
    exact hs.fresh q hq
  · have := hs.int
    omega
  · rw [show s'.deleted = _ from hdeleted, hs.deleted, decide_eq_false hid]
    rfl
  · rcases hs.main with hnil | hlast
    · exact .inl (by rw [hplaces, hnil]; rfl)
    · -- The main context stays open, so nothing below it is dropped.
      refine .inr ?_
      rw [hplaces]
      refine getLast?_dropWhile ?_ rfl
      rw [List.getLast?_map, hlast, Option.map_some, Place.close_of_ne (Ne.symm hid)]

end Placed

/-- A step that fits keeps the contexts at their places. -/
theorem placed_step {n : Nat} (hc : 0 ≤ c.toInt) (hs : s.Placed c n) (hstep : VectorStep c s l s')
    (hfit : fitting c n s l s') : s'.Placed c n := by
  obtain ⟨hmain, hroom⟩ := hfit
  cases hstep with
  | same h =>
    obtain ⟨hctx, hdeleted, hopened, hhistory⟩ := Vector.mk.inj h
    exact ⟨by rw [hctx, hhistory, hs.ctx], by rw [hhistory]; exact hs.top, by rw [hhistory]; exact hs.ids,
      by rw [hhistory, hopened]; exact hs.fresh, by rw [hhistory]; exact hs.room, by rw [hhistory]; exact hs.int,
      hdeleted.trans hs.deleted, by rw [hhistory]; exact hs.main⟩
  | first hempty h =>
    obtain ⟨hctx, hdeleted, hopened, hhistory⟩ := Vector.mk.inj h
    have hnil := hs.places_eq_nil hempty
    obtain ⟨hone, hint⟩ := hroom (by rw [hempty, hctx]; exact Nat.zero_lt_one)
    refine hs.push ?_ hdeleted hhistory ?_ ?_ (fun _ => rfl) hone hint
    · rw [hctx, hempty, hnil]
      show [(⟨0, c⟩ : OpenContext)] = [⟨0, c + 0#32⟩]
      rw [BitVec.add_zero]
    · rw [hnil]
      exact nofun
    · rw [hopened]
      exact Nat.zero_lt_one
  | opened last hlast h =>
    obtain ⟨hlt, hint⟩ := hroom (by
      rw [(Vector.mk.inj h).1, List.length_append]
      exact Nat.lt_succ_self _)
    obtain ⟨hctx, hdeleted, hopened, hhistory⟩ := Vector.mk.inj h
    rw [hs.nextCore_eq hc hlast] at hctx
    refine hs.push hctx hdeleted hhistory hs.fresh ?_ (fun hnil => ?_) hlt hint
    · rw [hopened]
      exact Nat.lt_succ_self _
    · rw [hs.ctx, hnil] at hlast
      cases hlast
  | erased id hopen hlabel h =>
    refine hs.erased ?_ h
    intro hzero
    have hnil := hmain (hlabel hzero)
    rw [isOpen, hnil] at hopen
    cases hopen

theorem placed_of_reachable {n : Nat} (hc : 0 ≤ c.toInt) (hs : (contexts c omp).Reachable (fitting c n) s) :
    s.Placed c n := by
  refine hs.invariant (I := Placed c n) ?_ ?_
  · rintro s ⟨hnew, -⟩
    rw [hnew]
    have hint := @BitVec.toInt_lt 32 c
    refine ⟨rfl, nofun, List.Pairwise.nil, nofun, Nat.zero_le _, ?_, rfl, .inl rfl⟩
    show c.toInt + 0 ≤ _
    omega
  · intro s l s' _ hstep hfit hI
    exact placed_step hc hI (step_cases hstep).1 hfit

/-- The core behind the largest `int` is negative. -/
theorem toInt_core_of_overflow {k : Nat} (hk : c.toInt + k = 2 ^ 31) :
    (c + BitVec.ofNat 32 k).toInt < 0 := by
  rw [BitVec.toInt_add, BitVec.toInt_ofNat', Int.add_bmod_bmod, hk]
  decide

/-- A step after which the cores are assigned fits, if not too many contexts are open. -/
theorem fitting_of_assigned {n : Nat} (hc : 0 ≤ c.toInt) (hs : s.Placed c n) (hstep : VectorStep c s l s')
    (hdel : l = .delContext 0 → s'.vector = (s.delContext 0).vector) (hlen : s'.ctx.length ≤ n) (h : s'.Assigned c n) :
    fitting c n s l s' := by
  refine ⟨fun hlabel => ?_, fun hlt => ?_⟩
  · -- The main context is the first one as long as there is one.
    rcases hs.head with hnil | hhead
    · exact hnil
    · have hopen : s.isOpen 0 = true := List.any_eq_true.mpr ⟨_, List.mem_of_mem_head? hhead, rfl⟩
      have hdeleted : s'.deleted = true := by
        have := congrArg Vector.deleted (hdel hlabel)
        rw [delContext, if_pos hopen] at this
        rw [show s'.deleted = _ from this]
        exact Bool.or_true _
      rw [h.main.1] at hdeleted
      cases hdeleted
  · cases hstep with
    | same hsame =>
      rw [(Vector.mk.inj hsame).1] at hlt
      exact absurd hlt (Nat.lt_irrefl _)
    | first hempty hfirst =>
      rw [(Vector.mk.inj hfirst).1] at hlen
      have hint := @BitVec.toInt_lt 32 c
      rw [hs.places_eq_nil hempty]
      exact ⟨hlen, by show c.toInt + 0 < _; omega⟩
    | opened last hlast hopened =>
      have hcore := hs.nextCore_eq hc hlast
      have hnew := h.range ⟨s.opened, nextCore 1 last.core⟩ (by
        rw [(Vector.mk.inj hopened).1]
        exact List.mem_append_right _ (List.mem_singleton_self _))
      rw [hcore] at hnew
      have hint : c.toInt + (places s.history).length < 2 ^ 31 := by
        refine Int.lt_iff_le_and_ne.mpr ⟨hs.int, fun heq => ?_⟩
        have hneg := toInt_core_of_overflow heq
        have hpos : c.toInt ≤ (c + BitVec.ofNat 32 (places s.history).length).toInt := hnew.1
        omega
      have hle : (c + BitVec.ofNat 32 (places s.history).length).toInt ≤ c.toInt + n - 1 := hnew.2
      rw [toInt_core hc hint] at hle
      exact ⟨by omega, hint⟩
    | erased id hopen _ herased =>
      have hle : s'.ctx.length ≤ s.ctx.length := (Vector.mk.inj herased).1 ▸ List.eraseP_sublist.length_le
      omega

/-- On a process that was started on core `c` the cores are assigned as long as every step fits, and the first step that
does not fit, with at most `n` contexts open, is the first one after which they are not. -/
theorem core_assignment_iff {n : Nat} (hc : 0 ≤ c.toInt) (hs : (contexts c (some 1)).Reachable (fitting c n) s) :
    s.Assigned c n ∧
      ∀ l s', (contexts c (some 1)).step s l = some s' → fewOpen n s l s' → (s'.Assigned c n ↔ fitting c n s l s') := by
  have hplaced := placed_of_reachable hc hs
  refine ⟨hplaced.assigned hc, ?_⟩
  intro l s' hstep hlen
  have hvector := (step_cases hstep).1
  refine ⟨fitting_of_assigned hc hplaced hvector ?_ hlen, fun hfit => (placed_step hc hplaced hvector hfit).assigned hc⟩
  rintro rfl
  cases hstep
  rfl

/-- Three contexts, of which the one in the middle is closed before another one is opened. -/
def gapTrace : List Label :=
  [.openContext .noPeer, .openContext (.answered 0 true), .openContext (.answered 0 true), .delContext 1,
    .openContext (.answered 0 true)]

/-- With room for a fourth core the contexts are on the cores 0, 2 and 3. -/
theorem core_assignment_gap :
    ∃ s, (contexts 0 (some 1)).Reachable (fitting 0 4) s ∧ s.ctx.map OpenContext.core = [0, 2, 3] ∧ s.Assigned 0 4 := by
  obtain ⟨s, hs, hp⟩ := Machine.exists_reachable_of_runCond (M := contexts 0 (some 1)) (s := new freshVe) (C := fitting 0 4)
    (c := fun s l s' => decide (fitting 0 4 s l s')) (fun _ _ _ h => of_decide_eq_true h) gapTrace
    (fun s => decide (s.ctx.map OpenContext.core = [0, 2, 3])) ⟨rfl, rfl⟩ (by decide +kernel)
  exact ⟨s, hs, of_decide_eq_true hp, (core_assignment_iff (by decide) hs).1⟩

/-- There are never more than three contexts open, and the last one is not on one of the first three cores. -/
theorem core_assignment_leaves_range :
    ∃ s, (contexts 0 (some 1)).Reachable (fewOpen 3) s ∧ s.ctx.map OpenContext.core = [0, 2, 3] ∧ ¬ s.Assigned 0 3 := by
  obtain ⟨s, hs, hp⟩ := Machine.exists_reachable_of_runCond (M := contexts 0 (some 1)) (s := new freshVe) (C := fewOpen 3)
    (c := fun _ _ s' => s'.ctx.length ≤ 3) (fun _ _ s' h => (of_decide_eq_true h : s'.ctx.length ≤ 3)) gapTrace
    (fun s => decide (s.ctx.map OpenContext.core = [0, 2, 3]) && decide (⟨3, 3⟩ ∈ s.ctx)) ⟨rfl, rfl⟩ (by decide +kernel)
  simp only [Bool.and_eq_true, decide_eq_true_eq] at hp
  refine ⟨s, hs, hp.1, ?_⟩
  intro h
  exact absurd (h.range _ hp.2).2 (by decide)

end Contexts

end Aveo

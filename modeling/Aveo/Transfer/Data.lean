import Aveo.Transfer.Fragments
import Aveo.Ve.Handlers

/-!
# The bytes of a transfer

`asyncWriteMem` and `asyncReadMem` from the call to the delivery of the request they return: the fragments, the command of
each with its submit function, the handler of the VE and its result function, and the status that goes along the chain.

The commands of a transfer are executed one after the other. They may be submitted before the replies to earlier ones are
there, but a command reads memory of the VH when it is submitted only if it is a SENDBUFF, and only the result function of
a RECVBUFF writes it, so that makes no difference within a transfer.
-/

namespace Aveo

open Lib

/-- The memory of the VH and the VE thread of a context. -/
structure Sides where
  vh : Mem
  ve : Ve

/-- What becomes of a command: it is submitted and answered, `urpc_generic_send` refuses it, or the VE sends an exception
instead of the answer and leaves its thread in some state. -/
inductive Fate
  | answered
  | refused
  | exception (ve : Ve)

section Commands

variable (s : Sides) (dst src size : Word)

/-- The command of `sendBuffAsync`; `prev` is the status of the command before it in the chain. -/
def sendBuff (prev : Option CommandState) : Fate → Sides × CommandState
  | .answered =>
      ({ s with ve := (sendbuffHandler s.ve s.ve.replies.length dst (s.vh.read src size.toNat) .sent).1 }, prev.getD .ok)
  | .refused => (s, .error)
  | .exception ve => ({ s with ve := ve }, .exception)

/-- The result function of `recvBuffAsync`: the destination and the size have to be those of the command. -/
def recvResult (prev : Option CommandState) : Option VeReply → Sides × CommandState
  | some (.sendbuff sentDst buff) =>
      if dst ≠ sentDst then (s, .exception)
      else if size.toNat ≠ buff.length then (s, .exception)
      else ({ s with vh := s.vh.write dst buff }, prev.getD .ok)
  | _ => (s, .exception)

/-- The command of `recvBuffAsync`. -/
def recvBuff (prev : Option CommandState) : Fate → Sides × CommandState
  | .answered =>
      let ve := (recvbuffHandler s.ve s.ve.replies.length src dst size .sent).1
      recvResult { s with ve := ve } dst size prev (ve.replies.getLast?.map SentReply.msg)
  | .refused => (s, .error)
  | .exception ve => ({ s with ve := ve }, .exception)

end Commands

/-- A loop over the fragments, with the function that makes the command of a fragment. -/
def fragmentChain (cmd : Sides → Word → Word → Word → Option CommandState → Fate → Sides × CommandState) (fate : Nat → Fate) :
    Nat → Sides → Word → Word → Option CommandState → List Word → Sides × Option CommandState
  | _, s, _, _, prev, [] => (s, prev)
  | k, s, dst, src, prev, psz :: rest =>
      let r := cmd s dst src psz prev (fate k)
      fragmentChain cmd fate (k + 1) r.1 (dst + psz) (src + psz) (some r.2) rest

/-- A transfer with a fragment size: a transfer of nothing is a VH command, which is executed unless it is cancelled. -/
def transferMem (cmd : Sides → Word → Word → Word → Option CommandState → Fate → Sides × CommandState) (fate : Nat → Fate)
    (fuel : Nat) (maxfrag : Word) (s : Sides) (dst src size : Word) : Option (Sides × CommandState) :=
  if size = 0 then
    match fate 0 with
    | .answered => some (s, .ok)
    | _ => some (s, .error)
  else
    (fragmentLoop maxfrag fuel size).map fun frags =>
      let r := fragmentChain cmd fate 0 s dst src none frags
      (r.1, r.2.getD .ok)

/-- `asyncWriteMem` to the delivery of its request. -/
def asyncWriteMem (align8b : Word → Word) (maxSend : Word) (sendfrag sendcut : Option String) (fate : Nat → Fate) (fuel : Nat)
    (s : Sides) (dst src size : Word) : Option (Sides × CommandState) :=
  transferMem sendBuff fate fuel (writeFrag align8b maxSend sendfrag sendcut size) s dst src size

/-- `asyncReadMem` to the delivery of its request. -/
def asyncReadMem (align8b : Word → Word) (maxSend : Word) (recvfrag recvcut : Option String) (fate : Nat → Fate) (fuel : Nat)
    (s : Sides) (dst src size : Word) : Option (Sides × CommandState) :=
  transferMem recvBuff fate fuel (readFrag align8b maxSend recvfrag recvcut size) s dst src size

/-! ### One command -/

/-- A command that succeeds has copied its bytes from one memory to the other, and the ones before it in the chain have
succeeded. -/
def Copies (cmd : Sides → Word → Word → Word → Option CommandState → Fate → Sides × CommandState) (source target : Sides → Mem) :
    Prop :=
  ∀ {s s' dst src size prev fate}, cmd s dst src size prev fate = (s', .ok) →
    prev.getD .ok = .ok ∧ source s' = source s ∧ target s' = (target s).write dst ((source s).read src size.toNat)

theorem sendBuff_copies : Copies sendBuff (fun s => s.vh) fun s => s.ve.mem := by
  intro s s' dst src size prev fate h
  cases fate with
  | answered =>
    obtain ⟨hs, hprev⟩ := Prod.mk.inj h
    subst hs
    exact ⟨hprev, rfl, rfl⟩
  | refused => cases h
  | exception ve => cases h

theorem recvBuff_answered {s : Sides} {dst src size : Word} {prev : Option CommandState} :
    recvBuff s dst src size prev .answered =
      ({ vh := s.vh.write dst (s.ve.mem.read src size.toNat),
         ve := (recvbuffHandler s.ve s.ve.replies.length src dst size .sent).1 }, prev.getD .ok) := by
  have hreply : (recvbuffHandler s.ve s.ve.replies.length src dst size .sent).1.replies.getLast?.map SentReply.msg =
      some (.sendbuff dst (s.ve.mem.read src size.toNat)) := by
    simp [recvbuffHandler, replyChecked, Ve.send]
  simp only [recvBuff, hreply, recvResult]
  rw [if_neg (by simp), if_neg (by simp)]

theorem recvBuff_copies : Copies recvBuff (fun s => s.ve.mem) fun s => s.vh := by
  intro s s' dst src size prev fate h
  cases fate with
  | answered =>
    rw [recvBuff_answered] at h
    obtain ⟨hs, hprev⟩ := Prod.mk.inj h
    subst hs
    exact ⟨hprev, rfl, rfl⟩
  | refused => cases h
  | exception ve => cases h

/-! ### The chain -/

/-- The number of bytes of some fragments. -/
def fragBytes (frags : List Word) : Nat := (frags.map BitVec.toNat).sum

theorem fragBytes_cons (psz : Word) (frags : List Word) : fragBytes (psz :: frags) = psz.toNat + fragBytes frags := by
  rw [fragBytes, List.map_cons, List.sum_cons, fragBytes]

/-- The fragments make up the transfer. -/
theorem fragBytes_fragmentLoop {maxfrag : Word} : ∀ {fuel : Nat} {size : Word} {frags : List Word},
    fragmentLoop maxfrag fuel size = some frags → fragBytes frags = size.toNat := by
  intro fuel
  induction fuel with
  | zero =>
    intro size frags h
    rw [fragmentLoop] at h
    split at h
    · cases h
    · rename_i hzero
      cases h
      exact (Nat.eq_zero_of_not_pos hzero).symm
  | succ fuel ih =>
    intro size frags h
    rw [fragmentLoop] at h
    split at h
    · obtain ⟨rest, hrest, rfl⟩ := Option.map_eq_some_iff.mp h
      have hle : (if size ≤ maxfrag then size else maxfrag).toNat ≤ size.toNat := by
        split
        · exact Nat.le_refl _
        · rename_i hnot
          exact Nat.le_of_lt (BitVec.not_le.mp hnot)
      rw [fragBytes_cons, ih hrest, BitVec.toNat_sub_of_le hle]
      omega
    · rename_i hzero
      cases h
      exact (Nat.eq_zero_of_not_pos hzero).symm

section

variable {cmd : Sides → Word → Word → Word → Option CommandState → Fate → Sides × CommandState} {source target : Sides → Mem}
  {fate : Nat → Fate}

/-- A chain of commands that succeeds copies as one. -/
theorem Copies.fragmentChain (hcmd : Copies cmd source target) (frags : List Word) : ∀ {k : Nat} {s s' : Sides} {dst src : Word}
    {prev st : Option CommandState}, fragBytes frags ≤ 2 ^ 64 →
    fragmentChain cmd fate k s dst src prev frags = (s', st) → st.getD .ok = .ok →
    prev.getD .ok = .ok ∧ source s' = source s ∧ target s' = (target s).write dst ((source s).read src (fragBytes frags)) := by
  induction frags with
  | nil =>
    intro k s s' dst src prev st _ h hok
    cases h
    exact ⟨hok, rfl, Mem.write_nil.symm⟩
  | cons psz frags ih =>
    intro k s s' dst src prev st hsize h hok
    rw [fragBytes_cons] at hsize ⊢
    obtain ⟨hprev, hsource, htarget⟩ := ih (by omega) h hok
    obtain ⟨hprev₁, hsource₁, htarget₁⟩ := hcmd (Prod.ext rfl hprev :
      cmd s dst src psz prev (fate k) = ((cmd s dst src psz prev (fate k)).1, .ok))
    refine ⟨hprev₁, hsource.trans hsource₁, ?_⟩
    have happend := @Mem.write_append (target s) dst ((source s).read src psz.toNat)
      ((source s).read (src + psz) (fragBytes frags)) (by simpa using hsize)
    rw [Mem.length_read, BitVec.ofNat_toNat, BitVec.setWidth_eq] at happend
    rw [htarget, htarget₁, hsource₁, Mem.read_append, BitVec.ofNat_toNat, BitVec.setWidth_eq, happend]

/-- A transfer that succeeds copies the bytes of the source and nothing else. -/
theorem Copies.transferMem (hcmd : Copies cmd source target) {fuel : Nat} {maxfrag : Word} {s s' : Sides} {dst src size : Word}
    (h : transferMem cmd fate fuel maxfrag s dst src size = some (s', .ok)) :
    source s' = source s ∧ target s' = (target s).write dst ((source s).read src size.toNat) := by
  rw [Aveo.transferMem] at h
  split at h
  · rename_i hzero
    subst hzero
    split at h <;> cases h
    exact ⟨rfl, Mem.write_nil.symm⟩
  · obtain ⟨frags, hloop, hchain⟩ := Option.map_eq_some_iff.mp h
    obtain ⟨rfl, hok⟩ := Prod.mk.inj hchain
    have hbytes := fragBytes_fragmentLoop hloop
    have := size.isLt
    obtain ⟨-, hsource, htarget⟩ := hcmd.fragmentChain frags (by omega) rfl hok
    exact ⟨hsource, by rw [htarget, hbytes]⟩

end

/-! ### Transfers -/

section

variable {align8b : Word → Word} {maxSend : Word} {frag cut : Option String} {fate : Nat → Fate} {fuel : Nat} {s s' : Sides}
  {dst src size : Word}

theorem asyncWriteMem_ok (h : asyncWriteMem align8b maxSend frag cut fate fuel s dst src size = some (s', .ok)) :
    s'.vh = s.vh ∧ s'.ve.mem = s.ve.mem.write dst (s.vh.read src size.toNat) := sendBuff_copies.transferMem h

theorem asyncReadMem_ok (h : asyncReadMem align8b maxSend frag cut fate fuel s dst src size = some (s', .ok)) :
    s'.ve.mem = s.ve.mem ∧ s'.vh = s.vh.write dst (s.ve.mem.read src size.toNat) := recvBuff_copies.transferMem h

end

/-- What was written to the VE and read back, each with its own fragments, is what it was; nothing outside the two
ranges changes. -/
theorem transfer_round_trip (align8b : Word → Word) (maxSend : Word) (sendfrag sendcut recvfrag recvcut : Option String)
    (fate fate' : Nat → Fate) (fuel fuel' : Nat) (s s₁ s₂ : Sides) (d src dst size : Word)
    (hwrite : asyncWriteMem align8b maxSend sendfrag sendcut fate fuel s d src size = some (s₁, .ok))
    (hread : asyncReadMem align8b maxSend recvfrag recvcut fate' fuel' s₁ dst d size = some (s₂, .ok)) :
    s₂.vh.read dst size.toNat = s.vh.read src size.toNat ∧
      (∀ x, ¬ InRange d size.toNat x → s₂.ve.mem x = s.ve.mem x) ∧
      ∀ x, ¬ InRange dst size.toNat x → s₂.vh x = s.vh x := by
  obtain ⟨hvh₁, hve₁⟩ := asyncWriteMem_ok hwrite
  obtain ⟨hve₂, hvh₂⟩ := asyncReadMem_ok hread
  have hlt := size.isLt
  have hlen : (s.vh.read src size.toNat).length = size.toNat := Mem.length_read _ _ _
  have hsent : s₁.ve.mem.read d size.toNat = s.vh.read src size.toNat := by
    have := @Mem.read_write_self s.ve.mem d (s.vh.read src size.toNat) (by omega)
    rwa [hlen, ← hve₁] at this
  rw [hsent] at hvh₂
  refine ⟨?_, fun x hx => ?_, fun x hx => ?_⟩
  · have := @Mem.read_write_self s₁.vh dst (s.vh.read src size.toNat) (by omega)
    rwa [hlen, ← hvh₂] at this
  · rw [hve₂, hve₁]
    exact Mem.write_of_not_inRange (by rwa [hlen])
  · rw [hvh₂, hvh₁]
    exact Mem.write_of_not_inRange (by rwa [hlen])

/-- A VH memory in which every byte is the low byte of its address, and an empty VE. -/
def freshSides : Sides := { vh := fun a => a.setWidth 8, ve := ⟨fun _ => 0, 0, []⟩ }

theorem writeFrag_cut : writeFrag align8bDiv 0x800000 none (some "8") 24 = 8 := by decide +kernel

theorem readFrag_cut : readFrag align8bDiv 0x800000 none none 24 = 24 := by decide +kernel

/-- Twenty-four bytes are sent in three fragments and received in one. -/
theorem transfer_round_trip_small :
    ∃ s₁ s₂, asyncWriteMem align8bDiv 0x800000 none (some "8") (fun _ => .answered) 3 freshSides 0x5000 0x1000 24 = some (s₁, .ok) ∧
      asyncReadMem align8bDiv 0x800000 none none (fun _ => .answered) 3 s₁ 0x2000 0x5000 24 = some (s₂, .ok) ∧
      s₂.vh.read 0x2000 24 = freshSides.vh.read 0x1000 24 := by
  have hwrite : ∃ s₁, asyncWriteMem align8bDiv 0x800000 none (some "8") (fun _ => .answered) 3 freshSides 0x5000 0x1000 24 =
      some (s₁, .ok) := by
    rw [asyncWriteMem, writeFrag_cut]
    exact ⟨_, rfl⟩
  obtain ⟨s₁, hwrite⟩ := hwrite
  have hread : ∃ s₂, asyncReadMem align8bDiv 0x800000 none none (fun _ => .answered) 3 s₁ 0x2000 0x5000 24 = some (s₂, .ok) := by
    rw [asyncReadMem, readFrag_cut]
    have hloop : fragmentLoop 24 3 24 = some [24] := by decide
    rw [transferMem, if_neg (by decide), hloop, Option.map_some, fragmentChain, recvBuff_answered]
    exact ⟨_, rfl⟩
  obtain ⟨s₂, hread⟩ := hread
  exact ⟨s₁, s₂, hwrite, hread, (transfer_round_trip _ _ _ _ _ _ _ _ _ _ _ _ _ _ _ _ _ hwrite hread).1⟩

end Aveo

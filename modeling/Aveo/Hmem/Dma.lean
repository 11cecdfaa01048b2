import Aveo.Hmem.CallSync

/-!
# DMA of the VE through the VH

The functions of `veo_vedma.cpp` call the DMA functions of libveio on the VE. The handle of a transfer is a buffer of the
caller on the VH: `ve_dma_post` fills a copy of it on the stack of the VE, and `ve_dma_poll` gets a copy of it back. A
session of such calls is compared with one on an engine that works on the memory of the caller directly.
-/

namespace Aveo

open Lib

/-- The functions in `vedmasym`. -/
inductive DmaFunction
  | post
  | poll
  | postWait
  deriving DecidableEq

/-- `ve2velibh` for LIBVEIO, and `sym_name` for its functions. -/
structure DmaCaches where
  ve2velibh : Option Word
  symName : Word → DmaFunction → Option Word

def DmaCaches.new : DmaCaches := ⟨none, fun _ _ => none⟩

/-- A process with libveio: `libh` is what the VE answers to LOADLIB, and `resolved` what it answers to GETSYM. -/
structure DmaProc extends SyscallProc where
  resolved : Word → DmaFunction → Word

namespace DmaProc

variable (p : DmaProc)

/-- `loadVE2VELibrary` for LIBVEIO. -/
def loadVE2VELibrary (c : DmaCaches) : Word × DmaCaches :=
  let handle := c.ve2velibh.getD 0
  if handle ≠ 0 then (handle, c) else (p.libh, { c with ve2velibh := some p.libh })

/-- `getSym`. -/
def getSym (libh : Word) (c : DmaCaches) (f : DmaFunction) : Word × DmaCaches :=
  match c.symName libh f with
  | some addr => (addr, c)
  | none =>
      let symaddr := p.resolved libh f
      if symaddr = 0 then (0, c)
      else (symaddr, { c with symName := Function.update c.symName libh (Function.update (c.symName libh) f (some symaddr)) })

/-- The loop of `getVEDMASyms` for `sym`, with `target_symaddr` and the functions that are left. -/
def getSyms (libh : Word) (sym : DmaFunction) : Word → List DmaFunction → DmaCaches → Word × DmaCaches
  | target, [], c => (target, c)
  | target, f :: fs, c =>
      let r := p.getSym libh c f
      let target := if f = sym then r.1 else target
      if r.1 = 0 then (r.1, r.2) else getSyms libh sym target fs r.2

/-- `getVEDMASyms`. -/
def getVEDMASyms (libh : Word) (sym : DmaFunction) (c : DmaCaches) : Word × DmaCaches :=
  let symaddr := (c.symName libh sym).getD 0
  if symaddr ≠ 0 then (symaddr, c) else p.getSyms libh sym 0 [.post, .poll, .postWait] c

/-- The part that the functions of the interface have in common. -/
def dmaCall (f : DmaFunction) (ca : List Arg) (c : DmaCaches) (s : Sides) : Option (BitVec 32 × DmaCaches × Sides) :=
  let lib := p.loadVE2VELibrary c
  if lib.1 = 0 then some (-enotsup, lib.2, s)
  else
    let sym := p.getVEDMASyms lib.1 f lib.2
    if sym.1 = 0 then some (-enotsup, sym.2, s)
    else
      (p.callSync sym.1 ca s).map fun r => (if r.1 ≠ 0 then -ebusy else r.2.1.setWidth 32, sym.2, r.2.2)

/-- The arguments of a function that starts a transfer. -/
def transferArgs (dst src : Word) (size : BitVec 32) : List Arg := [.u64 dst, .u64 src, .i64 (size.signExtend 64)]

def postArgs (dst src : Word) (size : BitVec 32) (dhandle : Word) : List Arg :=
  transferArgs dst src size ++ [.onStack dhandle 8 .output]

def pollArgs (dhandle : Word) : List Arg := [.onStack dhandle 8 .input]

def veoDmaPost (dst src : Word) (size : BitVec 32) (dhandle : Word) (c : DmaCaches) (s : Sides) :
    Option (BitVec 32 × DmaCaches × Sides) :=
  if dhandle = 0 then some (-efault, c, s) else p.dmaCall .post (postArgs dst src size dhandle) c s

def veoDmaPoll (dhandle : Word) (c : DmaCaches) (s : Sides) : Option (BitVec 32 × DmaCaches × Sides) :=
  if dhandle = 0 then some (-efault, c, s) else p.dmaCall .poll (pollArgs dhandle) c s

def veoDmaPostWait (dst src : Word) (size : BitVec 32) (c : DmaCaches) (s : Sides) : Option (BitVec 32 × DmaCaches × Sides) :=
  p.dmaCall .postWait (transferArgs dst src size) c s

end DmaProc

/-! ### Sessions -/

/-- What a program on the VH does: it calls the functions, for which `setup` puts the image at `stack`, and it writes to
its memory. -/
inductive DmaOp
  | post (stack dst src : Word) (size : BitVec 32) (dhandle : Word)
  | poll (stack dhandle : Word)
  | postWait (stack dst src : Word) (size : BitVec 32)
  | store (addr : Word) (bytes : List Byte)

/-- The process when `setup` puts the image at `stack`. -/
def DmaProc.withStack (p : DmaProc) (stack : Word) : DmaProc := { p with stack := stack }

/-- One operation: what the function returns, and the state. -/
def DmaProc.op (p : DmaProc) (c : DmaCaches) (s : Sides) : DmaOp → Option (BitVec 32 × DmaCaches × Sides)
  | .post stack dst src size dhandle => (p.withStack stack).veoDmaPost dst src size dhandle c s
  | .poll stack dhandle => (p.withStack stack).veoDmaPoll dhandle c s
  | .postWait stack dst src size => (p.withStack stack).veoDmaPostWait dst src size c s
  | .store addr bytes => some (0, c, { s with vh := s.vh.write addr bytes })

/-- The results of a list of operations, and the state. -/
def DmaProc.session (p : DmaProc) : List DmaOp → DmaCaches → Sides → Option (List (BitVec 32) × DmaCaches × Sides)
  | [], c, s => some ([], c, s)
  | o :: os, c, s => do
      let r ← p.op c s o
      let rs ← p.session os r.2.1 r.2.2
      return (r.1 :: rs.1, rs.2)

/-! ### The engine -/

/-- The DMA engine in its own terms: what its functions return, the handle of a transfer, and the state of the engine. -/
structure DmaEngine (σ : Type) where
  post : σ → Word → Word → Word → Word × List Byte × σ
  poll : σ → List Byte → Word × σ
  postWait : σ → Word → Word → Word → Word × σ
  length_handle : ∀ e dst src size, (post e dst src size).2.1.length = 8

namespace DmaEngine

variable {σ : Type} (e : DmaEngine σ)

/-- One operation on the memory of the caller. -/
def op (st : σ × Mem) : DmaOp → BitVec 32 × σ × Mem
  | .post _ dst src size dhandle =>
      if dhandle = 0 then (-efault, st)
      else
        let r := e.post st.1 dst src (size.signExtend 64)
        (r.1.setWidth 32, r.2.2, st.2.write dhandle r.2.1)
  | .poll _ dhandle =>
      if dhandle = 0 then (-efault, st)
      else
        let r := e.poll st.1 (st.2.read dhandle 8)
        (r.1.setWidth 32, r.2, st.2)
  | .postWait _ dst src size =>
      let r := e.postWait st.1 dst src (size.signExtend 64)
      (r.1.setWidth 32, r.2, st.2)
  | .store addr bytes => (0, st.1, st.2.write addr bytes)

def session : List DmaOp → σ × Mem → List (BitVec 32) × σ × Mem
  | [], st => ([], st)
  | o :: os, st =>
      let r := e.op st o
      let rs := session os r.2
      (r.1 :: rs.1, rs.2)

end DmaEngine

/-- The part of the VE stack that the calls use. -/
def dmaFrame : Nat := 224

namespace DmaProc

variable {σ : Type}

/-- An address in that part. -/
def Frame (p : DmaProc) (x : Word) : Prop :=
  InRange (p.env.veSp - BitVec.ofNat 64 reservedStackSize - BitVec.ofNat 64 dmaFrame) dmaFrame x

instance (p : DmaProc) (x : Word) : Decidable (p.Frame x) := inferInstanceAs (Decidable (InRange _ _ _))

/-- The functions of the library work as the engine does, on a state that they keep in the memory of the VE and not in the
part of the stack below their caller's frame. -/
structure Runs (p : DmaProc) (e : DmaEngine σ) (state : Mem → σ) : Prop where
  outside : ∀ mem mem', (∀ x, ¬ p.Frame x → mem x = mem' x) → state mem = state mem'
  post : ∀ dst src size h mem, (∀ x, InRange h 8 x → p.Frame x) →
    ∃ mem', p.env.fn (p.resolved p.libh .post) [dst, src, size, h] mem = some ((e.post (state mem) dst src size).1, mem') ∧
      mem'.read h 8 = (e.post (state mem) dst src size).2.1 ∧ state mem' = (e.post (state mem) dst src size).2.2
  poll : ∀ h mem, (∀ x, InRange h 8 x → p.Frame x) →
    ∃ mem', p.env.fn (p.resolved p.libh .poll) [h] mem = some ((e.poll (state mem) (mem.read h 8)).1, mem') ∧
      state mem' = (e.poll (state mem) (mem.read h 8)).2
  postWait : ∀ dst src size mem,
    ∃ mem', p.env.fn (p.resolved p.libh .postWait) [dst, src, size] mem =
        some ((e.postWait (state mem) dst src size).1, mem') ∧
      state mem' = (e.postWait (state mem) dst src size).2

/-- The library is there, the main context is alive and answers, and the images of the calls fit into a message and into
the page of the stack pointer. -/
structure Working (p : DmaProc) : Prop where
  libh : p.libh ≠ 0
  resolved : ∀ f, p.resolved p.libh f ≠ 0
  alive : p.alive = true
  answers : p.env.call = .answered
  words : 8 ∣ p.env.maxSend.toNat
  room : 40 + 8 * 4 + dmaFrame ≤ p.env.maxSend.toNat
  page : reservedStackSize + dmaFrame ≤ p.env.veSp.toNat % 2 ^ 26

/-- The caches have only what the VE has answered. -/
structure Sound (p : DmaProc) (c : DmaCaches) : Prop where
  lib : ∀ handle ∈ c.ve2velibh, handle = p.libh
  sym : ∀ libh f addr, c.symName libh f = some addr → addr = p.resolved libh f

variable {p : DmaProc} {c : DmaCaches} {s s' : Sides} {e : DmaEngine σ} {state : Mem → σ}

theorem sound_new (p : DmaProc) : p.Sound .new := ⟨fun _ h => (by cases h), fun _ _ _ h => (by cases h)⟩

/-! ### The library and its functions -/

theorem loadVE2VELibrary_spec (hs : p.Sound c) :
    (p.loadVE2VELibrary c).1 = p.libh ∧ p.Sound (p.loadVE2VELibrary c).2 := by
  rw [loadVE2VELibrary]
  split
  · rename_i hne
    cases hlib : c.ve2velibh with
    | none => exact absurd (by rw [hlib]; rfl) hne
    | some handle => exact ⟨hs.lib handle hlib, hs⟩
  · refine ⟨rfl, fun handle h => ?_, hs.sym⟩
    exact (Option.some.inj h).symm

theorem getSym_spec (hs : p.Sound c) (libh : Word) (f : DmaFunction) :
    (p.getSym libh c f).1 = p.resolved libh f ∧ p.Sound (p.getSym libh c f).2 := by
  rw [getSym]
  cases hsym : c.symName libh f with
  | some addr => exact ⟨hs.sym libh f addr hsym, hs⟩
  | none =>
    simp only
    split
    · rename_i hzero
      exact ⟨hzero.symm, hs⟩
    · refine ⟨rfl, hs.lib, fun libh' f' addr h => ?_⟩
      by_cases hlib : libh' = libh
      · subst hlib
        simp only [Function.update_self] at h
        by_cases hf : f' = f
        · subst hf
          rw [Function.update_self] at h
          exact (Option.some.inj h).symm
        · rw [Function.update_of_ne hf] at h
          exact hs.sym _ _ _ h
      · simp only [Function.update_of_ne hlib] at h
        exact hs.sym _ _ _ h

/-- The loop looks up every function, and keeps the address of the one that was asked for. -/
theorem getSyms_spec {libh : Word} (sym : DmaFunction) (hne : ∀ f, p.resolved libh f ≠ 0) (fs : List DmaFunction) :
    ∀ {c : DmaCaches} (target : Word), p.Sound c →
      (p.getSyms libh sym target fs c).1 = (if sym ∈ fs then p.resolved libh sym else target) ∧
        p.Sound (p.getSyms libh sym target fs c).2 := by
  induction fs with
  | nil => exact fun _ hs => ⟨rfl, hs⟩
  | cons f fs ih =>
    intro c target hs
    obtain ⟨haddr, hs'⟩ := getSym_spec hs libh f
    rw [getSyms]
    simp only [haddr, hne f, if_false]
    obtain ⟨hrest, hs''⟩ := ih (if f = sym then p.resolved libh f else target) hs'
    refine ⟨hrest.trans ?_, hs''⟩
    by_cases hf : f = sym
    · subst hf
      simp
    · simp [hf, Ne.symm hf]

theorem getVEDMASyms_spec {libh : Word} (hne : ∀ f, p.resolved libh f ≠ 0) (hs : p.Sound c) (sym : DmaFunction) :
    (p.getVEDMASyms libh sym c).1 = p.resolved libh sym ∧ p.Sound (p.getVEDMASyms libh sym c).2 := by
  rw [getVEDMASyms]
  split
  · rename_i hcached
    cases hsym : c.symName libh sym with
    | none => exact absurd (by rw [hsym]; rfl) hcached
    | some addr => exact ⟨hs.sym libh sym addr hsym, hs⟩
  · obtain ⟨haddr, hs'⟩ := getSyms_spec sym hne [.post, .poll, .postWait] 0 hs
    refine ⟨haddr.trans (if_pos ?_), hs'⟩
    cases sym <;> decide

/-! ### One call -/

section

variable {ca : List Arg}

theorem stackSize_le (hsize : totalSize ca ≤ dmaFrame) : (p.image ca s).stackSize.toNat ≤ dmaFrame := by
  have hlen : (p.image ca s).stackSize.toNat = (totalSize ca + 15) / 16 * 16 :=
    toNat_stackSize _ _ (Nat.lt_of_le_of_lt hsize (by decide))
  rw [dmaFrame] at *
  omega

theorem stackTop_eq : (p.image ca s).stackTop =
    p.env.veSp - BitVec.ofNat 64 reservedStackSize - (p.image ca s).stackSize := rfl

/-- The image of a call lies in the part of the stack that the calls use. -/
theorem frame_of_image (hsize : totalSize ca ≤ dmaFrame) {x : Word}
    (hx : InRange (p.image ca s).stackTop (p.image ca s).stackSize.toNat x) : p.Frame x := by
  have hle := stackSize_le (p := p) (s := s) hsize
  rw [stackTop_eq] at hx
  rw [Frame]
  generalize p.env.veSp - BitVec.ofNat 64 reservedStackSize = sp at *
  generalize (p.image ca s).stackSize = size at *
  rw [InRange] at *
  rw [dmaFrame] at *
  bv_omega

theorem Working.page_of_image (hw : p.Working) (hsize : totalSize ca ≤ dmaFrame) :
    p.env.veSp &&& pageMask = (p.image ca s).stackTop &&& pageMask := by
  have hle := stackSize_le (p := p) (s := s) hsize
  have hpage := hw.page
  have htop : (p.image ca s).stackTop = p.env.veSp - BitVec.ofNat 64 (reservedStackSize + (p.image ca s).stackSize.toNat) := by
    rw [stackTop_eq, BitVec.ofNat_add, BitVec.ofNat_toNat, BitVec.setWidth_eq, BitVec.sub_sub]
  rw [htop, same_page_iff]
  · omega
  · rw [dmaFrame, reservedStackSize] at *
    omega

theorem Working.isSimple (hw : p.Working) (hargs : ca.length ≤ 4) (hsize : totalSize ca ≤ dmaFrame) (addr stack : Word) :
    p.env.isSimple (.of addr stack ca (p.image ca s)) = true := by
  have hle := stackSize_le (p := p) (s := s) hsize
  have hroom := hw.room
  rw [CallEnv.isSimple, Bool.or_eq_true]
  right
  apply decide_eq_true
  have hregs : CallEnv.regArgsSz (.of addr stack ca (p.image ca s)) = BitVec.ofNat 64 (ca.length * 8) := by
    have hfew : ¬ numArgsOnRegister < ca.length := Nat.not_lt.mpr (Nat.le_trans hargs (by decide))
    rw [CallEnv.regArgsSz, CallData.of, if_neg hfew]
  rw [hregs, CallEnv.maxArgsSize, sendCallCmdSizeWithoutData, BitVec.le_def, BitVec.toNat_sub, BitVec.toNat_sub,
    BitVec.toNat_ofNat]
  have hlt := p.env.maxSend.isLt
  show (p.image ca s).stackSize.toNat ≤ _
  rw [dmaFrame] at *
  have h40 : (40 : Word).toNat = 40 := rfl
  omega

/-- The memory in which a function is called. -/
def input (p : DmaProc) (f : DmaFunction) (ca : List Arg) (s : Sides) : Mem :=
  (CallData.of (p.resolved p.libh f) p.stack ca (p.image ca s)).input (p.start ca s)

/-- A call of a function comes back with its result, and it is a call by copying. -/
theorem dmaCall_spec (hw : p.Working) (hs : p.Sound c) {f : DmaFunction} (hargs : ca.length ≤ 4)
    (hsize : totalSize ca ≤ dmaFrame) (hapart : ca.Pairwise BuffersApart)
    (hfresh : ∀ buff len intent, .onStack buff len intent ∈ ca → Apart buff len.toNat p.stack dmaFrame)
    {result : Word} {mem : Mem}
    (hfn : p.env.fn (p.resolved p.libh f) (getRegVal ca (p.image ca s)) (p.input f ca s) = some (result, mem)) :
    ∃ c' s', p.dmaCall f ca c s = some (result.setWidth 32, c', s') ∧ p.Sound c' ∧ s'.ve.mem = mem ∧
      CopyRestored p.env.fn (p.resolved p.libh f) ca (p.image ca s) p.stack s s' result (getRegVal ca (p.image ca s))
        (p.input f ca s) := by
  obtain ⟨hlib, hs₁⟩ := loadVE2VELibrary_spec hs
  obtain ⟨hsym, hs₂⟩ := getVEDMASyms_spec hw.resolved hs₁ f
  have hsize' : totalSize ca < 2 ^ 31 := Nat.lt_of_le_of_lt hsize (by decide)
  obtain ⟨s', hcall⟩ := SyscallProc.callSync_returns (hw.resolved f) hw.alive hw.answers hsize' (hw.page_of_image hsize)
    (hw.isSimple hargs hsize _ _) hfn
  have hcopied := SyscallProc.copyRestored_of_callSync (hw.resolved f) hcall hw.words
    (.inl (Nat.le_trans hargs (by decide))) hapart fun buff len intent hmem x hx hx' =>
      hfresh buff len intent hmem x hx (Nat.lt_of_lt_of_le hx' (stackSize_le hsize))
  refine ⟨_, s', ?_, hs₂, ?_, hcopied⟩
  · rw [dmaCall]
    simp only [hlib, hw.libh, hsym, hw.resolved f, if_false, hcall, Option.map_some]
    rfl
  · have hsame := hcopied.run.symm.trans hfn
    exact congrArg Prod.snd (Option.some.inj hsame)

end

/-! ### Sessions and the engine -/

end DmaProc

/-- The addresses in `H` are those of the heap that images are put at: the image of the operation lies there, and its handle
does not. -/
def DmaOp.Within (H : Word → Prop) : DmaOp → Prop
  | .post stack _ _ _ dhandle | .poll stack dhandle =>
      (∀ x, InRange stack dmaFrame x → H x) ∧ ∀ x, InRange dhandle 8 x → ¬ H x
  | .postWait stack _ _ _ => ∀ x, InRange stack dmaFrame x → H x
  | .store _ _ => True

namespace DmaProc

variable {σ : Type} {p : DmaProc} {c : DmaCaches} {s s' : Sides} {e : DmaEngine σ} {state : Mem → σ} {H : Word → Prop}
  {st : σ × Mem}

/-- The process and the caller's memory are as the engine has them. -/
structure Agrees (p : DmaProc) (state : Mem → σ) (H : Word → Prop) (c : DmaCaches) (s : Sides) (st : σ × Mem) : Prop where
  sound : p.Sound c
  engine : state s.ve.mem = st.1
  vh : ∀ x, ¬ H x → s.vh x = st.2 x

theorem Working.withStack (hw : p.Working) (stack : Word) : (p.withStack stack).Working :=
  ⟨hw.libh, hw.resolved, hw.alive, hw.answers, hw.words, hw.room, hw.page⟩

theorem Runs.withStack (hr : p.Runs e state) (stack : Word) : (p.withStack stack).Runs e state :=
  ⟨hr.outside, hr.post, hr.poll, hr.postWait⟩

theorem agrees_withStack (stack : Word) : (p.withStack stack).Agrees state H c s st ↔ p.Agrees state H c s st :=
  ⟨fun h => ⟨⟨h.sound.lib, h.sound.sym⟩, h.engine, h.vh⟩, fun h => ⟨⟨h.sound.lib, h.sound.sym⟩, h.engine, h.vh⟩⟩

/-- The engine does not notice the image of a call. -/
theorem Runs.state_input (hr : p.Runs e state) {f : DmaFunction} {ca : List Arg} (hsize : totalSize ca ≤ dmaFrame) :
    state (p.input f ca s) = state s.ve.mem := by
  have hsize' : totalSize ca < 2 ^ 31 := Nat.lt_of_le_of_lt hsize (by decide)
  apply hr.outside
  intro x hx
  rw [input, SyscallProc.input_start _ hsize']
  split
  · refine Mem.write_of_not_inRange fun hin => hx (frame_of_image (s := s) hsize ?_)
    rwa [← show (p.image ca s).stackSize.toNat = _ from size_of_setup ((setup_eq_ok_iff _ _ _).mpr hsize')] at hin
  · rfl

theorem totalSize_transfer (dst src : Word) (size : BitVec 32) : totalSize (transferArgs dst src size) = 200 := rfl

theorem totalSize_post (dst src : Word) (size : BitVec 32) (dhandle : Word) : totalSize (postArgs dst src size dhandle) = 216 :=
  rfl

theorem totalSize_poll (dhandle : Word) : totalSize (pollArgs dhandle) = 192 := rfl

theorem regs_transfer (dst src : Word) (size : BitVec 32) :
    getRegVal (transferArgs dst src size) (p.image (transferArgs dst src size) s) = [dst, src, size.signExtend 64] := by
  have hvemva : (p.image (transferArgs dst src size) s).vemva = [0, 0, 0] := rfl
  rw [getRegVal, hvemva]
  simp [transferArgs, Arg.u64, Arg.i64, Arg.getRegVal, IntType.signed, numArgsOnRegister, IntType.size]

/-- The address at which a function finds the handle. -/
def handleAddr (p : DmaProc) (ca : List Arg) (s : Sides) (n : Nat) : Word :=
  (p.image ca s).stackTop + BitVec.ofNat 64 (areaOffset ca n)

/-- The buffer of a call with one argument on the stack. -/
theorem vemva_eq {ca : List Arg} (hsize : totalSize ca ≤ dmaFrame) {n : Nat} {buff len : Word} {intent : Intent}
    (hn : ca[n]? = some (.onStack buff len intent)) : (p.image ca s).vemva[n]? = some (p.handleAddr ca s n) := by
  have harea := paramArea_lt (Nat.lt_of_le_of_lt hsize (by decide))
  obtain ⟨-, -, -, hvemva⟩ := getStackImage_eq s.vh (p.env.veSp - BitVec.ofNat 64 reservedStackSize) harea
  exact hvemva n _ hn rfl

theorem regs_post (dst src : Word) (size : BitVec 32) (dhandle : Word) :
    getRegVal (postArgs dst src size dhandle) (p.image (postArgs dst src size dhandle) s) =
      [dst, src, size.signExtend 64, p.handleAddr (postArgs dst src size dhandle) s 3] := by
  obtain ⟨v, hvemva⟩ : ∃ v, (p.image (postArgs dst src size dhandle) s).vemva = [0, 0, 0, v] := ⟨_, rfl⟩
  have hv := @vemva_eq p s (postArgs dst src size dhandle) (by rw [totalSize_post]; decide) 3 dhandle 8 .output rfl
  rw [hvemva] at hv
  obtain rfl : v = _ := Option.some.inj hv
  rw [getRegVal, hvemva]
  simp [postArgs, transferArgs, Arg.u64, Arg.i64, Arg.getRegVal, IntType.signed, numArgsOnRegister, IntType.size]

theorem regs_poll (dhandle : Word) :
    getRegVal (pollArgs dhandle) (p.image (pollArgs dhandle) s) = [p.handleAddr (pollArgs dhandle) s 0] := by
  obtain ⟨v, hvemva⟩ : ∃ v, (p.image (pollArgs dhandle) s).vemva = [v] := ⟨_, rfl⟩
  have hv := @vemva_eq p s (pollArgs dhandle) (by rw [totalSize_poll]; decide) 0 dhandle 8 .input rfl
  rw [hvemva] at hv
  obtain rfl : v = _ := Option.some.inj hv
  rw [getRegVal, hvemva]
  simp [pollArgs, Arg.getRegVal, numArgsOnRegister]

/-- The handle lies in the part of the stack that the calls use. -/
theorem frame_of_handle {ca : List Arg} (hsize : totalSize ca ≤ dmaFrame) {n : Nat} {buff : Word} {intent : Intent}
    (hn : ca[n]? = some (.onStack buff 8 intent)) {x : Word} (hx : InRange (p.handleAddr ca s n) 8 x) : p.Frame x := by
  have hle : areaOffset ca n + 8 ≤ (p.image ca s).stackSize.toNat :=
    SyscallProc.area_le_stackSize (Nat.lt_of_le_of_lt hsize (by decide)) hn
  apply frame_of_image (s := s) hsize
  rw [handleAddr] at hx
  generalize (p.image ca s).stackTop = top at *
  generalize (p.image ca s).stackSize = size at *
  generalize areaOffset ca n = off at *
  rw [InRange] at *
  bv_omega

/-- The buffers of the arguments: at most the handle. -/
theorem pairwise_apart (dst src : Word) (size : BitVec 32) (dhandle : Word) :
    (postArgs dst src size dhandle).Pairwise BuffersApart ∧ (transferArgs dst src size).Pairwise BuffersApart := by
  simp [postArgs, transferArgs, BuffersApart, Arg.u64, Arg.i64]

theorem apart_of_within {stack dhandle : Word} (hstack : ∀ x, InRange stack dmaFrame x → H x)
    (hhandle : ∀ x, InRange dhandle 8 x → ¬ H x) : Apart dhandle 8 stack dmaFrame :=
  fun x hx hx' => hhandle x hx (hstack x hx')

/-- A call that does not copy back leaves the memory of the caller alone. -/
theorem vh_of_copied {fn : VeFunction} {addr result : Word} {ca : List Arg} {regs : List Word} {mem : Mem} {x : Word}
    (hsize : totalSize ca ≤ dmaFrame) (hcopied : CopyRestored fn addr ca (p.image ca s) p.stack s s' result regs mem)
    (hstack : ∀ x, InRange p.stack dmaFrame x → H x) (hx : ¬ H x)
    (hout : ∀ (n : Nat) buff len intent, ca[n]? = some (.onStack buff len intent) → intent.copiedOut = true →
      ¬ InRange buff len.toNat x) : s'.vh x = s.vh x := by
  apply hcopied.other x _ hout
  intro hin
  exact hx (hstack x (Nat.lt_of_lt_of_le hin (stackSize_le hsize)))

/-- The only buffer of a post is the handle. -/
theorem onStack_of_postArgs {dst src : Word} {size : BitVec 32} {dhandle buff len : Word} {intent : Intent}
    (hmem : .onStack buff len intent ∈ postArgs dst src size dhandle) : buff = dhandle ∧ len = 8 := by
  simp only [postArgs, transferArgs, Arg.u64, Arg.i64, List.cons_append, List.nil_append, List.mem_cons, reduceCtorEq, false_or,
    List.not_mem_nil, or_false, Arg.onStack.injEq] at hmem
  exact ⟨hmem.1, hmem.2.1⟩

/-- A function finds the handle of the caller. -/
theorem Agrees.read_handle (h : Agrees p state H c s st) (f : DmaFunction) {ca : List Arg} (hlen : ca.length ≤ 4)
    (hsize : totalSize ca ≤ dmaFrame) {n : Nat} {dhandle : Word} (hn : ca[n]? = some (.onStack dhandle 8 .input))
    (hhandle : ∀ x, InRange dhandle 8 x → ¬ H x) :
    (p.input f ca s).read (p.handleAddr ca s n) 8 = st.2.read dhandle 8 := by
  have hdel := SyscallProc.delivered_start (p := p.toSyscallProc) (s := s) (p.resolved p.libh f)
    (Nat.lt_of_le_of_lt hsize (by decide)) (.inl (Nat.le_trans hlen (by decide)))
  obtain ⟨v, hv, -, hcopied⟩ := hdel.area n dhandle 8 .input hn
  cases (vemva_eq hsize hn).symm.trans hv
  refine (hcopied rfl).trans (Mem.read_congr fun x hx => ?_)
  exact h.vh x (hhandle x hx)

/-- The caller gets the handle that the function has left, if it is the only buffer that is copied back. -/
theorem Agrees.write_handle (h : Agrees p state H c s st) {fn : VeFunction} {addr result : Word} {ca : List Arg}
    {regs : List Word} {mem : Mem} (hsize : totalSize ca ≤ dmaFrame)
    (hcopied : CopyRestored fn addr ca (p.image ca s) p.stack s s' result regs mem)
    (hstack : ∀ x, InRange p.stack dmaFrame x → H x) {n : Nat} {dhandle : Word}
    (hn : ca[n]? = some (.onStack dhandle 8 .output))
    (honly : ∀ buff len intent, .onStack buff len intent ∈ ca → buff = dhandle ∧ len = 8) {bytes : List Byte}
    (hlength : bytes.length = 8) (hbytes : s'.ve.mem.read (p.handleAddr ca s n) 8 = bytes) {x : Word} (hx : ¬ H x) :
    s'.vh x = st.2.write dhandle bytes x := by
  by_cases hin : InRange dhandle 8 x
  · obtain ⟨v, hv, hread⟩ := hcopied.buffer n dhandle 8 .output hn
    cases (vemva_eq hsize hn).symm.trans hv
    apply Mem.eq_write_of_read _ (by rwa [hlength])
    rw [hlength]
    exact hread.trans hbytes
  · rw [Mem.write_of_not_inRange (by rwa [hlength]), ← h.vh x hx]
    refine vh_of_copied hsize hcopied hstack hx fun n buff len intent hn _ => ?_
    obtain ⟨rfl, rfl⟩ := honly buff len intent (List.mem_of_getElem? hn)
    exact hin

theorem post_refines (hw : p.Working) (hr : p.Runs e state) (h : Agrees p state H c s st) {dst src : Word} {size : BitVec 32}
    {dhandle : Word} (hstack : ∀ x, InRange p.stack dmaFrame x → H x) (hhandle : ∀ x, InRange dhandle 8 x → ¬ H x)
    (hne : dhandle ≠ 0) : ∃ c' s', p.veoDmaPost dst src size dhandle c s =
        some (((e.post st.1 dst src (size.signExtend 64)).1).setWidth 32, c', s') ∧
      Agrees p state H c' s' ((e.post st.1 dst src (size.signExtend 64)).2.2,
        st.2.write dhandle (e.post st.1 dst src (size.signExtend 64)).2.1) := by
  have hsize : totalSize (postArgs dst src size dhandle) ≤ dmaFrame := by rw [totalSize_post]; decide
  have hlen : (postArgs dst src size dhandle).length ≤ 4 := Nat.le_refl 4
  have hbuffer : (postArgs dst src size dhandle)[3]? = some (.onStack dhandle 8 .output) := rfl
  obtain ⟨mem, hfn, hbytes, hstate⟩ := hr.post dst src (size.signExtend 64)
    (p.handleAddr (postArgs dst src size dhandle) s 3) (p.input .post (postArgs dst src size dhandle) s)
    fun x hx => frame_of_handle hsize hbuffer hx
  rw [hr.state_input hsize, h.engine] at hfn hbytes hstate
  rw [← regs_post] at hfn
  obtain ⟨c', s', hcall, hs', rfl, hcopied⟩ := dmaCall_spec hw h.sound hlen hsize (pairwise_apart dst src size dhandle).1
    (fun buff len intent hmem => by
      obtain ⟨rfl, rfl⟩ := onStack_of_postArgs hmem
      exact apart_of_within hstack hhandle) hfn
  refine ⟨c', s', (if_neg hne).trans hcall, hs', hstate, fun x hx => ?_⟩
  exact h.write_handle hsize hcopied hstack hbuffer (fun _ _ _ => onStack_of_postArgs) (e.length_handle _ _ _ _) hbytes hx

theorem poll_refines (hw : p.Working) (hr : p.Runs e state) (h : Agrees p state H c s st) {dhandle : Word}
    (hstack : ∀ x, InRange p.stack dmaFrame x → H x) (hhandle : ∀ x, InRange dhandle 8 x → ¬ H x) (hne : dhandle ≠ 0) :
    ∃ c' s', p.veoDmaPoll dhandle c s = some (((e.poll st.1 (st.2.read dhandle 8)).1).setWidth 32, c', s') ∧
      Agrees p state H c' s' ((e.poll st.1 (st.2.read dhandle 8)).2, st.2) := by
  have hsize : totalSize (pollArgs dhandle) ≤ dmaFrame := by rw [totalSize_poll]; decide
  have hlen : (pollArgs dhandle).length ≤ 4 := Nat.le_add_left 1 3
  have hbuffer : (pollArgs dhandle)[0]? = some (.onStack dhandle 8 .input) := rfl
  obtain ⟨mem, hfn, hstate⟩ := hr.poll (p.handleAddr (pollArgs dhandle) s 0) (p.input .poll (pollArgs dhandle) s)
    fun x hx => frame_of_handle hsize hbuffer hx
  rw [hr.state_input hsize, h.engine, h.read_handle .poll hlen hsize hbuffer hhandle] at hfn hstate
  rw [← regs_poll] at hfn
  obtain ⟨c', s', hcall, hs', rfl, hcopied⟩ := dmaCall_spec hw h.sound hlen hsize (List.pairwise_singleton _ _)
    (fun buff len intent hmem => by
      cases List.mem_singleton.mp hmem
      exact apart_of_within hstack hhandle) hfn
  refine ⟨c', s', (if_neg hne).trans hcall, hs', hstate, fun x hx => ?_⟩
  rw [← h.vh x hx]
  refine vh_of_copied hsize hcopied hstack hx fun n buff len intent hn hout => ?_
  cases List.mem_singleton.mp (List.mem_of_getElem? hn)
  cases hout

theorem postWait_refines (hw : p.Working) (hr : p.Runs e state) (h : Agrees p state H c s st) {dst src : Word}
    {size : BitVec 32} (hstack : ∀ x, InRange p.stack dmaFrame x → H x) :
    ∃ c' s', p.veoDmaPostWait dst src size c s =
        some (((e.postWait st.1 dst src (size.signExtend 64)).1).setWidth 32, c', s') ∧
      Agrees p state H c' s' ((e.postWait st.1 dst src (size.signExtend 64)).2, st.2) := by
  have hsize : totalSize (transferArgs dst src size) ≤ dmaFrame := by rw [totalSize_transfer]; decide
  have hlen : (transferArgs dst src size).length ≤ 4 := Nat.le_succ 3
  have hnone : ∀ buff len intent, ¬ .onStack buff len intent ∈ transferArgs dst src size := by
    simp [transferArgs, Arg.u64, Arg.i64]
  obtain ⟨mem, hfn, hstate⟩ := hr.postWait dst src (size.signExtend 64) (p.input .postWait (transferArgs dst src size) s)
  rw [hr.state_input hsize, h.engine] at hfn hstate
  rw [← regs_transfer] at hfn
  obtain ⟨c', s', hcall, hs', rfl, hcopied⟩ := dmaCall_spec hw h.sound hlen hsize (pairwise_apart dst src size 0).2
    (fun buff len intent hmem => absurd hmem (hnone buff len intent)) hfn
  refine ⟨c', s', hcall, hs', hstate, fun x hx => ?_⟩
  rw [← h.vh x hx]
  exact vh_of_copied hsize hcopied hstack hx fun n buff len intent hn _ =>
    absurd (List.mem_of_getElem? hn) (hnone buff len intent)

/-- One operation does what the engine does. -/
theorem op_refines (hw : p.Working) (hr : p.Runs e state) (h : Agrees p state H c s st) {o : DmaOp} (ho : o.Within H) :
    ∃ c' s', p.op c s o = some ((e.op st o).1, c', s') ∧ Agrees p state H c' s' (e.op st o).2 := by
  cases o with
  | post stack dst src size dhandle =>
    rw [DmaEngine.op, op]
    by_cases hne : dhandle = 0
    · rw [if_pos hne, veoDmaPost, if_pos hne]
      exact ⟨c, s, rfl, h⟩
    · rw [if_neg hne]
      obtain ⟨c', s', hop, hagrees⟩ := post_refines (hw.withStack stack) (hr.withStack stack) ((agrees_withStack stack).mpr h)
        ho.1 ho.2 hne
      exact ⟨c', s', hop, (agrees_withStack stack).mp hagrees⟩
  | poll stack dhandle =>
    rw [DmaEngine.op, op]
    by_cases hne : dhandle = 0
    · rw [if_pos hne, veoDmaPoll, if_pos hne]
      exact ⟨c, s, rfl, h⟩
    · rw [if_neg hne]
      obtain ⟨c', s', hop, hagrees⟩ := poll_refines (hw.withStack stack) (hr.withStack stack) ((agrees_withStack stack).mpr h)
        ho.1 ho.2 hne
      exact ⟨c', s', hop, (agrees_withStack stack).mp hagrees⟩
  | postWait stack dst src size =>
    obtain ⟨c', s', hop, hagrees⟩ := postWait_refines (hw.withStack stack) (hr.withStack stack)
      ((agrees_withStack stack).mpr h) ho
    exact ⟨c', s', hop, (agrees_withStack stack).mp hagrees⟩
  | store addr bytes =>
    refine ⟨c, _, rfl, h.sound, h.engine, fun x hx => ?_⟩
    show (bytes[(x - addr).toNat]?).getD (s.vh x) = (bytes[(x - addr).toNat]?).getD (st.2 x)
    rw [h.vh x hx]

theorem session_refines (hw : p.Working) (hr : p.Runs e state) (os : List DmaOp) :
    ∀ {c : DmaCaches} {s : Sides} {st : σ × Mem}, (∀ o ∈ os, o.Within H) → Agrees p state H c s st →
      ∃ c' s', p.session os c s = some ((e.session os st).1, c', s') ∧ Agrees p state H c' s' (e.session os st).2 := by
  induction os with
  | nil => exact fun _ h => ⟨_, _, rfl, h⟩
  | cons o os ih =>
    intro c s st ho h
    obtain ⟨c₁, s₁, hop, h₁⟩ := op_refines hw hr h (ho o List.mem_cons_self)
    obtain ⟨c₂, s₂, hrest, h₂⟩ := ih (fun o' ho' => ho o' (List.mem_cons_of_mem o ho')) h₁
    refine ⟨c₂, s₂, ?_, h₂⟩
    rw [session, hop]
    simp only [Option.bind_eq_bind, Option.bind_some, hrest]
    rfl

/-- A session of the VH gets the results of the engine on its own memory: every operation comes back, each with the result
that the engine gives for the handles as they are in the caller's memory at that time, and at the end the engine on the VE
and the memory of the caller outside of the heap are as if the engine had worked there directly. -/
theorem dma_session_is_local (hw : p.Working) (hr : p.Runs e state) (s : Sides) (os : List DmaOp)
    (hos : ∀ o ∈ os, o.Within H) :
    ∃ c' s', p.session os .new s = some ((e.session os (state s.ve.mem, s.vh)).1, c', s') ∧
      state s'.ve.mem = (e.session os (state s.ve.mem, s.vh)).2.1 ∧
      ∀ x, ¬ H x → s'.vh x = (e.session os (state s.ve.mem, s.vh)).2.2 x := by
  have hstart : Agrees p state H .new s (state s.ve.mem, s.vh) := ⟨sound_new p, rfl, fun _ _ => rfl⟩
  obtain ⟨c', s', hrun, hend⟩ := session_refines hw hr os hos hstart
  exact ⟨c', s', hrun, hend.engine, hend.vh⟩

/-- An engine that numbers its transfers. -/
def counting : DmaEngine Byte where
  post n _ _ _ := (0, n :: zeros 7, n + 1)
  poll n h := ((h.headD 0).setWidth 64, n)
  postWait n _ _ _ := (n.setWidth 64, n + 1)
  length_handle _ _ _ _ := rfl

/-- Its functions, with the number of the next transfer at 0x100. -/
def countingFn : VeFunction := fun addr regs mem =>
  if addr = 0x10 then some (0, (mem.write 0x100 [mem 0x100 + 1]).write (regs.getD 3 0) (mem 0x100 :: zeros 7))
  else if addr = 0x20 then some ((mem (regs.headD 0)).setWidth 64, mem)
  else some ((mem 0x100).setWidth 64, mem.write 0x100 [mem 0x100 + 1])

def countingProc : DmaProc :=
  { libh := 1, symAddr := 0, alive := true, env := roomyEnv 0x10000 countingFn, stack := 0, ident := 0
    resolved := fun _ f => match f with
      | .post => 0x10
      | .poll => 0x20
      | .postWait => 0x30 }

theorem working_counting : countingProc.Working where
  libh := by decide
  resolved f := by cases f <;> decide
  alive := rfl
  answers := rfl
  words := by decide
  room := by decide
  page := by decide

theorem not_frame_counter : ¬ countingProc.Frame 0x100 := by decide +kernel

theorem runs_counting : countingProc.Runs counting (fun mem => mem 0x100) where
  outside mem mem' h := h 0x100 not_frame_counter
  post dst src size h mem hframe := by
    have hlen : (mem 0x100 :: zeros 7).length ≤ 2 ^ 64 := Nat.le_of_lt (Nat.lt_of_le_of_lt (Nat.le_refl 8) (by decide))
    have hout : ¬ InRange h 8 0x100 := fun hin => not_frame_counter (hframe _ hin)
    refine ⟨_, rfl, Mem.read_write_self hlen, ?_⟩
    exact Mem.write_of_not_inRange hout
  poll h mem _ := by
    have hfirst : mem h = (mem.read h 8).headD 0 := by simp [Mem.read, List.range_succ]
    refine ⟨mem, ?_, rfl⟩
    show some ((mem h).setWidth 64, mem) = some (((mem.read h 8).headD 0).setWidth 64, mem)
    rw [hfirst]
  postWait dst src size mem := ⟨_, rfl, rfl⟩

/-- Two transfers with handles next to one another, polled in the other order, and no handle. -/
def twoTransfers : List DmaOp :=
  [.post 0x9000 1 2 8 0x5000, .post 0x9000 3 4 8 0x5008, .poll 0x9000 0x5008, .poll 0x9000 0x5000, .poll 0x9000 0]

theorem dma_session_is_local_two :
    ∃ c' s', countingProc.session twoTransfers .new ⟨fun _ => 0, ⟨fun _ => 0, 0, []⟩⟩ = some ([0, 0, 1, 0, -efault], c', s') := by
  have hapart : ∀ h : Word, h.toNat + 8 ≤ 0x9000 → ∀ x, InRange h 8 x → ¬ InRange 0x9000 dmaFrame x :=
    fun h hle => apart_of_le hle (by decide)
  have hwithin : ∀ o ∈ twoTransfers, o.Within (InRange 0x9000 dmaFrame) := by
    intro o ho
    simp only [twoTransfers, List.mem_cons, List.not_mem_nil, or_false] at ho
    rcases ho with rfl | rfl | rfl | rfl | rfl <;> exact ⟨fun _ hx => hx, hapart _ (by decide)⟩
  obtain ⟨c', s', hrun, -, -⟩ := dma_session_is_local working_counting runs_counting ⟨fun _ => 0, ⟨fun _ => 0, 0, []⟩⟩
    twoTransfers hwithin
  have hresults : (counting.session twoTransfers (0, fun _ => 0)).1 = [0, 0, 1, 0, -efault] := by decide +kernel
  exact ⟨c', s', hresults ▸ hrun⟩

end DmaProc

end Aveo

import Mathlib.Data.List.Pairwise
import Aveo.Args.Setup

/-!
# Copying buffers back

After a call, the function that `CallArgs::copyout` built copies from the stack that the VE sent back to the buffers of
the user. It has its own values of the members of `CallArgs` that it needs, so another `setup` of the same object in the
meantime does not change it.
-/

namespace Aveo

open Lib

namespace Arg

/-- `copyoutFromStackImage`, applied to a payload: the memory of the VH, or `none` if bytes outside the payload are read.
Scalars have no such function, and `copyout` does not ask them for one. -/
def copyoutFromStackImage (stackTop vemva : Word) (payload : List Byte) (mem : Mem) : Arg → Option Mem
  | .onStack buff len intent =>
      if intent.copiedOut = false then some mem
      else if (vemva - stackTop).toNat + len.toNat ≤ payload.length then
        some (mem.write buff (segment payload (vemva - stackTop).toNat len.toNat))
      else none
  | _ => some mem

end Arg

/-- The functions of the arguments, one after the other. -/
def copyouts (stackTop : Word) (payload : List Byte) : Mem → List (Word × Arg) → Option Mem
  | mem, [] => some mem
  | mem, (vemva, arg) :: rest =>
      (arg.copyoutFromStackImage stackTop vemva payload mem).bind fun mem => copyouts stackTop payload mem rest

/-- `CallArgs::copyout`, applied to a payload. -/
def copyout (args : List Arg) (img : StackImage) (payload : List Byte) (mem : Mem) : Option Mem :=
  if img.copiedOut then copyouts img.stackTop payload mem (img.vemva.zip args) else some mem

/-! ### The flag -/

/-- An argument with a function that copies. -/
def Arg.isCopiedOut : Arg → Bool
  | .onStack _ _ intent => intent.copiedOut
  | _ => false

theorem copiedOut_setStackImages {mem : Mem} {sp : Word} (args : List Arg) : ∀ {stack : List Byte} {n : Nat},
    (setStackImages mem sp stack n args).2.2.1 = args.any Arg.isCopiedOut := by
  induction args with
  | nil => exact rfl
  | cons arg args ih =>
    intro stack n
    have hfirst : (arg.setStackImage mem sp stack n).2.2.1 = arg.isCopiedOut := by
      cases arg with
      | onStack buff len intent => rfl
      | _ => simp only [Arg.setStackImage]; split <;> rfl
    rw [setStackImages, List.any_cons, hfirst, ih]

/-- Without an argument to copy, copying does nothing, as does the function for the other case. -/
theorem copyouts_of_not_any {stackTop : Word} {payload : List Byte} {mem : Mem} : ∀ {l : List (Word × Arg)},
    (∀ p ∈ l, p.2.isCopiedOut = false) → copyouts stackTop payload mem l = some mem := by
  intro l
  induction l with
  | nil => exact fun _ => rfl
  | cons p l ih =>
    intro h
    obtain ⟨vemva, arg⟩ := p
    have hfirst : arg.copyoutFromStackImage stackTop vemva payload mem = some mem := by
      have harg := h (vemva, arg) List.mem_cons_self
      cases arg with
      | onStack buff len intent => exact if_pos harg
      | _ => rfl
    rw [copyouts, hfirst]
    exact ih fun p hp => h p (List.mem_cons_of_mem _ hp)

theorem copyout_eq (mem : Mem) (args : List Arg) (sp : Word) (payload : List Byte) (vh : Mem) :
    copyout args (getStackImage mem args sp) payload vh =
      copyouts (getStackImage mem args sp).stackTop payload vh ((getStackImage mem args sp).vemva.zip args) := by
  have hflag : (getStackImage mem args sp).copiedOut = args.any Arg.isCopiedOut := copiedOut_setStackImages args
  rw [copyout]
  split
  · rfl
  · rename_i hnot
    refine (copyouts_of_not_any fun p hp => ?_).symm
    rw [hflag, Bool.not_eq_true, List.any_eq_false] at hnot
    exact Bool.not_eq_true _ ▸ hnot p.2 (List.of_mem_zip hp).2

/-! ### The functions one after the other -/

/-- The buffer of an argument has its place inside the payload. -/
def Placed (stackTop : Word) (payload : List Byte) (p : Word × Arg) : Prop :=
  ∀ buff len intent, p.2 = .onStack buff len intent → (p.1 - stackTop).toNat + len.toNat ≤ payload.length

/-- An address is in a buffer that is copied back. -/
def Overwritten (l : List (Word × Arg)) (x : Word) : Prop :=
  ∃ v buff len intent, (v, Arg.onStack buff len intent) ∈ l ∧ intent.copiedOut = true ∧ InRange buff len.toNat x

/-- The buffers of two arguments have no byte in common. -/
def BuffersApart : Arg → Arg → Prop
  | .onStack buff len _, .onStack buff' len' _ => Apart buff len.toNat buff' len'.toNat
  | _, _ => True

theorem BuffersApart.symm {a b : Arg} (h : BuffersApart a b) : BuffersApart b a := by
  cases a with
  | onStack buff len intent =>
    cases b with
    | onStack buff' len' intent' => exact Apart.symm h
    | _ => trivial
  | _ =>
    cases b with
    | _ => trivial

instance : Std.Symm BuffersApart := ⟨fun _ _ => BuffersApart.symm⟩

section

variable {stackTop : Word} {payload : List Byte} {mem : Mem}

/-- One function writes the bytes of the payload to the buffer and nothing else. -/
theorem copyoutFromStackImage_spec {p : Word × Arg} (h : Placed stackTop payload p) :
    ∃ mem', p.2.copyoutFromStackImage stackTop p.1 payload mem = some mem' ∧
      (∀ x, ¬ Overwritten [p] x → mem' x = mem x) ∧
      ∀ buff len intent, p.2 = .onStack buff len intent → intent.copiedOut = true →
        mem'.read buff len.toNat = segment payload (p.1 - stackTop).toNat len.toNat := by
  obtain ⟨v, arg⟩ := p
  cases arg with
  | onStack buff len intent =>
    have hinside : (v - stackTop).toNat + len.toNat ≤ payload.length := h buff len intent rfl
    have hlen : (segment payload (v - stackTop).toNat len.toNat).length = len.toNat := length_segment hinside
    simp only [Arg.copyoutFromStackImage]
    by_cases hout : intent.copiedOut = true
    · rw [if_neg (by simp [hout]), if_pos hinside]
      refine ⟨_, rfl, fun x hx => Mem.write_of_not_inRange fun hin => ?_, ?_⟩
      · rw [hlen] at hin
        exact hx ⟨v, buff, len, intent, List.mem_singleton_self _, hout, hin⟩
      · rintro _ _ _ ⟨⟩ -
        have hread := @Mem.read_write_self mem buff (segment payload (v - stackTop).toNat len.toNat)
          (by rw [hlen]; exact Nat.le_of_lt len.isLt)
        rwa [hlen] at hread
    · rw [if_pos (by simpa using hout)]
      refine ⟨mem, rfl, fun _ _ => rfl, ?_⟩
      rintro _ _ _ ⟨⟩ hout'
      exact absurd hout' hout
  | _ => exact ⟨mem, rfl, fun _ _ => rfl, nofun⟩

/-- The functions of a list of arguments write the bytes of the payload to the buffers and nothing else. -/
theorem copyouts_spec {l : List (Word × Arg)} : ∀ {mem : Mem}, (∀ p ∈ l, Placed stackTop payload p) →
    l.Pairwise (fun p q => BuffersApart p.2 q.2) →
    ∃ mem', copyouts stackTop payload mem l = some mem' ∧ (∀ x, ¬ Overwritten l x → mem' x = mem x) ∧
      ∀ v buff len intent, (v, Arg.onStack buff len intent) ∈ l → intent.copiedOut = true →
        mem'.read buff len.toNat = segment payload (v - stackTop).toNat len.toNat := by
  induction l with
  | nil => exact fun _ _ => ⟨_, rfl, fun _ _ => rfl, nofun⟩
  | cons p l ih =>
    intro mem hplaced hpair
    obtain ⟨hhead, htail⟩ := List.pairwise_cons.mp hpair
    obtain ⟨mem₁, hfirst, hframe₁, hread₁⟩ := @copyoutFromStackImage_spec stackTop payload mem p (hplaced p List.mem_cons_self)
    obtain ⟨mem₂, hrest, hframe₂, hread₂⟩ := @ih mem₁ (fun q hq => hplaced q (List.mem_cons_of_mem _ hq)) htail
    refine ⟨mem₂, ?_, fun x hx => ?_, fun v buff len intent hmem hout => ?_⟩
    · rw [copyouts, hfirst]
      exact hrest
    · rw [hframe₂, hframe₁]
      · rintro ⟨v, buff, len, intent, hmem, hrange⟩
        exact hx ⟨v, buff, len, intent, List.mem_singleton.mp hmem ▸ List.mem_cons_self, hrange⟩
      · rintro ⟨v, buff, len, intent, hmem, hrange⟩
        exact hx ⟨v, buff, len, intent, List.mem_cons_of_mem _ hmem, hrange⟩
    · rcases List.mem_cons.mp hmem with rfl | hold
      · -- The later functions write to other buffers.
        rw [@Mem.read_congr mem₂ mem₁, hread₁ buff len intent rfl hout]
        intro x hx
        refine hframe₂ x ?_
        rintro ⟨v', buff', len', intent', hmem', -, hx'⟩
        exact hhead _ hmem' x hx hx'
      · exact hread₂ v buff len intent hold hout

/-- The functions of a list of arguments that have their places in the payload return. -/
theorem copyouts_returns {l : List (Word × Arg)} (h : ∀ p ∈ l, Placed stackTop payload p) :
    ∃ mem', copyouts stackTop payload mem l = some mem' := by
  induction l generalizing mem with
  | nil => exact ⟨mem, rfl⟩
  | cons p l ih =>
    obtain ⟨mem₁, hfirst, -⟩ := @copyoutFromStackImage_spec stackTop payload mem p (h p List.mem_cons_self)
    obtain ⟨mem₂, hrest⟩ := @ih mem₁ (fun q hq => h q (List.mem_cons_of_mem _ hq))
    exact ⟨mem₂, by rw [copyouts, hfirst]; exact hrest⟩

/-- What one function writes does not depend on the memory. -/
theorem copyoutFromStackImage_congr {P : Word → Prop} {m m' m₁ : Mem} {p : Word × Arg} (h : ∀ x, P x → m x = m' x)
    (hcopy : p.2.copyoutFromStackImage stackTop p.1 payload m = some m₁) :
    ∃ m₁', p.2.copyoutFromStackImage stackTop p.1 payload m' = some m₁' ∧ ∀ x, P x → m₁ x = m₁' x := by
  obtain ⟨v, arg⟩ := p
  cases arg with
  | onStack buff len intent =>
    simp only [Arg.copyoutFromStackImage] at hcopy ⊢
    split at hcopy
    · rename_i hout
      cases hcopy
      exact ⟨m', if_pos hout, h⟩
    · rename_i hout
      split at hcopy
      · rename_i hinside
        cases hcopy
        refine ⟨_, (if_neg hout).trans (if_pos hinside), fun x hx => ?_⟩
        rw [Mem.write, Mem.write, h x hx]
      · cases hcopy
  | _ =>
    cases hcopy
    exact ⟨m', rfl, h⟩

theorem copyouts_congr {P : Word → Prop} {l : List (Word × Arg)} : ∀ {m m' m₁ : Mem}, (∀ x, P x → m x = m' x) →
    copyouts stackTop payload m l = some m₁ →
    ∃ m₁', copyouts stackTop payload m' l = some m₁' ∧ ∀ x, P x → m₁ x = m₁' x := by
  induction l with
  | nil =>
    intro m m' m₁ h hcopy
    cases hcopy
    exact ⟨m', rfl, h⟩
  | cons p l ih =>
    intro m m' m₁ h hcopy
    obtain ⟨m₂, hfirst, hrest⟩ := Option.bind_eq_some_iff.mp hcopy
    obtain ⟨m₂', hfirst', h₂⟩ := copyoutFromStackImage_congr h hfirst
    obtain ⟨m₁', hrest', h₁⟩ := ih h₂ hrest
    exact ⟨m₁', Option.bind_eq_some_iff.mpr ⟨m₂', hfirst', hrest'⟩, h₁⟩

end

theorem copyout_congr {P : Word → Prop} {args : List Arg} {img : StackImage} {payload : List Byte} {m m' m₁ : Mem}
    (h : ∀ x, P x → m x = m' x) (hcopy : copyout args img payload m = some m₁) :
    ∃ m₁', copyout args img payload m' = some m₁' ∧ ∀ x, P x → m₁ x = m₁' x := by
  unfold copyout at hcopy ⊢
  split at hcopy
  · rename_i hout
    rw [if_pos hout]
    exact copyouts_congr h hcopy
  · rename_i hout
    cases hcopy
    rw [if_neg hout]
    exact ⟨m', rfl, h⟩

/-! ### After `setup` -/

section

variable {mem : Mem} {args : List Arg} {sp : Word} {n : Nat} {buff len : Word} {intent : Intent}

/-- Where the function looks for the bytes of a buffer. -/
theorem vemva_sub_stackTop (hsize : totalSize args < 2 ^ 31) (hn : args[n]? = some (.onStack buff len intent)) :
    ∃ v, (getStackImage mem args sp).vemva[n]? = some v ∧
      (v - (getStackImage mem args sp).stackTop).toNat = areaOffset args n ∧
      areaOffset args n + len.toNat ≤ (getStackImage mem args sp).stackSize.toNat := by
  obtain ⟨-, -, -, hvemva⟩ := getStackImage_eq mem sp (paramArea_lt hsize)
  have hinside : areaOffset args n + (len.toNat + 7) / 8 * 8 ≤ totalSize args := areaOffset_le_totalSize hn
  refine ⟨_, hvemva n _ hn rfl, ?_, ?_⟩
  · rw [toNat_add_sub]
    exact Nat.mod_eq_of_lt (by omega)
  · rw [toNat_stackSize mem sp hsize]
    omega

/-- The bytes of a buffer in the image. -/
theorem segment_buffer (hsize : totalSize args < 2 ^ 31) (hn : args[n]? = some (.onStack buff len intent)) :
    segment (getStackImage mem args sp).image (areaOffset args n) len.toNat =
      if intent.copiedIn then mem.read buff len.toNat else zeros len.toNat := by
  have harea := @segment_area mem args sp (paramArea_lt hsize) n _ hn
  have htake := congrArg (List.take len.toNat) harea
  rw [Lib.segment, List.take_take, Nat.min_eq_left (by simp only [Arg.areaSize]; omega), ← Lib.segment] at htake
  rw [htake, Arg.area, List.take_left']
  split <;> simp

/-- Each buffer has its place inside a payload of the size of the image. -/
theorem placed_of_size (hsize : totalSize args < 2 ^ 31) {payload : List Byte}
    (hpayload : payload.length = (getStackImage mem args sp).stackSize.toNat) :
    ∀ p ∈ (getStackImage mem args sp).vemva.zip args, Placed (getStackImage mem args sp).stackTop payload p := by
  rintro ⟨w, arg⟩ hp buff len intent rfl
  obtain ⟨n, hn⟩ := List.getElem?_of_mem hp
  obtain ⟨hw, harg⟩ := List.getElem?_zip_eq_some.mp hn
  obtain ⟨v, hv, hoff, hle⟩ := @vemva_sub_stackTop mem args sp _ _ _ _ hsize harg
  cases hw.symm.trans hv
  exact (congrArg (· + len.toNat) hoff).trans_le (hle.trans (Nat.le_of_eq hpayload.symm))

/-- The functions read only inside such a payload. -/
theorem copyout_returns (hsize : totalSize args < 2 ^ 31) {payload : List Byte}
    (hpayload : payload.length = (getStackImage mem args sp).stackSize.toNat) (vh : Mem) :
    ∃ vh', copyout args (getStackImage mem args sp) payload vh = some vh' := by
  rw [copyout_eq]
  exact copyouts_returns (placed_of_size hsize hpayload)

theorem mem_zip_of_getElem? {α β : Type} {l : List α} {l' : List β} {n : Nat} {a : α} {b : β} (h : l[n]? = some a)
    (h' : l'[n]? = some b) : (a, b) ∈ l.zip l' :=
  List.mem_of_getElem? (i := n) (by rw [List.getElem?_zip_eq_some]; exact ⟨h, h'⟩)

end

/-- Copying back after a call. The function reads only inside the payload, each buffer with intent OUT or INOUT gets the
bytes at the address that the callee had for it, and nothing else changes. The image itself gives INOUT buffers the
bytes that they had at `setup`, and OUT buffers zeros. -/
theorem copyout_after_setup (mem vh : Mem) (args : List Arg) (sp : Word) (img : StackImage) (payload : List Byte)
    (hsetup : setup mem args sp = .ok img) (hpayload : payload.length = img.stackSize.toNat)
    (hapart : args.Pairwise BuffersApart) :
    ∃ vh', copyout args img payload vh = some vh' ∧
      (∀ (n : Nat) buff len intent, args[n]? = some (.onStack buff len intent) →
        ∃ v, img.vemva[n]? = some v ∧ (v - img.stackTop).toNat + len.toNat ≤ payload.length ∧
          vh'.read buff len.toNat =
            if intent.copiedOut then segment payload (v - img.stackTop).toNat len.toNat else vh.read buff len.toNat) ∧
      (∀ x, (∀ (n : Nat) buff len intent, args[n]? = some (.onStack buff len intent) → intent.copiedOut = true →
        ¬ InRange buff len.toNat x) → vh' x = vh x) ∧
      (payload = img.image → ∀ (n : Nat) buff len intent, args[n]? = some (.onStack buff len intent) →
        (intent = .inout → vh'.read buff len.toNat = mem.read buff len.toNat) ∧
        (intent = .output → vh'.read buff len.toNat = zeros len.toNat)) := by
  obtain ⟨rfl, hsize⟩ := setup_ok hsetup
  have hlen : (getStackImage mem args sp).vemva.length = args.length := by
    rw [(image_eq rfl).2, length_vemva]
  have hplaced := placed_of_size hsize hpayload
  have hpair : ((getStackImage mem args sp).vemva.zip args).Pairwise (fun p q => BuffersApart p.2 q.2) := by
    rw [← List.pairwise_map (f := Prod.snd), List.map_snd_zip (by omega)]
    exact hapart
  obtain ⟨vh', hrun, hframe, hread⟩ := @copyouts_spec _ payload _ vh hplaced hpair
  have hbytes : ∀ (n : Nat) buff len intent, args[n]? = some (.onStack buff len intent) → intent.copiedOut = true →
      vh'.read buff len.toNat = segment payload (areaOffset args n) len.toNat := by
    intro n buff len intent hn hout
    obtain ⟨v, hv, hoff, -⟩ := @vemva_sub_stackTop mem args sp _ _ _ _ hsize hn
    rw [hread v buff len intent (mem_zip_of_getElem? hv hn) hout, hoff]
  refine ⟨vh', (copyout_eq mem args sp payload vh).trans hrun, ?_, fun x hx => hframe x ?_, ?_⟩
  · intro n buff len intent hn
    obtain ⟨v, hv, hoff, hle⟩ := @vemva_sub_stackTop mem args sp _ _ _ _ hsize hn
    refine ⟨v, hv, by omega, ?_⟩
    split
    · rename_i hout
      rw [hbytes n buff len intent hn hout, hoff]
    · rename_i hin
      -- A buffer with intent IN has no byte in common with one that is copied.
      refine Mem.read_congr fun x hx => hframe x ?_
      rintro ⟨v', buff', len', intent', hmem', hout', hx'⟩
      have hne : Arg.onStack buff len intent ≠ .onStack buff' len' intent' := by
        rintro ⟨⟩
        exact hin hout'
      exact hapart.forall (List.mem_of_getElem? hn) (List.of_mem_zip hmem').2 hne x hx hx'
  · rintro ⟨v, buff, len, intent, hmem, hout, hin⟩
    obtain ⟨n, hn⟩ := List.getElem?_of_mem hmem
    exact hx n buff len intent (List.getElem?_zip_eq_some.mp hn).2 hout hin
  · rintro rfl n buff len intent hn
    constructor
    · rintro rfl
      rw [hbytes n buff len _ hn rfl, segment_buffer hsize hn]
      rfl
    · rintro rfl
      rw [hbytes n buff len _ hn rfl, segment_buffer hsize hn]
      rfl

/-- Buffers with the three intents. -/
def threeBuffers : List Arg := [.onStack 0x1000 3 .inout, .onStack 0x2000 2 .output, .onStack 0x3000 9 .input]

/-- The image of the three buffers is copied back to memory that the user has cleared. -/
theorem copyout_after_setup_three :
    ∃ img vh', setup (fun a => a.setWidth 8 + 1) threeBuffers 0x80000 = .ok img ∧
      copyout threeBuffers img img.image (fun _ => 7) = some vh' ∧ vh'.read 0x1000 3 = [1, 2, 3] ∧ vh'.read 0x2000 2 = [0, 0] ∧
      vh'.read 0x3000 9 = List.replicate 9 7 := by
  have hok := (setup_eq_ok_iff (fun a => a.setWidth 8 + 1) threeBuffers 0x80000).mpr (by decide)
  have hpair : threeBuffers.Pairwise BuffersApart := by
    refine .cons ?_ (.cons ?_ (.cons (by simp) .nil))
    · intro b hb
      simp only [List.mem_cons, List.not_mem_nil, or_false] at hb
      rcases hb with rfl | rfl <;> exact apart_of_le (by decide) (by decide)
    · intro b hb
      cases List.mem_singleton.mp hb
      exact apart_of_le (by decide) (by decide)
  obtain ⟨vh', hrun, hbuffers, -, himage⟩ :=
    copyout_after_setup (fun a => a.setWidth 8 + 1) (fun _ => 7) threeBuffers 0x80000 _ _ hok (size_of_setup hok).symm hpair
  obtain ⟨_, -, -, hin⟩ := hbuffers 2 0x3000 9 .input rfl
  rw [if_neg (by decide)] at hin
  exact ⟨_, vh', hok, hrun, ((himage rfl 0 0x1000 3 .inout rfl).1 rfl).trans (by decide),
    ((himage rfl 1 0x2000 2 .output rfl).2 rfl).trans (by decide), hin.trans (by decide)⟩

end Aveo

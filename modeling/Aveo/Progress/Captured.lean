import Aveo.Progress.Registers

/-!
# No request is captured twice

The closures of a command capture requests that the same call issued before: a fragment the one before it, and the
finaliser the sub-requests. No two commands capture the same request, so whoever finds the result of an internal request
gone has retrieved it.
-/

namespace Aveo

open Lib

variable {n : Nat}

theorem Closure.ne_invalid_of_captured {c : Closure} {a : ReqId} (h : a ∈ c.captured) : a ≠ requestIdInvalid := by
  cases c with
  | sendBuff | recvBuff | finaliser => exact of_decide_eq_true (List.mem_filter.mp h).2
  | simpleCall | generic | callVH | synchronizeFunc | emptyTransfer => cases h

/-- The call will issue a finaliser. -/
def Finalises (code : List Instr) : Prop := ∃ kept, .issue .finaliser kept ∈ code

theorem Instr.Next.mem_issue {r : Regs} {i j : Instr} {rest code : List Instr} (h : i.Next r rest code) (hj : j ∈ code)
    (hissue : j.isIssue = true) : j ∈ rest := by
  cases h with
  | next => exact hj
  | dead | refused => exact List.mem_of_mem_drop hj
  | follows hf =>
    refine (List.mem_cons.mp hj).resolve_left ?_
    rintro rfl
    rw [hf.isIssue] at hissue
    cases hissue

/-- A request ID in the local variables of a call that a command may capture. -/
def Regs.Holds (r : Regs) (id : ReqId) : Prop := id = r.req ∨ id = r.prev ∨ ∃ sub, id = r.slot sub

theorem Regs.holds_new {r : Regs} {mark : Nat} (h : SameIds (.new mark) r) {id : ReqId} (hid : r.Holds id) : id = requestIdInvalid := by
  rcases hid with rfl | rfl | ⟨sub, rfl⟩
  · exact h.req
  · exact h.prev
  · rw [h.slot]
    cases sub <;> rfl

theorem SameIds.holds {r r' : Regs} (h : SameIds r r') {id : ReqId} (hid : r'.Holds id) : r.Holds id := by
  rcases hid with rfl | rfl | ⟨sub, rfl⟩
  · exact .inl h.req
  · exact .inr (.inl h.prev)
  · exact .inr (.inr ⟨sub, h.slot sub⟩)

theorem Build.holds_of_captured {b : Build} {r : Regs} {a : ReqId} (h : a ∈ (b.closure r).captured) : r.Holds a := by
  obtain ⟨-, ⟨-, rfl⟩ | ⟨-, sub, rfl⟩⟩ := b.mem_captured h
  · exact .inr (.inl rfl)
  · exact .inr (.inr ⟨sub, rfl⟩)

/-- No closure captures the request. -/
def State.Free (s : State n) (a : ReqId) : Prop := ∀ b c, s.Built b c → a ∉ c.captured

theorem State.free_invalid (s : State n) : s.Free requestIdInvalid := fun _ _ _ h => Closure.ne_invalid_of_captured h rfl

/-- What a thread will have captured is free, and the next fragment and the finaliser do not capture the same. -/
structure Uses (s : State n) (t : Tid n) : Prop where
  exposed : exposed (s.api t).code = true → s.Free (s.api t).regs.prev
  saves : saves (s.api t).code = true → s.Free (s.api t).regs.req
  slots : Finalises (s.api t).code → ∀ sub, s.Free ((s.api t).regs.slot sub)
  apart : Aveo.exposed (s.api t).code = true → Finalises (s.api t).code → ∀ sub,
    (s.api t).regs.slot sub = (s.api t).regs.prev → (s.api t).regs.prev = requestIdInvalid

/-- What a new command captures is free before. -/
theorem Uses.free_of_issue {s : State n} {t : Tid n} (h : Uses s t) {b : Build} {kept : Bool} {rest : List Instr}
    (hcode : (s.api t).code = .issue b kept :: rest) {a : ReqId} (ha : a ∈ (b.closure (s.api t).regs).captured) : s.Free a := by
  obtain ⟨-, ⟨hbuff, rfl⟩ | ⟨rfl, sub, rfl⟩⟩ := Build.mem_captured ha
  · refine h.exposed ?_
    rw [hcode]
    cases b <;> first | rfl | cases hbuff
  · exact h.slots ⟨kept, hcode ▸ List.mem_cons_self⟩ sub

/-- Every request has an owner, the thread in whose variables it may be, and is captured once. -/
structure Unshared (s : State n) (f : ReqId → Tid n) : Prop where
  owner : ∀ t id, (s.api t).regs.Holds id → id = requestIdInvalid ∨ f id = t
  unique : ∀ a b c b' c', s.Built b c → s.Built b' c' → a ∈ c.captured → a ∈ c'.captured → b = b'
  uses : ∀ t, Uses s t

/-- The owners after a step: the thread that takes it owns the request that it may issue. -/
def ownerAfter (f : ReqId → Tid n) (seqNo : ReqId) (l : Label n) (id : ReqId) : Tid n :=
  match l with
  | .api t _ => if id = seqNo then t else f id
  | _ => f id

namespace Unshared

variable {s s' : State n} {l : Label n} {f : ReqId → Tid n} {t : Tid n}

theorem init : Unshared (State.new n) fun _ => none := by
  have hnew : ∀ t id, ((State.new n).api t).regs.Holds id → id = requestIdInvalid := fun t id =>
    Regs.holds_new (show SameIds (.new 0) _ from ⟨rfl, rfl, rfl, rfl, rfl, rfl⟩)
  refine ⟨fun t id hid => .inl (hnew t id hid), ?_, fun t => ⟨nofun, nofun, ?_, nofun⟩⟩
  · rintro a b c b' c' (⟨t, cmd, hcur, -⟩ | ⟨t, h, hmem⟩) <;> contradiction
  · rintro ⟨kept, hmem⟩
    cases hmem

/-- What a thread holds stays free unless the thread itself builds a command. -/
theorem free_step (h : Unshared s f) (hB : Basic s) (hstep : s.step l = some s')
    (hnot : ∀ b kept rest, (s.api t).code = .issue b kept :: rest → (s'.api t).code ≠ rest) {a : ReqId} (hheld : (s.api t).regs.Holds a)
    (hfree : s.Free a) : s'.Free a := by
  intro b c hb hmem
  rcases built_step hB hstep hb with hold | ⟨u, env, b', kept, rest, -, ⟨hcode, hcode'⟩, rfl, rfl, -⟩
  · exact hfree b c hold hmem
  · have hne := Closure.ne_invalid_of_captured hmem
    have htu : t = u := by
      rw [← (h.owner t a hheld).resolve_left hne, (h.owner u a (Build.holds_of_captured hmem)).resolve_left hne]
    subst htu
    exact hnot b' kept rest hcode hcode'

theorem uses_of_new {mark : Nat} (h : SameIds (.new mark) (s.api t).regs) : Uses s t := by
  have hnew : ∀ {id}, (s.api t).regs.Holds id → id = requestIdInvalid := Regs.holds_new h
  have hfree : ∀ {id}, (s.api t).regs.Holds id → s.Free id := fun hid => by
    rw [hnew hid]
    exact s.free_invalid
  exact ⟨fun _ => hfree (.inr (.inl rfl)), fun _ => hfree (.inl rfl), fun _ sub => hfree (.inr (.inr ⟨sub, rfl⟩)),
    fun _ _ _ _ => hnew (.inr (.inl rfl))⟩

/-- A step that leaves the thread with the same variables and with nothing new to do. -/
theorem uses_of_same (h : Unshared s f) (hB : Basic s) (hstep : s.step l = some s')
    (hnot : ∀ b kept rest, (s.api t).code = .issue b kept :: rest → (s'.api t).code ≠ rest)
    (hregs : SameIds (s.api t).regs (s'.api t).regs)
    (hsaves : saves (s'.api t).code = true → saves (s.api t).code = true)
    (hexposed : exposed (s'.api t).code = true → exposed (s.api t).code = true)
    (hfin : Finalises (s'.api t).code → Finalises (s.api t).code) : Uses s' t := by
  have hu := h.uses t
  refine ⟨fun hc => ?_, fun hc => ?_, fun hc sub => ?_, fun hc hf sub => ?_⟩
  · rw [hregs.prev]
    exact h.free_step hB hstep hnot (.inr (.inl rfl)) (hu.exposed (hexposed hc))
  · rw [hregs.req]
    exact h.free_step hB hstep hnot (.inl rfl) (hu.saves (hsaves hc))
  · rw [hregs.slot]
    exact h.free_step hB hstep hnot (.inr (.inr ⟨sub, rfl⟩)) (hu.slots (hfin hc) sub)
  · rw [hregs.slot, hregs.prev]
    exact hu.apart (hexposed hc) (hfin hf) sub

/-- The thread builds a command: what it captures was free, and the new request is. -/
theorem uses_of_issue (h : Unshared s f) (hr : (context n).Reachable publicCalls s) (hr' : (context n).Reachable publicCalls s')
    (hstep : s.step l = some s') {env : Env} (hl : l = .api t env) {b : Build} {kept : Bool} {rest : List Instr}
    (hcode : (s.api t).code = .issue b kept :: rest) (hplaced : placedIssue b kept rest = true)
    (hregs : SameIds { (s.api t).regs with req := s.sh.seqNo, prev := s.sh.seqNo } (s'.api t).regs)
    (hseq : s'.sh.seqNo = s.sh.seqNo + 1) (hpushed : pushedIds s'.sh.log = pushedIds s.sh.log)
    (hcode' : (s'.api t).code = rest) : Uses s' t := by
  have hT := Tracked.of_reachable hr
  have hcap' := Captures.of_reachable hr'
  have hslots := ((Captures.of_reachable hr).thread t).slots
  have hnew : s'.Free s.sh.seqNo := by
    intro b c hb hmem
    have hin := (hcap'.captured b c hb _ hmem).1
    rw [hpushed] at hin
    exact Nat.lt_irrefl _ (hT.lt_of_pushed hin)
  have hfin : Finalises rest → Finalises (s.api t).code := by
    rintro ⟨kept, hmem⟩
    exact ⟨kept, hcode ▸ List.mem_cons_of_mem _ hmem⟩
  have hslot : ∀ sub, (s'.api t).regs.slot sub = (s.api t).regs.slot sub := by
    intro sub
    rw [hregs.slot]
    cases sub <;> rfl
  refine ⟨fun _ => hregs.prev ▸ hnew, fun _ => hregs.req ▸ hnew, fun hc sub => ?_, fun _ _ sub heq => ?_⟩
  · rw [hcode'] at hc
    rw [hslot]
    intro b₁ c₁ hb hmem
    rcases built_step hT.basic hstep hb with hold | ⟨u, env', b₂, kept₂, rest₂, hl', ⟨hcode₂, -⟩, rfl, rfl, -⟩
    · exact (h.uses t).slots (hfin hc) sub b₁ c₁ hold hmem
    · obtain ⟨rfl, -⟩ := Label.api.inj (hl.symm.trans hl')
      rw [hcode] at hcode₂
      cases hcode₂
      obtain ⟨hne, ⟨hbuff, heq⟩ | ⟨rfl, -⟩⟩ := Build.mem_captured hmem
      · have hexp : Aveo.exposed (s.api t).code = true := by
          rw [hcode]
          cases b <;> first | rfl | cases hbuff
        exact hne (heq.trans ((h.uses t).apart hexp (hfin hc) sub heq))
      · -- Nothing is issued behind the finaliser.
        obtain ⟨kept', hmem'⟩ := hc
        have hany : rest.any Instr.isIssue = true := List.any_eq_true.mpr ⟨_, hmem', rfl⟩
        simp [placedIssue, hany] at hplaced
  · rw [hslot, hregs.prev] at heq
    rcases hslots sub with hinv | ⟨hpush, -⟩
    · have hle := seqNo_le hr'
      rw [hseq, ← hinv, heq] at hle
      exact absurd hle (Nat.not_succ_le_self _)
    · rw [heq] at hpush
      exact absurd (hT.lt_of_pushed hpush) (Nat.lt_irrefl _)

theorem uses_of_exec (h : Unshared s f) (hr : (context n).Reachable publicCalls s) (hr' : (context n).Reachable publicCalls s')
    (hstep : s.step l = some s') {env : Env} (hl : l = .api t env) {i : Instr} {rest : List Instr}
    (hcode : (s.api t).code = i :: rest) (hnext : i.Next (s.api t).regs rest (s'.api t).code)
    (hpushed : i.isIssue = true → pushedIds s'.sh.log = pushedIds s.sh.log)
    (hexec : RegsExec s.sh (s.api t).regs rest i s'.sh (s'.api t)) : Uses s' t := by
  have hB := Basic.of_reachable hr
  have hplaced := placed_of_reachable hr t
  rw [hcode] at hplaced
  obtain ⟨hat, -⟩ := placed_cons hplaced
  have hu := h.uses t
  have hnot : i.isIssue = false → ∀ b kept rest, (s.api t).code = .issue b kept :: rest → (s'.api t).code ≠ rest := by
    intro hi b kept rest' heq
    rw [hcode] at heq
    cases heq
    cases hi
  have hfin : Finalises (s'.api t).code → Finalises (s.api t).code := by
    rintro ⟨kept, hmem⟩
    exact ⟨kept, hcode ▸ List.mem_cons_of_mem _ (hnext.mem_issue hmem rfl)⟩
  cases hexec with
  | same hi hne hregs hint hlive =>
    refine h.uses_of_same hB hstep (hnot hi) hregs (fun hc => ?_) (fun hc => ?_) hfin
    · rw [hcode]
      exact hnext.saves hat hlive hi hc
    · rw [hcode, ← hnext.exposed hat hlive hi hne]
      exact hc
  | issue hregs hint hseq hcur hcode' =>
    exact h.uses_of_issue hr hr' hstep hl hcode (Bool.and_eq_true_iff.mp hat).2 hregs hseq (hpushed rfl) hcode'
  | @dead k _ _ hregs hint hcode' =>
    simp only [placedAt, Bool.and_eq_true, Bool.or_eq_true, Bool.not_eq_true'] at hat
    have hexp : Aveo.exposed (s'.api t).code = true → Aveo.exposed (s.api t).code = true := by
      intro hc
      rw [hcode'] at hc
      rw [hc] at hat
      rw [hcode]
      exact hat.2.resolve_left (fun h => by cases h)
    refine ⟨fun hc => ?_, fun _ => hregs.req ▸ s'.free_invalid, fun hc sub => ?_, fun hc hf sub => ?_⟩
    · rw [hregs.prev]
      exact h.free_step hB hstep (hnot rfl) (.inr (.inl rfl)) (hu.exposed (hexp hc))
    · rw [hregs.slot]
      exact h.free_step hB hstep (hnot rfl) (.inr (.inr ⟨sub, rfl⟩)) (hu.slots (hfin hc) sub)
    · rw [hregs.slot, hregs.prev]
      exact hu.apart (hexp hc) (hfin hf) sub
  | clearPrev hregs hint hcode' =>
    refine ⟨fun _ => hregs.prev ▸ s'.free_invalid, fun hc => ?_, fun hc sub => ?_, fun _ _ _ _ => hregs.prev⟩
    · rw [hcode'] at hc
      rw [hregs.req]
      exact h.free_step hB hstep (hnot rfl) (.inl rfl) (hu.saves (hcode ▸ hc))
    · rw [hregs.slot]
      exact h.free_step hB hstep (hnot rfl) (.inr (.inr ⟨sub, rfl⟩)) (hu.slots (hfin hc) sub)
  | @save sub _ _ hregs hint hcode' =>
    simp only [placedAt, Bool.and_eq_true, Bool.not_eq_true'] at hat
    refine ⟨fun hc => ?_, fun hc => ?_, fun hc sub' => ?_, fun hc => ?_⟩
    · rw [hcode', hat.1.2] at hc
      cases hc
    · rw [hcode', hat.2] at hc
      cases hc
    · rw [hregs.slot, Regs.slot_save]
      split
      · exact h.free_step hB hstep (hnot rfl) (.inl rfl) (hu.saves (hcode ▸ rfl))
      · exact h.free_step hB hstep (hnot rfl) (.inr (.inr ⟨sub', rfl⟩)) (hu.slots (hfin hc) sub')
    · rw [hcode', hat.1.2] at hc
      cases hc

theorem uses_step (h : Unshared s f) (hr : (context n).Reachable publicCalls s) (hstep : s.step l = some s')
    (hC : publicCalls s l s') (t : Tid n) : Uses s' t := by
  have hr' : (context n).Reachable publicCalls s' := hr.step (l := l) hstep hC
  have hB := Basic.of_reachable hr
  have hsame : ∀ {r : Regs}, r = (s.api t).regs → SameIds (s.api t).regs r := by
    rintro r rfl
    exact ⟨rfl, rfl, rfl, rfl, rfl, rfl⟩
  cases threadStep hstep t with
  | same hcode hregs =>
    refine h.uses_of_same hB hstep (fun b kept rest heq heq' => ?_) (hsame hregs) (hcode ▸ id) (hcode ▸ id) (hcode ▸ id)
    rw [hcode, heq] at heq'
    exact List.cons_ne_self _ _ heq'
  | @exec env exited i rest hl hphase hcode hexec =>
    refine h.uses_of_exec hr hr' hstep hl hcode (exec_code hexec) (fun hi => ?_) (exec_regs hexec)
    have heff := exec_effect hexec
    generalize s'.sh = sh' at heff ⊢
    generalize s'.api t = a at heff
    cases heff with
    | quiet hq | issue _ hq => exact hq.pushedIds
    | nowait _ _ _ hi' | push hi' => rw [hi'] at hi; cases hi
    | lock => rfl
    | take _ hq => exact hq.pushedIds.trans (pushedIds_append_of_none _ rfl)
  | resumed hphase hcode hregs =>
    have hlen : ∀ b kept rest, (s.api t).code = .issue b kept :: rest → (s'.api t).code ≠ rest := by
      intro b kept rest heq heq'
      have hlength := congrArg List.length heq'
      rcases hcode with hcode | hcode <;> rw [hcode, heq] at hlength <;> simp at hlength <;> omega
    refine h.uses_of_same hB hstep hlen (hsame hregs) (fun hc => ?_) (fun hc => ?_) fun hc => ?_
    · rcases hcode with hcode | hcode <;> rw [hcode] at hc <;> exact hc
    · rcases hcode with hcode | hcode <;> rw [hcode] at hc <;> exact hc
    · obtain ⟨kept, hmem⟩ := hc
      rcases hcode with hcode | hcode <;> rw [hcode] at hmem <;> exact ⟨kept, (List.mem_cons.mp hmem).resolve_left nofun⟩
  | called hl hcode hregs => exact uses_of_new (hregs ▸ Call.sameIds_regs (hC t _ hl) _)
  | unwound hcode hregs =>
    obtain ⟨hexp, hsaves, -, hissue⟩ := unwind_calm (s.api t).regs
    refine ⟨fun hc => ?_, fun hc => ?_, fun ⟨kept, hmem⟩ => ?_, fun hc => ?_⟩
    · rw [hcode, hexp] at hc
      cases hc
    · rw [hcode, hsaves] at hc
      cases hc
    · rw [hcode] at hmem
      exact absurd (List.any_eq_true.mpr ⟨_, hmem, rfl⟩) (Bool.eq_false_iff.mp hissue)
    · rw [hcode, hexp] at hc
      cases hc
  | vh hu hmain hcode hregs =>
    have hnew : SameIds (.new 0) (s'.api t).regs := by
      rw [hregs]
      exact ⟨rfl, rfl, rfl, rfl, rfl, rfl⟩
    exact uses_of_new hnew

/-- What a thread holds after a step, it held before, or it is the request that it issued. -/
theorem holds_step (hstep : s.step l = some s') (hC : publicCalls s l s') {id : ReqId} (hid : (s'.api t).regs.Holds id) :
    id = requestIdInvalid ∨ (s.api t).regs.Holds id ∨ (∃ env, l = .api t env) ∧ id = s.sh.seqNo := by
  cases threadStep hstep t with
  | same _ hregs | resumed _ _ hregs | unwound _ hregs => exact .inr (.inl (hregs ▸ hid))
  | called hl hcode hregs =>
    rw [hregs] at hid
    exact .inl (Regs.holds_new (Call.sameIds_regs (hC t _ hl) _) hid)
  | vh hu hmain hcode hregs =>
    rw [hregs] at hid
    exact .inl (Regs.holds_new (show SameIds (.new 0) _ from ⟨rfl, rfl, rfl, rfl, rfl, rfl⟩) hid)
  | @exec env exited i rest hl hphase hcode hexec =>
    have hregs := exec_regs hexec
    generalize s'.sh = sh' at hregs
    generalize s'.api t = a at hregs hid
    cases hregs with
    | same _ _ hregs => exact .inr (.inl (hregs.holds hid))
    | issue hregs =>
      rcases hregs.holds hid with hreq | hprev | ⟨sub, hsub⟩
      · exact .inr (.inr ⟨⟨env, hl⟩, hreq⟩)
      · exact .inr (.inr ⟨⟨env, hl⟩, hprev⟩)
      · exact .inr (.inl (.inr (.inr ⟨sub, by rw [hsub]; cases sub <;> rfl⟩)))
    | dead hregs =>
      rcases hregs.holds hid with hreq | hprev | ⟨sub, hsub⟩
      · exact .inl hreq
      · exact .inr (.inl (.inr (.inl hprev)))
      · exact .inr (.inl (.inr (.inr ⟨sub, by rw [hsub]; cases sub <;> rfl⟩)))
    | clearPrev hregs =>
      rcases hregs.holds hid with hreq | hprev | ⟨sub, hsub⟩
      · exact .inr (.inl (.inl hreq))
      · exact .inl hprev
      · exact .inr (.inl (.inr (.inr ⟨sub, by rw [hsub]; cases sub <;> rfl⟩)))
    | @save sub _ _ hregs =>
      refine .inr (.inl ?_)
      rcases hregs.holds hid with hreq | hprev | ⟨sub', hsub⟩
      · exact .inl (by rw [hreq]; cases sub <;> rfl)
      · exact .inr (.inl (by rw [hprev]; cases sub <;> rfl))
      · rw [Regs.slot_save] at hsub
        split at hsub
        · exact .inl hsub
        · exact .inr (.inr ⟨sub', hsub⟩)

theorem holds_lt (hr : (context n).Reachable publicCalls s) {id : ReqId} (hid : (s.api t).regs.Holds id) :
    id = requestIdInvalid ∨ id < s.sh.seqNo := by
  have hT := Tracked.of_reachable hr
  have hids := (Captures.of_reachable hr).thread t
  have hknown : ∀ {x}, s.Known t x → x = requestIdInvalid ∨ x < s.sh.seqNo := by
    rintro x (hinv | hpushed | ⟨cmd, hcur, rfl⟩)
    · exact .inl hinv
    · exact .inr (hT.lt_of_pushed hpushed)
    · exact .inr (hT.conserved.lt_of_live (.inl ⟨t, .inl hcur⟩))
  rcases hid with rfl | rfl | ⟨sub, rfl⟩
  · exact hknown hids.req
  · exact hknown hids.prev
  · exact (hids.slots sub).imp_right fun hs => hT.lt_of_pushed hs.1

theorem step (hr : (context n).Reachable publicCalls s) (hstep : s.step l = some s') (hC : publicCalls s l s') (h : Unshared s f) :
    ∃ g, Unshared s' g := by
  have hB := Basic.of_reachable hr
  refine ⟨ownerAfter f s.sh.seqNo l, fun t id hid => ?_, fun a b c b' c' hb hb' ha ha' => ?_, h.uses_step hr hstep hC⟩
  · rcases holds_step hstep hC hid with hinv | hheld | ⟨⟨env, rfl⟩, rfl⟩
    · exact .inl hinv
    · rcases holds_lt hr hheld with hinv | hlt
      · exact .inl hinv
      · refine (h.owner t id hheld).imp_right fun hf => ?_
        cases l with
        | api u env => simpa only [ownerAfter, if_neg (Nat.ne_of_lt hlt)] using hf
        | main | call => exact hf
    · exact .inr (if_pos rfl)
  · rcases built_step hB hstep hb with hold | ⟨t, env, b₁, kept, rest, -, ⟨hcode, -⟩, rfl, rfl, -⟩ <;>
      rcases built_step hB hstep hb' with hold' | ⟨t', env', b₂, kept', rest', -, ⟨hcode', -⟩, rfl, rfl, -⟩
    · exact h.unique a b c b' c' hold hold' ha ha'
    · exact absurd ha ((h.uses t').free_of_issue hcode' ha' b c hold)
    · exact absurd ha' ((h.uses t).free_of_issue hcode ha b' c' hold')
    · rfl

theorem of_reachable (h : (context n).Reachable publicCalls s) : ∃ f, Unshared s f := by
  refine h.invariant (I := fun s => ∃ f, Unshared s f) ?_ fun s₀ l s₁ hr hstep hC ⟨f, hs⟩ => hs.step hr hstep hC
  intro s₀ h0
  rw [h0]
  exact ⟨_, init⟩

end Unshared

/-- A request is captured by the closures of one command only. -/
theorem captured_unique {s : State n} (hr : (context n).Reachable publicCalls s) {a b b' : ReqId} {c c' : Closure} (hb : s.Built b c)
    (hb' : s.Built b' c') (ha : a ∈ c.captured) (ha' : a ∈ c'.captured) : b = b' := by
  obtain ⟨f, hf⟩ := Unshared.of_reachable hr
  exact hf.unique a b c b' c' hb hb' ha ha'

end Aveo

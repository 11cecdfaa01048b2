import Aveo.Progress.Synchronize
import Aveo.Progress.Wakeup

/-!
# Several calls for one result

`callWaitResult` checks `rem_reqid`, waits in the completion map and erases the request from `rem_reqid` in three critical
sections. A call that takes the result between the first two leaves it waiting for ever. The runs in which no other call
looks at a request between its check and its erasing have none of that: one call gets the result, and the calls after
it get VEO_COMMAND_ERROR.
-/

namespace Aveo

open Lib

variable {n : Nat}

/-! ### Between the check and the erasing -/

/-- The request for which `callWaitResult` is between its check of `rem_reqid` and the erasing. -/
def Instr.stands : Instr → Option ReqId
  | .waitCompletion id | .waitErase id _ => some id
  | _ => none

def Api.Stands (a : Api) (id : ReqId) : Prop := ∃ i ∈ a.code, i.stands = some id

theorem Instr.asks_of_stands {i : Instr} {id : ReqId} (h : i.stands = some id) : i.asks = some id := by
  unfold stands at h
  split at h <;> first | exact h | cases h

theorem Api.Stands.asks {a : Api} {id : ReqId} (h : a.Stands id) : a.Asks id := by
  obtain ⟨i, hi, hid⟩ := h
  exact .inl ⟨i, hi, Instr.asks_of_stands hid⟩

theorem stands_of_mem_call {c : Call} {j : Instr} (h : j ∈ c.code) : j.stands = none := by
  by_contra hne
  obtain ⟨id, hid⟩ := Option.ne_none_iff_exists'.mp hne
  rcases Call.retrieves h (Instr.retrieves_of_asks (Instr.asks_of_stands hid)) with rfl | rfl <;>
    cases List.mem_singleton.mp h <;> cases hid

theorem stands_of_mem_vhCode {c : Closure} {j : Instr} (h : j ∈ vhCode c) : j.stands = none := by
  by_contra hne
  obtain ⟨id, hid⟩ := Option.ne_none_iff_exists'.mp hne
  cases (asks_of_mem_vhCode h).symm.trans (Instr.asks_of_stands hid)

/-- A call stands with its next instruction, and not while it makes a pass. -/
structure Api.Upfront (a : Api) : Prop where
  tail : ∀ i ∈ a.code.tail, i.stands = none
  pass : a.phase ≠ .run → ∀ i ∈ a.code, i.stands = none

theorem Api.Upfront.of_none {a : Api} (h : ∀ i ∈ a.code, i.stands = none) : a.Upfront :=
  ⟨fun i hi => h i (List.mem_of_mem_tail hi), fun _ => h⟩

theorem Instr.Next.tail_subset {r : Regs} {i : Instr} {rest code : List Instr} (h : i.Next r rest code) : code.tail ⊆ rest := by
  intro x hx
  cases h with
  | next => exact List.mem_of_mem_tail hx
  | dead | refused => exact List.mem_of_mem_drop (List.mem_of_mem_tail hx)
  | follows => exact hx

/-- The instructions after which a call stands make no pass. -/
theorem exec_run_of_stands {t : Tid n} {exited : Bool} {sh sh' : Shared n} {r : Regs} {rest : List Instr} {i j : Instr} {env : Env}
    {a : Api} (h : exec t exited sh r rest i env = some (sh', a)) (hf : i.Follows r j) (hj : j.stands ≠ none) : a.phase = .run := by
  cases hf with
  | waitCompletion =>
    cases env <;> simp only [exec] at h <;> (try split at h) <;> cases h <;> rfl
  | waitErase =>
    cases env with
    | tau =>
      obtain ⟨p, -, heq⟩ := Option.map_eq_some_iff.mp h
      cases heq
      rfl
    | _ => cases h
  | _ => exact absurd rfl hj

theorem upfront_step {s s' : State n} {l : Label n} {u : Tid n} (hstep : s.step l = some s') (h : (s.api u).Upfront) :
    (s'.api u).Upfront := by
  cases threadStep hstep u with
  | same hcode hregs hphase hpass => exact ⟨hcode ▸ h.tail, fun hne => hcode ▸ h.pass (hpass hne)⟩
  | @exec env exited i rest hl hphase hcode hexec =>
    have hrest : ∀ x ∈ rest, x.stands = none := fun x hx => h.tail x (by rw [hcode]; exact hx)
    refine ⟨fun x hx => hrest x ((exec_code hexec).tail_subset hx), fun hne x hx => ?_⟩
    rcases exec_mem_code hexec hx with hin | hf
    · exact hrest x hin
    · by_contra hstands
      exact hne (exec_run_of_stands hexec hf hstands)
  | @resumed id hphase hcode hregs hrun =>
    have hnone := h.pass (by
      intro hrun
      rw [hrun] at hphase
      cases hphase)
    refine .of_none fun x hx => ?_
    rcases hcode with hcode | hcode <;> rw [hcode] at hx <;> rcases List.mem_cons.mp hx with rfl | hx <;>
      first | rfl | exact hnone x hx
  | called hl hcode => exact .of_none fun x hx => stands_of_mem_call (hcode ▸ hx)
  | unwound hcode =>
    refine .of_none fun x hx => ?_
    rcases Api.mem_unwind (hcode ▸ hx) with rfl | rfl <;> rfl
  | vh hu hmain hcode => exact .of_none fun x hx => stands_of_mem_vhCode (hcode ▸ hx)

theorem upfront_of_reachable {C : Machine.Cond (State n) (Label n)} {s : State n} (hr : (context n).Reachable C s) (u : Tid n) :
    (s.api u).Upfront := by
  refine hr.invariant (I := fun s => (s.api u).Upfront) ?_ fun s l s' _ hstep _ h => upfront_step hstep h
  rintro s rfl
  exact .of_none nofun

/-- What stands is the next instruction. -/
theorem Api.Upfront.head {a : Api} (h : a.Upfront) {i j : Instr} {rest : List Instr} (hcode : a.code = i :: rest) (hj : j ∈ a.code)
    (hid : j.stands ≠ none) : j = i := by
  rw [hcode] at hj
  refine (List.mem_cons.mp hj).resolve_right fun hin => hid (h.tail j ?_)
  rw [hcode]
  exact hin

/-- A call begins to stand with its check, if that finds the request. -/
theorem stands_step {s s' : State n} {l : Label n} {u : Tid n} {id : ReqId} (hstep : s.step l = some s')
    (h : (s'.api u).Stands id) :
    (s.api u).Stands id ∨ ∃ env rest, l = .api u env ∧ (s.api u).phase = .run ∧ (s.api u).code = .waitCheck id :: rest ∧
      id ∈ s.sh.remReqid ∧ s'.sh = s.sh := by
  obtain ⟨j, hj, hid⟩ := h
  cases threadStep hstep u with
  | same hcode => exact .inl ⟨j, hcode ▸ hj, hid⟩
  | @exec env exited i rest hl hphase hcode hexec =>
    have hkept : j ∈ rest → (s.api u).Stands id := fun hin => ⟨j, hcode ▸ List.mem_cons_of_mem _ hin, hid⟩
    rcases exec_mem_code hexec hj with hin | hf
    · exact .inl (hkept hin)
    · cases hf with
      | waitCompletion x =>
        cases hid
        cases env <;> simp only [exec] at hexec <;> try cases hexec
        split at hexec
        · rename_i hin
          exact .inr ⟨_, rest, hl, hphase, hcode, hin, (Prod.mk.inj (Option.some.inj hexec)).1.symm⟩
        · rw [← (Prod.mk.inj (Option.some.inj hexec)).2] at hj
          exact .inl (hkept hj)
      | waitErase x c =>
        cases hid
        exact .inl ⟨.waitCompletion id, hcode ▸ List.mem_cons_self, rfl⟩
      | _ => cases hid
  | resumed hphase hcode =>
    rcases hcode with hcode | hcode <;> rw [hcode] at hj <;> rcases List.mem_cons.mp hj with rfl | hj <;>
      first | cases hid | exact .inl ⟨j, hj, hid⟩
  | called hl hcode => cases (stands_of_mem_call (hcode ▸ hj)).symm.trans hid
  | unwound hcode => rcases Api.mem_unwind (hcode ▸ hj) with rfl | rfl <;> cases hid
  | vh hu hmain hcode => cases (stands_of_mem_vhCode (hcode ▸ hj)).symm.trans hid

/-- A call that has the result in its hand goes on to erase the request. -/
theorem erase_kept {C : Machine.Cond (State n) (Label n)} {s s' : State n} {l : Label n} (hr : (context n).Reachable C s)
    (hstep : s.step l = some s') {u : Tid n} {id : ReqId} {c : Command} (hmem : .waitErase id c ∈ (s.api u).code) :
    .waitErase id c ∈ (s'.api u).code ∨
      ∃ env rest, l = .api u env ∧ (s.api u).phase = .run ∧ (s.api u).code = .waitErase id c :: rest := by
  have hup := upfront_of_reachable hr u
  cases threadStep hstep u with
  | same hcode => exact .inl (hcode ▸ hmem)
  | exec hl hphase hcode hexec =>
    cases hup.head hcode hmem nofun
    exact .inr ⟨_, _, hl, hphase, hcode⟩
  | resumed hphase hcode => rcases hcode with hcode | hcode <;> exact .inl (hcode ▸ List.mem_cons_of_mem _ hmem)
  | called hl hcode hregs hidle =>
    rw [hidle] at hmem
    cases hmem
  | unwound hcode hregs hrun hpass => cases hup.pass hpass _ hmem
  | vh hu hmain hcode hregs hmain₀ =>
    subst hu
    rw [((Basic.of_reachable hr).calm hmain₀).2] at hmem
    cases hmem

/-- The last step of `callWaitResult` with the result in its hand. -/
theorem erase_exec {s s' : State n} {t : Tid n} {env : Env} {id : ReqId} {c : Command} {rest : List Instr}
    (hstep : s.step (.api t env) = some s') (hphase : (s.api t).phase = .run) (hcode : (s.api t).code = .waitErase id c :: rest) :
    (s'.api t).code = rest ∧ s'.sh.remReqid = s.sh.remReqid.erase id := by
  obtain ⟨sh, a, h, rfl⟩ := exec_of_step hstep hphase hcode
  rw [State.setApi_api_self]
  cases env <;> simp only [exec] at h <;> try cases h
  split at h <;> cases h
  · exact ⟨rfl, rfl⟩
  · rename_i hnot
    exact ⟨rfl, (List.erase_of_not_mem hnot).symm⟩

/-! ### The condition -/

/-- Every call asks for a request that a call returned. While a call stands, no other call checks `rem_reqid` for its
request, and `_peekResult` is called for it only before it is completed. -/
def unraced : Machine.Cond (State n) (Label n) := fun s l s' =>
  publicCalls s l s' ∧
  ∀ t env i rest id u, l = .api t env → (s.api t).phase = .run → (s.api t).code = i :: rest → u ≠ t → (s.api u).Stands id →
    i ≠ .waitCheck id ∧
    (i = .peekResult id ∨ i = .waitPeek id → .waitCompletion id ∈ (s.api u).code ∧ id ∉ s.sh.comq.completionIds)

theorem unraced_public {s : State n} (hr : (context n).Reachable unraced s) : (context n).Reachable publicCalls s :=
  hr.mono fun _ _ _ h => h.1

/-- What a step does to `rem_reqid` and to what was delivered, with the thread that executes an instruction. -/
inductive LookStep (s : State n) (l : Label n) (s' : State n) : Prop
  | exec {t : Tid n} {env : Env} {i : Instr} {rest : List Instr} (hl : l = .api t env) (hphase : (s.api t).phase = .run)
      (hcode : (s.api t).code = i :: rest) (h : RemExec t s.sh (s.api t).regs rest i s'.sh (s'.api t))
  | pass {x : Bool} {t : Tid n} {p : PassPc} {env : Env} {sh : Shared n} {out : PassOut} {b : Bool} (hp : s.cursor = some p)
      (h : passStep x t s.sh p env = some (sh, out)) (hsh : s'.sh = { sh with terminated := b })
      (hcur : s'.cursor = out.passPc ∨ out = .throws ∧ s'.cursor = s.cursor)
  | same (hrem : s'.sh.remReqid = s.sh.remReqid) (hdel : deliveredIds s'.sh.log = deliveredIds s.sh.log)

theorem lookStep {s s' : State n} {l : Label n} (hB : Basic s) (hB' : Basic s') (hstep : s.step l = some s') : LookStep s l s' := by
  cases step_cases hstep with
  | out hmain hmain' h hsh => exact .same (by rw [hsh]) (by rw [hsh])
  | execLock | execTest | execUnlock => exact .same rfl rfl
  | pass hmain h =>
    obtain ⟨hp, ⟨b, hsh⟩, hcur⟩ := cursor_mainPass hB hB' hmain
    exact .pass hp h hsh hcur
  | vhReturn hmain hphase hcode =>
    refine .same rfl ?_
    simp [deliveredIds, Shared.emit, Event.deliveredId]
  | @exec t env i rest sh a hphase hcode h =>
    exact .exec rfl hphase hcode (by rw [State.setApi_api_self]; exact exec_rem h)
  | apiPass hphase h hout =>
    obtain ⟨hp, ⟨b, hsh⟩, hcur⟩ := cursor_apiPass hB hB' hphase hout
    exact .pass hp h hsh hcur
  | unlock hphase hlock => exact .same rfl rfl
  | call hphase hcode hmay => exact .same rfl rfl

/-- The set has only IDs that were issued. -/
theorem lt_of_listed {s : State n} (hr : (context n).Reachable publicCalls s) {id : ReqId} (hin : id ∈ s.sh.remReqid) :
    id < s.sh.seqNo := by
  refine hr.invariant (I := fun s => ∀ id ∈ s.sh.remReqid, id < s.sh.seqNo) ?_ (fun s l s' hr hstep hC hs id hin => ?_) id hin
  · rintro s rfl id hin
    cases hin
  · have hT := Tracked.of_reachable hr
    have hle := (grows hT.basic hstep).seqNo
    have hr' : (context n).Reachable publicCalls s' := hr.step (l := l) hstep hC
    have hsub : ∀ {rem : List ReqId}, s'.sh.remReqid = rem → rem ⊆ s.sh.remReqid → id < s'.sh.seqNo := fun hrem hsub =>
      (hs id (hsub (hrem ▸ hin))).trans_le hle
    cases lookStep hT.basic (Basic.of_reachable hr') hstep with
    | same hrem => exact hsub hrem (List.Subset.refl _)
    | pass hp h hsh =>
      have hrem' : s'.sh.remReqid = _ := congrArg Shared.remReqid hsh
      cases passStep_rem h with
      | same hrem => exact hsub (hrem'.trans hrem) (List.Subset.refl _)
      | take _ _ _ _ hrem => exact hsub (hrem'.trans hrem) List.erase_subset
    | @exec t env i rest hl hphase hcode h =>
      cases h with
      | same _ hrem | wait _ _ hrem => exact hsub hrem (List.Subset.refl _)
      | nowait _ _ hrem | take _ _ _ hrem | erase _ _ hrem => exact hsub hrem List.erase_subset
      | insert hi hrem =>
        subst hi
        obtain ⟨cmd, hcmd, hreq⟩ := hT.cur_of_remInsert hcode
        rw [hrem] at hin
        rcases List.mem_insert_iff.mp hin with rfl | hold
        · have hbuilt : s.Built (s.api t).regs.req cmd.closure := .inl ⟨t, cmd, hcmd, hreq, rfl⟩
          exact (hbuilt.lt hT).trans_le hle
        · exact (hs id hold).trans_le hle

/-- A request in the set that a call asks for is one that a call returned. -/
theorem public_of_listed {s : State n} (hr : (context n).Reachable publicCalls s) {t : Tid n} {id : ReqId} (hasks : (s.api t).Asks id)
    (hin : id ∈ s.sh.remReqid) : id ∈ pushedIds s.sh.log ∧ id ∉ s.sh.internal := by
  refine (asks_public hr hasks).resolve_left fun hinv => ?_
  exact absurd (lt_of_listed hr hin) (by rw [hinv]; exact Nat.not_lt.mpr (seqNo_le hr))

/-- How a step can take a request that a call returned out of `rem_reqid`. -/
theorem rem_lost {s s' : State n} {l : Label n} (hr : (context n).Reachable publicCalls s) (hr' : (context n).Reachable publicCalls s')
    (hstep : s.step l = some s') {id : ReqId} (hpub : id ∈ pushedIds s.sh.log ∧ id ∉ s.sh.internal) (hin : id ∈ s.sh.remReqid)
    (hout : id ∉ s'.sh.remReqid) :
    ∃ u env i rest, l = .api u env ∧ (s.api u).phase = .run ∧ (s.api u).code = i :: rest ∧
      ((i = .peekResult id ∨ i = .waitPeek id) ∧ id ∈ s.sh.comq.completionIds ∨ ∃ c, i = .waitErase id c) := by
  have hT := Tracked.of_reachable hr
  have hcap := Captures.of_reachable hr
  have hgone : ∀ {x : ReqId}, s'.sh.remReqid = s.sh.remReqid.erase x → x = id := by
    intro x hrem
    by_contra hne
    rw [hrem] at hout
    exact hout ((List.mem_erase_of_ne (Ne.symm hne)).mpr hin)
  cases lookStep hT.basic (Basic.of_reachable hr') hstep with
  | same hrem => exact absurd (hrem ▸ hin) hout
  | pass hp h hsh =>
    -- A result function takes only what no call returns.
    have hrem' : s'.sh.remReqid = _ := congrArg Shared.remReqid hsh
    cases passStep_rem h with
    | same hrem => exact absurd (hrem' ▸ hrem ▸ hin) hout
    | @take cmd m x c hunpack hx _ _ hrem =>
      cases hgone (hrem'.trans hrem)
      subst hunpack
      exact absurd (hcap.captured _ _ (built_of_cursor hr hp rfl) _ hx).2 hpub.2
  | @exec u env i rest hl hphase hcode h =>
    cases h with
    | same _ hrem | wait _ _ hrem => exact absurd (hrem ▸ hin) hout
    | insert _ hrem => exact absurd (by rw [hrem]; exact List.mem_insert_of_mem hin) hout
    | nowait _ hcur hrem =>
      cases hgone hrem
      exact absurd hpub.1 (hT.not_mem_pushed hcur)
    | @take x c hi _ hentry hrem =>
      cases hgone hrem
      refine ⟨u, env, i, rest, hl, hphase, hcode, .inl ⟨?_, BlockingMap.mem_keys_of_entry hentry⟩⟩
      unfold Instr.looks at hi
      split at hi <;> cases hi
      · exact .inl rfl
      · exact .inr rfl
      · obtain ⟨-, cmd, hcmd, hid⟩ := captured_of_finPeek hr (hcode ▸ List.mem_cons_self)
        exact absurd (hcap.captured _ _ (built_of_vh hr hcmd).1 _ hid).2 hpub.2
    | @erase x c hi _ hrem =>
      cases hgone hrem
      exact ⟨u, env, i, rest, hl, hphase, hcode, .inr ⟨c, hi⟩⟩

/-! ### One call at a time -/

structure Exclusive (s : State n) : Prop where
  unique : ∀ t u id, (s.api t).Stands id → (s.api u).Stands id → t = u
  listed : ∀ t id, (s.api t).Stands id → id ∈ s.sh.remReqid
  taken : ∀ id ∈ deliveredIds s.sh.log, id ∈ s.sh.remReqid → ∃ t c, .waitErase id c ∈ (s.api t).code

namespace Exclusive

variable {s s' : State n} {l : Label n}

theorem unique_step (h : Exclusive s) (hstep : s.step l = some s') (hC : unraced s l s') (t u : Tid n) (id : ReqId)
    (ht : (s'.api t).Stands id) (hu : (s'.api u).Stands id) : t = u := by
  -- Two calls do not begin to stand in one step, and one does not begin while another stands.
  rcases stands_step hstep ht with ht | ⟨env, rest, hl, hphase, hcode, -⟩ <;>
    rcases stands_step hstep hu with hu | ⟨env', rest', hl', hphase', hcode', -⟩
  · exact h.unique t u id ht hu
  · by_contra hne
    exact (hC.2 u env' _ rest' id t hl' hphase' hcode' hne ht).1 rfl
  · by_contra hne
    exact (hC.2 t env _ rest id u hl hphase hcode (Ne.symm hne) hu).1 rfl
  · cases hl.symm.trans hl'
    rfl

theorem listed_step (h : Exclusive s) (hr : (context n).Reachable unraced s) (hstep : s.step l = some s') (hC : unraced s l s')
    (t : Tid n) (id : ReqId) (ht : (s'.api t).Stands id) : id ∈ s'.sh.remReqid := by
  rcases stands_step hstep ht with hold | ⟨-, -, -, -, -, hin, hsh⟩
  · have hin := h.listed t id hold
    by_contra hout
    have hpub := unraced_public hr
    have hpub' : (context n).Reachable publicCalls s' := hpub.step (l := l) hstep hC.1
    obtain ⟨u, env, i, rest, hl, hphase, hcode, hlook⟩ := rem_lost hpub hpub' hstep (public_of_listed hpub hold.asks hin) hin hout
    by_cases hut : u = t
    · -- The call itself erases the request, and does not stand any more.
      subst hut hl
      have hup := upfront_of_reachable hr u
      obtain ⟨j, hj, hid⟩ := hold
      cases hup.head hcode hj (by rw [hid]; exact nofun)
      rcases hlook with ⟨rfl | rfl, -⟩ | ⟨c, rfl⟩
      · cases hid
      · cases hid
      · obtain ⟨x, hx, hid'⟩ := ht
        rw [(erase_exec hstep hphase hcode).1] at hx
        cases (hup.tail x (by rw [hcode]; exact hx)).symm.trans hid'
    · rcases hlook with ⟨hi, hdone⟩ | ⟨c, hi⟩
      · exact ((hC.2 u env i rest id t hl hphase hcode (Ne.symm hut) hold).2 hi).2 hdone
      · exact hut (h.unique u t id ⟨i, hcode ▸ List.mem_cons_self, by rw [hi]; rfl⟩ hold)
  · rw [hsh]
    exact hin

theorem taken_step (h : Exclusive s) (hr : (context n).Reachable publicCalls s) (hstep : s.step l = some s')
    (hC : publicCalls s l s') (id : ReqId) (hdel : id ∈ deliveredIds s'.sh.log) (hin' : id ∈ s'.sh.remReqid) :
    ∃ t c, .waitErase id c ∈ (s'.api t).code := by
  have hr' : (context n).Reachable publicCalls s' := hr.step (l := l) hstep hC
  have hL := Listed.of_reachable hr
  have hin : id ∈ s.sh.remReqid := ((rem_step hr hstep hL.nodup hL.erase).added id hin').resolve_right fun hnot => hnot hdel
  have hkept : ∀ {x : ReqId}, s'.sh.remReqid = s.sh.remReqid.erase x → x ≠ id := by
    rintro x hrem rfl
    rw [hrem] at hin'
    exact hL.nodup.not_mem_erase hin'
  have hold : id ∈ deliveredIds s.sh.log → ∃ t c, .waitErase id c ∈ (s'.api t).code := by
    intro hdel
    obtain ⟨t, c, hmem⟩ := h.taken id hdel hin
    rcases erase_kept hr hstep hmem with hmem | ⟨env, rest, hl, hphase, hcode⟩
    · exact ⟨t, c, hmem⟩
    · subst hl
      exact absurd rfl (hkept (erase_exec hstep hphase hcode).2)
  have hnew : ∀ {x : ReqId}, s'.sh.remReqid = s.sh.remReqid.erase x → deliveredIds s'.sh.log = deliveredIds s.sh.log ++ [x] →
      ∃ t c, .waitErase id c ∈ (s'.api t).code := fun hrem happ =>
    hold ((mem_delivered_append happ hdel).resolve_right fun heq => hkept hrem heq.symm)
  cases lookStep (Basic.of_reachable hr) (Basic.of_reachable hr') hstep with
  | same _ hsame => exact hold (hsame ▸ hdel)
  | pass hp hpass hsh =>
    have hrem' : s'.sh.remReqid = _ := congrArg Shared.remReqid hsh
    have hlog' : deliveredIds s'.sh.log = _ := congrArg (fun sh => deliveredIds sh.log) hsh
    cases passStep_rem hpass with
    | same _ hsame => exact hold (hsame.delivered ▸ hlog' ▸ hdel)
    | take _ _ _ _ hrem happ => exact hnew (hrem'.trans hrem) (hlog'.trans happ)
  | @exec t env i rest hl hphase hcode hexec =>
    cases hexec with
    | same _ _ hsame | insert _ _ hsame | nowait _ _ _ _ hsame => exact hold (hsame.delivered ▸ hdel)
    | erase _ _ _ hsame => exact hold (hsame ▸ hdel)
    | take _ _ _ hrem happ => exact hnew hrem happ
    | @wait x c _ _ _ happ _ ha =>
      rcases mem_delivered_append happ hdel with hdel | rfl
      · exact hold hdel
      · exact ⟨t, c, by rw [ha]; exact List.mem_cons_self⟩

theorem of_reachable (hr : (context n).Reachable unraced s) : Exclusive s := by
  refine hr.invariant (I := Exclusive) ?_ fun s l s' hr hstep hC h =>
    ⟨h.unique_step hstep hC, h.listed_step hr hstep hC, h.taken_step (unraced_public hr) hstep hC.1⟩
  rintro s rfl
  refine ⟨fun t u id ht => ?_, fun t id ht => ?_, nofun⟩ <;> obtain ⟨i, hi, -⟩ := ht <;> cases hi

end Exclusive

/-! ### Answers -/

def Event.given : Event n → Option (Tid n × ReqId × CommandState)
  | .answer t id st => some (t, id, st)
  | _ => none

/-- What the calls were answered, in order. -/
def answers (log : List (Event n)) : List (Tid n × ReqId × CommandState) := log.filterMap Event.given

theorem answers_append_of_none {log : List (Event n)} {e : Event n} (h : e.given = none) : answers (log ++ [e]) = answers log := by
  rw [answers, answers, List.filterMap_append]
  simp [h]

theorem answers_append {log : List (Event n)} {t : Tid n} {id : ReqId} {st : CommandState} :
    answers (log ++ [.answer t id st]) = answers log ++ [(t, id, st)] := by
  rw [answers, answers, List.filterMap_append]
  rfl

/-- The answer that an instruction gives. -/
inductive Instr.Gives (t : Tid n) (sh sh' : Shared n) (i : Instr) (id : ReqId) (st : CommandState) : Prop
  | peek (hi : i = .peekResult id ∨ i = .waitPeek id) (hst : st = (sh.peekResult t id).2.1)
      (hsh : sh' = (sh.peekResult t id).1.emit (.answer t id st))
  | unlisted (hi : i.asks = some id) (hnot : id ∉ sh.remReqid) (hst : st = .error)
  | erase {c : Command} (hi : i = .waitErase id c) (hin : id ∈ sh.remReqid) (hst : st = c.status)
      (hrem : sh'.remReqid = sh.remReqid.erase id)

theorem Instr.Gives.asks {t : Tid n} {sh sh' : Shared n} {i : Instr} {id : ReqId} {st : CommandState} (h : i.Gives t sh sh' id st) :
    i.asks = some id := by
  cases h with
  | peek hi => rcases hi with rfl | rfl <;> rfl
  | unlisted hi => exact hi
  | erase hi => rw [hi, Instr.asks]

theorem answers_peekResult (sh : Shared n) (t : Tid n) (id : ReqId) : answers (sh.peekResult t id).1.log = answers sh.log := by
  have hcase := peek_cases sh t id
  generalize sh.peekResult t id = p at hcase
  cases hcase with
  | delivered => exact answers_append_of_none rfl
  | unfinished | unknown => rfl

theorem exec_answers {t : Tid n} {exited : Bool} {sh sh' : Shared n} {r : Regs} {rest : List Instr} {i : Instr} {env : Env}
    {a : Api} (h : exec t exited sh r rest i env = some (sh', a)) :
    answers sh'.log = answers sh.log ∨ ∃ id st, answers sh'.log = answers sh.log ++ [(t, id, st)] ∧ i.Gives t sh sh' id st := by
  have hpeek : ∀ id, answers ((sh.peekResult t id).1.emit (.answer t id (sh.peekResult t id).2.1)).log =
      answers sh.log ++ [(t, id, (sh.peekResult t id).2.1)] := fun id => by
    rw [Shared.emit, answers_append, answers_peekResult]
  cases i with
  | peekResult id =>
    cases env <;> cases h
    exact .inr ⟨id, _, hpeek id, .peek (.inl rfl) rfl rfl⟩
  | finPeek sub id =>
    cases env <;> cases h
    exact .inl (answers_peekResult sh t id)
  | waitPeek id =>
    cases env with
    | tau =>
      simp only [exec] at h
      split at h <;> cases h
      · exact .inl (answers_peekResult sh t id)
      · exact .inr ⟨id, _, hpeek id, .peek (.inr rfl) rfl rfl⟩
    | _ => cases h
  | waitCheck id =>
    cases env with
    | tau =>
      simp only [exec] at h
      split at h <;> cases h
      · exact .inl rfl
      · rename_i hnot
        exact .inr ⟨id, _, answers_append, .unlisted rfl hnot rfl⟩
    | _ => cases h
  | waitErase id c =>
    cases env with
    | tau =>
      simp only [exec] at h
      split at h <;> cases h
      · rename_i hin
        exact .inr ⟨id, _, answers_append, .erase rfl hin rfl rfl⟩
      · rename_i hnot
        exact .inr ⟨id, _, answers_append, .unlisted rfl hnot rfl⟩
    | _ => cases h
  | setNowait | pushRequest | waitCompletion =>
    cases env with
    | tau =>
      obtain ⟨x, -, heq⟩ := Option.map_eq_some_iff.mp h
      cases heq
      exact .inl (answers_append_of_none rfl)
    | _ => cases h
  | lockSubmit | unlockSubmit | reqBlockBegin | reqBlockEnd =>
    cases env with
    | tau =>
      obtain ⟨x, -, heq⟩ := Option.map_eq_some_iff.mp h
      cases heq
      exact .inl rfl
    | _ => cases h
  | syncReturn =>
    cases env <;> cases h
    exact .inl (answers_append_of_none rfl)
  | remInsert | clearPrev | save | terminate | setExit | unlockCtx | notifyAll | waitNotify =>
    cases env <;> cases h
    exact .inl rfl
  | issue | isAlive | progress | join | syncWait | lockCtx | progressTry | peekTry | waitTry | newpeerSend | newpeerWait =>
    cases env <;> simp only [exec] at h <;> (try split at h) <;> cases h <;> exact .inl rfl

theorem answers_peekPrev (sh : Shared n) (t : Tid n) (prev : ReqId) : answers (sh.peekPrev t prev).1.log = answers sh.log := by
  unfold Shared.peekPrev
  split
  · rfl
  · exact answers_peekResult sh t prev

theorem answers_unpack (sh : Shared n) (t : Tid n) (cmd : Command) (m : Reply) :
    answers (sh.unpack t cmd m).1.log = answers sh.log := by
  have hresult : answers (sh.unpackResult cmd m).1.log = answers sh.log := by
    unfold Shared.unpackResult
    split <;> rfl
  unfold Shared.unpack
  cases cmd.closure with
  | simpleCall => exact hresult
  | generic => cases m <;> rfl
  | sendBuff prev => cases m <;> exact answers_peekPrev sh t prev
  | recvBuff prev =>
    dsimp only
    split
    · exact answers_peekPrev sh t prev
    · rfl
  | callVH | synchronizeFunc | emptyTransfer | finaliser => rfl

theorem passStep_answers {x : Bool} {t : Tid n} {sh sh' : Shared n} {p : PassPc} {env : Env} {out : PassOut}
    (h : passStep x t sh p env = some (sh', out)) : answers sh'.log = answers sh.log := by
  cases p with
  | unpack cmd m =>
    cases env <;> cases h
    exact answers_unpack sh t cmd m
  | received cmd failed =>
    cases env <;> cases h
    cases cmd.nowait with
    | true => exact answers_append_of_none rfl
    | false => rfl
  | cancelRequest | cancelInflight | popped =>
    cases env <;> simp only [passStep] at h <;> (try split at h) <;> (try split at h) <;> cases h <;>
      first | rfl | exact answers_append_of_none rfl
  | poll | reply | failed | cancelledRequest | cancelledInflight | tryPop | submitted | putBack | rejected | executed | idle =>
    cases env <;> simp only [passStep] at h <;> (try split at h) <;> cases h <;> rfl

theorem answers_step {s s' : State n} {l : Label n} (hstep : s.step l = some s') :
    answers s'.sh.log = answers s.sh.log ∨ ∃ t env i rest id st, l = .api t env ∧ (s.api t).phase = .run ∧
      (s.api t).code = i :: rest ∧ answers s'.sh.log = answers s.sh.log ++ [(t, id, st)] ∧ i.Gives t s.sh s'.sh id st := by
  cases step_cases hstep with
  | out hmain hmain' h hsh => exact .inl (by rw [hsh])
  | execLock | execTest | execUnlock | unlock | call => exact .inl rfl
  | @pass p env sh out hmain h =>
    have hans := passStep_answers h
    exact .inl (by cases out <;> exact hans)
  | vhReturn => exact .inl (answers_append_of_none rfl)
  | @exec t env i rest sh a hphase hcode h =>
    refine (exec_answers h).imp_right ?_
    rintro ⟨id, st, hans, hgives⟩
    exact ⟨t, env, i, rest, id, st, rfl, hphase, hcode, hans, hgives⟩
  | @apiPass t env p k sh sh' out a hphase h hout =>
    have hans := passStep_answers h
    refine .inl ?_
    cases out with
    | next | ret =>
      cases hout
      exact hans
    | startVH => cases hout
    | throws =>
      simp only [Api.afterPass] at hout
      split at hout <;> cases hout <;> exact hans

/-! ### The result -/

/-- What the instruction of a call stores at `retp`. -/
def Instr.stores (sh : Shared n) (t : Tid n) : Instr → Option Word
  | .peekResult id | .waitPeek id =>
      if id ∈ sh.remReqid ∧ id ∈ sh.comq.completionIds then some (sh.peekResult t id).2.2 else none
  | .waitErase id c => if id ∈ sh.remReqid then some c.retval else none
  | _ => none

/-- The next step of a call gives it the status and the value of the request's command, which it takes from the completion
map or has in its hand. -/
def State.Obtains (s : State n) (t : Tid n) (id : ReqId) (st : CommandState) : Prop :=
  id ∈ s.sh.remReqid ∧ ∃ i rest, ∃ c : Command, (s.api t).code = i :: rest ∧ c.status = st ∧ i.stores s.sh t = some c.retval ∧
    ((id, c) ∈ s.sh.comq.completion.entries ∨ i = .waitErase id c)

theorem obtains_of_entry {s : State n} {t : Tid n} {i : Instr} {rest : List Instr} {id : ReqId} (hcode : (s.api t).code = i :: rest)
    (hi : i = .peekResult id ∨ i = .waitPeek id) (hin : id ∈ s.sh.remReqid) {c : Command}
    (hentry : (id, c) ∈ s.sh.comq.completion.entries) (hval : (s.sh.peekResult t id).2 = (c.status, c.retval)) :
    s.Obtains t id c.status := by
  refine ⟨hin, i, rest, c, hcode, rfl, ?_, .inl hentry⟩
  have hmem : id ∈ s.sh.comq.completionIds := BlockingMap.mem_keys_of_entry hentry
  rcases hi with rfl | rfl <;> simp [Instr.stores, hin, hmem, hval]

theorem obtains_of_erase {s : State n} {t : Tid n} {rest : List Instr} {id : ReqId} {c : Command}
    (hcode : (s.api t).code = .waitErase id c :: rest) (hin : id ∈ s.sh.remReqid) : s.Obtains t id c.status :=
  ⟨hin, _, rest, c, hcode, rfl, by simp [Instr.stores, hin], .inr rfl⟩

theorem nodup_delivered {C : Machine.Cond (State n) (Label n)} {s : State n} (hr : (context n).Reachable C s) :
    (deliveredIds s.sh.log).Nodup := by
  have hnodup := (Conserved.of_reachable hr).nodup
  rw [State.ids, Shared.ids] at hnodup
  exact Multiset.coe_nodup.mp (Multiset.nodup_add.mp (Multiset.nodup_add.mp (Multiset.nodup_add.mp hnodup).2.1).1).2.1

variable {s s' : State n} {l : Label n}

/-- No result of a request that is listed was delivered, unless a call has it in its hand. -/
theorem Exclusive.not_delivered (h : Exclusive s) {t : Tid n} (hup : (s.api t).Upfront) {id : ReqId} {rest : List Instr}
    (hcode : (s.api t).code = .waitCompletion id :: rest) : id ∉ deliveredIds s.sh.log := by
  intro hdel
  have hstands : (s.api t).Stands id := ⟨_, hcode ▸ List.mem_cons_self, rfl⟩
  obtain ⟨u, c, hmem⟩ := h.taken id hdel (h.listed t id hstands)
  cases h.unique t u id hstands ⟨_, hmem, rfl⟩
  cases hup.head hcode hmem nofun

/-- What a call that returns is answered. -/
theorem answer_cases (hr : (context n).Reachable unraced s) (hstep : s.step l = some s') (hC : unraced s l s') {t : Tid n}
    {id : ReqId} {st : CommandState} (hans : answers s'.sh.log = answers s.sh.log ++ [(t, id, st)]) :
    s.Obtains t id st ∧ id ∈ deliveredIds s'.sh.log ∧ id ∉ s'.sh.remReqid ∨
      st = .error ∧ id ∉ s.sh.remReqid ∧
        (id = requestIdInvalid ∨ id ∈ deliveredIds s.sh.log ∨ .nowait id ∈ s.sh.log) ∨
      st = .unfinished ∧ id ∉ s.sh.comq.completionIds ∧ id ∉ deliveredIds s.sh.log := by
  have hE := Exclusive.of_reachable hr
  have hpub := unraced_public hr
  have hL := Listed.of_reachable hpub
  rcases answers_step hstep with hsame | ⟨u, env, i, rest, x, st', hl, hphase, hcode, hnew, hgives⟩
  · have hlen := congrArg List.length (hsame.symm.trans hans)
    simp at hlen
  cases List.singleton_inj.mp (List.append_cancel_left (hnew.symm.trans hans))
  have hgone : id ∉ s.sh.remReqid → id = requestIdInvalid ∨ id ∈ deliveredIds s.sh.log ∨ .nowait id ∈ s.sh.log := by
    intro hnot
    refine (asks_public hpub (.inl ⟨i, hcode ▸ List.mem_cons_self, hgives.asks⟩)).imp_right fun hid => ?_
    exact (hL.pushed id hid.1).resolve_left hnot
  cases hgives with
  | unlisted hi hnot hst => exact .inr (.inl ⟨hst, hnot, hgone hnot⟩)
  | @erase c hi hin hst hrem =>
    have hmem : .waitErase id c ∈ (s.api t).code := hcode ▸ hi ▸ List.mem_cons_self
    have hlog := (cursorStep (Basic.of_reachable hr) hstep).log_grows
    refine .inl ⟨hst ▸ obtains_of_erase (hcode.trans (by rw [hi])) hin, (hlog.filterMap _).subset (hL.erase t id c hmem), ?_⟩
    rw [hrem]
    exact hL.nodup.not_mem_erase
  | peek hi hst hsh =>
    have hcase := peek_cases s.sh t id
    have hval := obtains_of_entry hcode hi
    generalize s.sh.peekResult t id = p at hcase hst hsh hval
    cases hcase with
    | @delivered c hin hentry =>
      refine .inl ⟨hst ▸ hval hin hentry rfl, ?_, ?_⟩
      · rw [hsh]
        exact mem_deliveredIds.mpr ⟨t, List.mem_append_left _ (List.mem_append_right _ List.mem_cons_self)⟩
      · rw [hsh]
        exact hL.nodup.not_mem_erase
    | unknown hnot => exact .inr (.inl ⟨hst, hnot, hgone hnot⟩)
    | unfinished hin hnone =>
      refine .inr (.inr ⟨hst, hnone, fun hdel => ?_⟩)
      -- Another call has the result in its hand, and then this one does not look.
      obtain ⟨u, c, hmem⟩ := hE.taken id hdel hin
      have hne : u ≠ t := by
        rintro rfl
        rcases hi with rfl | rfl <;> cases (upfront_of_reachable hr u).head hcode hmem nofun
      have hwait := ((hC.2 t env i rest id u hl hphase hcode hne ⟨_, hmem, rfl⟩).2 hi).1
      have hup := upfront_of_reachable hr u
      obtain ⟨j, rest', hcode'⟩ := List.exists_cons_of_ne_nil (List.ne_nil_of_mem hmem)
      cases (hup.head hcode' hmem nofun).trans (hup.head hcode' hwait nofun).symm

/-- A request that a call returned leaves `rem_reqid` with a call that obtains its result. -/
theorem answer_of_lost (hr : (context n).Reachable publicCalls s) (hstep : s.step l = some s') (hC : publicCalls s l s') {id : ReqId}
    (hpub : id ∈ pushedIds s.sh.log ∧ id ∉ s.sh.internal) (hin : id ∈ s.sh.remReqid) (hout : id ∉ s'.sh.remReqid)
    (hfin : ∀ c, (id, c) ∈ s.sh.comq.completion.entries → c.status ≠ .unfinished) :
    ∃ t st, answers s'.sh.log = answers s.sh.log ++ [(t, id, st)] ∧ s.Obtains t id st := by
  have hr' : (context n).Reachable publicCalls s' := hr.step (l := l) hstep hC
  obtain ⟨t, env, i, rest, rfl, hphase, hcode, hlook⟩ := rem_lost hr hr' hstep hpub hin hout
  obtain ⟨sh, a, h, rfl⟩ := exec_of_step hstep hphase hcode
  have hanswer : ∀ st, answers sh.log = answers s.sh.log ++ [(t, id, st)] → s.Obtains t id st →
      ∃ t st, answers sh.log = answers s.sh.log ++ [(t, id, st)] ∧ s.Obtains t id st := fun st hans hob => ⟨t, st, hans, hob⟩
  rcases hlook with ⟨hi, hdone⟩ | ⟨c, rfl⟩
  · have hcase := peek_cases s.sh t id
    have hans := answers_peekResult s.sh t id
    have hval := obtains_of_entry hcode hi
    have hsh : (s.sh.peekResult t id).2.1 ≠ .unfinished →
        sh = (s.sh.peekResult t id).1.emit (.answer t id (s.sh.peekResult t id).2.1) := by
      intro hne
      rcases hi with rfl | rfl <;> cases env <;> simp only [exec, if_neg hne] at h <;> cases h <;> rfl
    generalize s.sh.peekResult t id = p at hcase hans hval hsh
    cases hcase with
    | @delivered c _ hentry =>
      refine hanswer c.status ?_ (hval hin hentry rfl)
      rw [hsh (hfin c hentry), Shared.emit, answers_append, hans]
    | unfinished _ hnone => exact absurd hdone hnone
    | unknown hnot => exact absurd hin hnot
  · cases env <;> simp only [exec, if_pos hin] at h <;> cases h
    exact hanswer c.status answers_append (obtains_of_erase hcode hin)

/-- In every run without such races, no call waits for a request that has left `rem_reqid` or whose result another call
has got. A call that returns obtains the result of the command and takes the request out of `rem_reqid`, or gets
VEO_COMMAND_ERROR because the request is not in it, or VEO_COMMAND_UNFINISHED before there is a result. A
request leaves `rem_reqid` only so, and once its result was taken it does not come back. -/
theorem concurrent_retrieval (hr : (context n).Reachable unraced s) :
    (∀ t id, (s.api t).blockedOn = some id → id ∈ s.sh.remReqid ∧ id ∉ deliveredIds s.sh.log) ∧
      (deliveredIds s.sh.log).Nodup ∧
      ∀ l s', s.step l = some s' → unraced s l s' →
        (∀ t id st, answers s'.sh.log = answers s.sh.log ++ [(t, id, st)] →
          s.Obtains t id st ∧ id ∈ deliveredIds s'.sh.log ∧ id ∉ s'.sh.remReqid ∨
            st = .error ∧ id ∉ s.sh.remReqid ∧
              (id = requestIdInvalid ∨ id ∈ deliveredIds s.sh.log ∨ .nowait id ∈ s.sh.log) ∨
            st = .unfinished ∧ id ∉ s.sh.comq.completionIds ∧ id ∉ deliveredIds s.sh.log) ∧
        (∀ id ∈ pushedIds s.sh.log, id ∉ s.sh.internal → id ∈ s.sh.remReqid → id ∉ s'.sh.remReqid →
          (∀ c, (id, c) ∈ s.sh.comq.completion.entries → c.status ≠ .unfinished) →
          ∃ t st, answers s'.sh.log = answers s.sh.log ++ [(t, id, st)] ∧ s.Obtains t id st) ∧
        ∀ id ∈ deliveredIds s.sh.log, id ∉ s.sh.remReqid → id ∉ s'.sh.remReqid := by
  have hE := Exclusive.of_reachable hr
  have hpub := unraced_public hr
  have hL := Listed.of_reachable hpub
  refine ⟨fun t id hblocked => ?_, nodup_delivered hr, fun l s' hstep hC => ⟨fun t id st hans => answer_cases hr hstep hC hans,
    fun id hpush hint hin hout hfin => answer_of_lost hpub hstep hC.1 ⟨hpush, hint⟩ hin hout hfin, fun id hdel hnot hin => ?_⟩⟩
  · unfold Api.blockedOn at hblocked
    split at hblocked <;> cases hblocked
    rename_i rest regs heq
    have hcode : (s.api t).code = .waitCompletion id :: rest := by rw [heq]
    exact ⟨hE.listed t id ⟨_, hcode ▸ List.mem_cons_self, rfl⟩, hE.not_delivered (upfront_of_reachable hr t) hcode⟩
  · have hlog := (cursorStep (Basic.of_reachable hr) hstep).log_grows
    refine ((rem_step hpub hstep hL.nodup hL.erase).added id hin).elim hnot fun hnew => hnew ?_
    exact (hlog.filterMap _).subset hdel

/-- A check of the condition on one step: the call that goes on asks for nothing that another call stands with. -/
def unracedCheck (s : State n) (l : Label n) (_ : State n) : Bool :=
  match l with
  | .call _ c => c.isPublic s.sh
  | .api t _ =>
      match (s.api t).code with
      | i :: _ => i.asks = none || decide (∀ u, u ≠ t → ∀ j ∈ (s.api u).code, j.stands ≠ i.asks)
      | [] => true
  | _ => true

theorem unraced_of_check (s : State n) (l : Label n) (s' : State n) (h : unracedCheck s l s' = true) : unraced s l s' := by
  refine ⟨fun t c hl => ?_, fun t env i rest id u hl _ hcode hne hstands => ?_⟩
  · subst hl
    exact h
  · subst hl
    have hfree : i.asks ≠ some id := by
      intro hasks
      obtain ⟨j, hj, hid⟩ := hstands
      simp only [unracedCheck, hcode, hasks, Bool.or_eq_true, decide_eq_true_eq] at h
      exact (h.resolve_left nofun) u hne j hj hid
    refine ⟨?_, ?_⟩
    · rintro rfl
      exact hfree rfl
    · rintro (rfl | rfl) <;> exact absurd rfl hfree

/-- Thread 0 submits a request and calls `callWaitResult` while thread 1 makes a pass, so it begins to wait. -/
def waitingTrace (id : ReqId) : List (Label 2) :=
  List.flatten [[.call (some 0) .callAsync], List.replicate 11 (.api (some 0) .tau), [.api (some 0) (.sent 0)],
    List.replicate 6 (.api (some 0) .tau), [.main .tau, .call (some 1) (.callPeekResult id), .api (some 1) .tau,
      .call (some 0) (.callWaitResult 0)], List.replicate 3 (.api (some 0) .tau)]

/-- Thread 1 receives the reply in its pass, and looks for something else. -/
theorem concurrent_retrieval_one :
    ∃ s : State 2, (context 2).Reachable unraced s ∧ (s.api (some 0)).blockedOn = some 0 ∧ s.sh.comq.completionIds = [0] ∧
      0 ∈ s.sh.remReqid ∧ 0 ∉ deliveredIds s.sh.log := by
  have hrun : ∃ s : State 2, (context 2).Reachable unraced s ∧
      decide ((s.api (some 0)).blockedOn = some 0 ∧ s.sh.comq.completionIds = [0]) = true :=
    Machine.exists_reachable_of_runCond (M := context 2) (s := State.new 2) unraced_of_check
      (waitingTrace requestIdInvalid ++ .api (some 1) (.reply 0 (.result 5)) :: List.replicate 8 (.api (some 1) .tau)) _ rfl
      (by decide +kernel)
  obtain ⟨s, hs, hp⟩ := hrun
  obtain ⟨hblocked, hdone⟩ := of_decide_eq_true hp
  exact ⟨s, hs, hblocked, hdone, (concurrent_retrieval hs).1 _ _ hblocked⟩

/-- Thread 1 receives the reply in its pass, and `_peekResult` takes the result and the request out of `rem_reqid` while
thread 0 waits for it. -/
theorem concurrent_retrieval_fails :
    ∃ s : State 2, (context 2).Reachable publicCalls s ∧ (s.api (some 0)).blockedOn = some 0 ∧ 0 ∉ s.sh.remReqid ∧
      0 ∉ s.sh.comq.completionIds ∧ .answer (some 1) 0 .ok ∈ s.sh.log := by
  have hrun : ∃ s : State 2, (context 2).Reachable publicCalls s ∧
      decide ((s.api (some 0)).blockedOn = some 0 ∧ 0 ∉ s.sh.remReqid ∧ 0 ∉ s.sh.comq.completionIds ∧
        .answer (some 1) 0 .ok ∈ s.sh.log) = true := by
    refine Machine.exists_reachable_of_runCond (M := context 2) (s := State.new 2)
      (c := fun s l _ => l.isPublic s.sh) (fun s l s' hc => ?_)
      (waitingTrace 0 ++ .api (some 1) (.reply 0 (.result 5)) :: List.replicate 8 (.api (some 1) .tau)) _ rfl (by decide +kernel)
    rintro t c rfl
    exact hc
  obtain ⟨s, hs, hp⟩ := hrun
  exact ⟨s, hs, of_decide_eq_true hp⟩

end Aveo

import Aveo.Progress.Offload
import Aveo.Transfer.Data

/-!
# Reading back what was written

`asyncWriteMem` and `asyncReadMem` cut their transfers into requests of different sizes, and the requests of other threads
come in between. The VE thread handles them in the order of the pushes. So when every fragment of a write was pushed
before the fragments of a read of the same range, and nothing pushed in between writes there, the replies to the read
carry the bytes that were written.
-/

namespace Aveo

open Lib

variable {n : Nat}

/-! ### One byte of the VE memory -/

/-- A request leaves a byte as it is, whatever the memory. A function that is called may write anywhere. -/
def VeRequest.Keeps (x : Word) : VeRequest → Prop
  | .sendbuff dst buff => ¬ InRange dst buff.length x
  | .memcpy dst _ buffsz => ¬ InRange dst buffsz.toNat x
  | .call cmd p fn => ∀ mem val mem', fn p.addr (p.regs.take maxArgsInRegs) (stackIn cmd p mem) = some (val, mem') → mem' x = mem x
  | _ => True

/-- A request stores a value in a byte. -/
def VeRequest.Stores (x : Word) (b : Byte) (r : VeRequest) : Prop :=
  ∃ dst buff, r = .sendbuff dst buff ∧ buff[(x - dst).toNat]? = some b

namespace VePeer

variable {symtable : List (String × Word)} {sp : Word} {s s' : VePeer} {l : VeLabel} {x : Word} {b : Byte}

theorem mem_of_step (h : (vePeer symtable sp).step s l = some s') :
    s'.ve = (handle symtable sp s.ve s.requests l.out l.request).1 := by
  simp only [vePeer, step] at h
  split at h
  · cases h
  · cases h
    rfl

theorem keeps_step (hstep : (vePeer symtable sp).step s l = some s') (h : l.request.Keeps x) :
    s'.ve.mem x = s.ve.mem x := by
  obtain ⟨r, out⟩ := l
  rw [mem_of_step hstep]
  cases r with
  | sendbuff dst buff =>
    simp only [handle, sendbuffHandler, replyChecked, Ve.send_mem]
    exact Mem.write_of_not_inRange h
  | memcpy dst src size =>
    simp only [handle, memcpyHandler, replyChecked, Ve.send_mem]
    refine Mem.write_of_not_inRange ?_
    rwa [Mem.length_read]
  | newpeer rc =>
    simp only [handle, newpeerHandler]
    split <;> simp only [Ve.send_mem]
  | call cmd p fn =>
    simp only [handle, callHandler]
    generalize (if cmd = .call then 0 else p.recvSp) = recvSp
    split
    · simp only [replyChecked, Ve.send_mem]
    · split
      · rfl
      · split
        · rfl
        · rename_i val mem hfn
          simp only [replyChecked, Ve.send_mem]
          exact h s.ve.mem val mem hfn
  | _ => exact congrFun (Ve.send_mem ..) x

theorem stores_step (hstep : (vePeer symtable sp).step s l = some s') (h : l.request.Stores x b) : s'.ve.mem x = b := by
  obtain ⟨r, out⟩ := l
  obtain ⟨dst, buff, rfl, hb⟩ := h
  rw [mem_of_step hstep]
  simp only [handle, sendbuffHandler, replyChecked, Ve.send_mem]
  show (buff[(x - dst).toNat]?).getD (s.ve.mem x) = b
  rw [hb, Option.getD_some]

end VePeer

/-- After a request that stores a byte, the byte stays as long as requests keep it or store the same. -/
theorem Work.mem_of_requests {w : Work} {symtable : List (String × Word)} {sp : Word} {v₀ : VePeer} {x : Word} {b : Byte}
    {sent : List Job} : ∀ {v : VePeer} {j : Nat} {job : Job}, (vePeer symtable sp).run v₀ (w.requests sent) = some v →
      sent[j]? = some job → (w.request j job).Stores x b →
      (∀ i job', j < i → sent[i]? = some job' → (w.request i job').Keeps x ∨ (w.request i job').Stores x b) →
      v.ve.mem x = b := by
  induction sent using List.reverseRecOn with
  | nil =>
    intro v j job _ hj
    cases hj
  | append_singleton sent last ih =>
    intro v j job hrun hj hstore hrest
    have hsplit : w.requests (sent ++ [last]) = w.requests sent ++ [w.label sent.length last] := by
      simp [Work.requests, List.mapIdx_append]
    rw [hsplit, Machine.run_append] at hrun
    obtain ⟨u, hu, hlast⟩ := Option.bind_eq_some_iff.mp hrun
    have hstep : (vePeer symtable sp).step u (w.label sent.length last) = some v := by
      simpa [Machine.run] using hlast
    have hget : (sent ++ [last])[sent.length]? = some last := List.getElem?_concat_length
    rcases Nat.lt_or_ge j sent.length with hlt | hge
    · have hmem : u.ve.mem x = b := by
        refine ih hu (by rwa [List.getElem?_append_left hlt] at hj) hstore fun i job' hi hjob' => ?_
        exact hrest i job' hi (getElem?_grows (List.prefix_append _ _) hjob')
      rcases hrest sent.length last hlt hget with hkeep | hagain
      · rw [VePeer.keeps_step hstep hkeep, hmem]
      · exact VePeer.stores_step hstep hagain
    · have hj' : j = sent.length := by
        have hbound := (List.getElem?_eq_some_iff.mp hj).1
        rw [List.length_append, List.length_singleton] at hbound
        omega
      subst hj'
      rw [hget] at hj
      cases hj
      exact VePeer.stores_step hstep hstore

/-! ### The requests of a transfer -/

/-- The SENDBUFF requests of `asyncWriteMem`, with the bytes of the VH that they carry. -/
def writeRequests (vh : Mem) : Word → Word → List Word → List VeRequest
  | _, _, [] => []
  | dst, src, psz :: rest => .sendbuff dst (vh.read src psz.toNat) :: writeRequests vh (dst + psz) (src + psz) rest

/-- The RECVBUFF requests of `asyncReadMem`. -/
def readRequests : Word → Word → List Word → List VeRequest
  | _, _, [] => []
  | dst, src, psz :: rest => .recvbuff src dst psz :: readRequests (dst + psz) (src + psz) rest

/-- The memory of the VH after the result function of a RECVBUFF request. -/
def VeReply.deliver (vh : Mem) : VeReply → Mem
  | .sendbuff dst buff => vh.write dst buff
  | _ => vh

/-- A part of a range behind its first bytes. -/
theorem inRange_tail {a psz x : Word} {len : Nat} (h : ¬ InRange a psz.toNat x) (hx : InRange a (psz.toNat + len) x) :
    InRange (a + psz) len x := by
  simp only [InRange] at h hx ⊢
  rw [← BitVec.sub_sub, BitVec.toNat_sub]
  have := (x - a).isLt
  omega

theorem inRange_of_tail {a psz x : Word} {len : Nat} (hlen : psz.toNat + len ≤ 2 ^ 64) (hx : InRange (a + psz) len x) :
    InRange a (psz.toNat + len) x := by
  simp only [InRange] at hx ⊢
  rw [← BitVec.sub_sub, BitVec.toNat_sub] at hx
  have := (x - a).isLt
  have := psz.isLt
  omega

/-- Where a byte of the target of a transfer comes from, after the first fragment. -/
theorem source_tail (src a psz x : Word) : src + psz + (x - (a + psz)) = src + (x - a) := by
  rw [← BitVec.sub_sub, BitVec.add_assoc, BitVec.add_comm psz, BitVec.sub_add_cancel]

theorem stores_sendbuff {vh : Mem} {dst src psz x : Word} (h : InRange dst psz.toNat x) :
    (VeRequest.sendbuff dst (vh.read src psz.toNat)).Stores x (vh (src + (x - dst))) := by
  refine ⟨dst, _, rfl, ?_⟩
  rw [Mem.getElem?_read h, BitVec.ofNat_toNat, BitVec.setWidth_eq]

/-- A fragment of a write stores the byte that belongs there, or none. -/
theorem writeRequests_agree {vh : Mem} {r : VeRequest} (x : Word) : ∀ {frags : List Word} {dst src : Word},
    r ∈ writeRequests vh dst src frags → r.Keeps x ∨ r.Stores x (vh (src + (x - dst)))
  | psz :: rest, dst, src, hr => by
    rcases List.mem_cons.mp hr with rfl | hr
    · by_cases hx : InRange dst psz.toNat x
      · exact .inr (stores_sendbuff hx)
      · refine .inl (show ¬ InRange dst _ x from ?_)
        rwa [Mem.length_read]
    · have hrest := writeRequests_agree x hr
      rwa [source_tail] at hrest

/-- Every byte of the range of a write is stored by one of its fragments. -/
theorem writeRequests_cover (vh : Mem) {x : Word} : ∀ {frags : List Word} {dst : Word} (src : Word),
    InRange dst (fragBytes frags) x → ∃ r ∈ writeRequests vh dst src frags, r.Stores x (vh (src + (x - dst)))
  | [], _, _, hx => absurd hx (Nat.not_lt_zero _)
  | psz :: rest, dst, src, hx => by
    by_cases hhead : InRange dst psz.toNat x
    · exact ⟨_, List.mem_cons_self, stores_sendbuff hhead⟩
    · rw [fragBytes_cons] at hx
      obtain ⟨r, hr, hstore⟩ := writeRequests_cover vh (src + psz) (inRange_tail hhead hx)
      rw [source_tail] at hstore
      exact ⟨r, List.mem_cons_of_mem _ hr, hstore⟩

/-- The replies to the fragments of a read. -/
def readReplies (vh : Mem) : Word → Word → List Word → List VeReply
  | _, _, [] => []
  | dst, src, psz :: rest => .sendbuff dst (vh.read src psz.toNat) :: readReplies vh (dst + psz) (src + psz) rest

/-- The result functions put the fragments together. -/
theorem deliver_readReplies {vh : Mem} : ∀ {frags : List Word} {dst src : Word} {m : Mem}, fragBytes frags ≤ 2 ^ 64 →
    (readReplies vh dst src frags).foldl VeReply.deliver m = m.write dst (vh.read src (fragBytes frags))
  | [], dst, src, m, _ => (Mem.write_nil).symm
  | psz :: rest, dst, src, m, hlen => by
    rw [fragBytes_cons] at hlen ⊢
    have hrest : fragBytes rest ≤ 2 ^ 64 := Nat.le_trans (Nat.le_add_left _ _) hlen
    show (readReplies vh (dst + psz) (src + psz) rest).foldl VeReply.deliver (m.write dst (vh.read src psz.toNat)) = _
    rw [deliver_readReplies hrest, Mem.read_append, BitVec.ofNat_toNat, BitVec.setWidth_eq, Mem.write_append, Mem.length_read,
      BitVec.ofNat_toNat, BitVec.setWidth_eq]
    rwa [List.length_append, Mem.length_read, Mem.length_read]

namespace Offload

variable {w : Work} {symtable : List (String × Word)} {sp : Word} {v₀ : VePeer} {o : Offload n}

/-! ### The order of requests -/

theorem precedes_of_lt {C : Machine.Cond (Offload n) (OffloadLabel n)} (h : (offload n w symtable sp v₀).Reachable C o)
    {i j : Nat} {x y : ReqId} (hx : o.sent[i]? = some (.command x)) (hy : o.sent[j]? = some (.command y)) (hlt : i < j) :
    Pipeline.Precedes (pushedIds o.ctx.sh.log) x y := by
  rw [Pipeline.precedes_iff_sublist]
  refine List.Sublist.trans ?_ (Tracked.of_reachable (reachable_ctx h)).submissions_sublist
  rw [← (Matched.of_reachable h).order, ← List.take_append_drop j o.sent, List.filterMap_append]
  refine (List.singleton_sublist.mpr ?_).append (List.singleton_sublist.mpr ?_)
  · refine List.mem_filterMap.mpr ⟨.command x, ?_, rfl⟩
    exact List.mem_iff_getElem?.mpr ⟨i, by rw [List.getElem?_take_of_lt hlt, hx]⟩
  · refine List.mem_filterMap.mpr ⟨.command y, ?_, rfl⟩
    exact List.mem_iff_getElem?.mpr ⟨0, by rw [List.getElem?_drop, Nat.add_zero, hy]⟩

theorem lt_of_precedes {C : Machine.Cond (Offload n) (OffloadLabel n)} (h : (offload n w symtable sp v₀).Reachable C o)
    {i j : Nat} {x y : ReqId} (hx : o.sent[i]? = some (.command x)) (hy : o.sent[j]? = some (.command y))
    (hxy : Pipeline.Precedes (pushedIds o.ctx.sh.log) x y) : i < j := by
  have hnodup := (Tracked.of_reachable (reachable_ctx h)).pushed_nodup
  by_contra hge
  rcases Nat.lt_or_eq_of_le (Nat.le_of_not_lt hge) with hlt | rfl
  · exact hxy.asymm hnodup (precedes_of_lt h hy hx hlt)
  · rw [hx] at hy
    cases hy
    exact hxy.asymm hnodup hxy

/-! ### The read -/

/-- The VE thread has answered some commands with these messages. -/
def Answered (o : Offload n) (ids : List ReqId) (msgs : List VeReply) : Prop :=
  List.Forall₂ (fun id msg => ∃ (k : Nat) (r : SentReply), o.sent[k]? = some (.command id) ∧ o.ve.ve.replies[k]? = some r ∧
    r.msg = msg) ids msgs

/-- The range from `a` on is written by the commands `ws` and by no other command that was pushed between them and the
commands `rs`. -/
structure Undisturbed (w : Work) (o : Offload n) (ws rs : List ReqId) (a : Word) (len : Nat) : Prop where
  sent : ∀ id ∈ ws, .command id ∈ o.sent
  before : ∀ x ∈ ws, ∀ y ∈ rs, Pipeline.Precedes (pushedIds o.ctx.sh.log) x y
  quiet : ∀ x ∈ ws, ∀ y ∈ rs, ∀ id, id ∉ ws → Pipeline.Precedes (pushedIds o.ctx.sh.log) x id →
    Pipeline.Precedes (pushedIds o.ctx.sh.log) id y → ∀ z, InRange a len z → (w.command id).Keeps z

/-- The reply to RECVBUFF is the memory at that time. -/
theorem recvbuff_reply {sent : List Job} {k : Nat} {v : VePeer} {msg : VeReply} {id : ReqId} {src dst psz : Word}
    (h : w.Replies symtable sp v₀ sent k v msg) (hk : sent[k]? = some (.command id))
    (hcmd : w.command id = .recvbuff src dst psz) : msg = .sendbuff dst (v.ve.mem.read src psz.toNat) := by
  obtain ⟨-, job, hjob, hreply⟩ := h
  rw [hk] at hjob
  cases hjob
  simp only [Work.request, hcmd, VePeer.handle, recvbuffHandler, replyChecked] at hreply
  exact congrArg SentReply.msg (Ve.eq_of_send_replies hreply)

section

variable {vh : Mem} {a src : Word} {frags : List Word} {ws rs : List ReqId}

/-- When the VE thread handles one of the reads, the range has the bytes of the write. -/
theorem mem_at_read (h : (offload n w symtable sp v₀).Reachable (served w sp) o)
    (hws : ws.map w.command = writeRequests vh a src frags) (hU : Undisturbed w o ws rs a (fragBytes frags)) {id : ReqId}
    (hid : id ∈ rs) {k : Nat} (hk : o.sent[k]? = some (.command id)) {v : VePeer}
    (hrun : (vePeer symtable sp).run v₀ (w.requests (o.sent.take k)) = some v) {x : Word}
    (hx : InRange a (fragBytes frags) x) : v.ve.mem x = vh (src + (x - a)) := by
  -- the fragment of the write that stores the byte
  obtain ⟨r, hr, hstore⟩ := writeRequests_cover vh src hx
  rw [← hws] at hr
  obtain ⟨idw, hidw, rfl⟩ := List.mem_map.mp hr
  obtain ⟨j, hj⟩ := List.mem_iff_getElem?.mp (hU.sent idw hidw)
  have hjk : j < k := lt_of_precedes h hj hk (hU.before idw hidw id hid)
  have hjtake : (o.sent.take k)[j]? = some (.command idw) := by rw [List.getElem?_take_of_lt hjk, hj]
  refine Work.mem_of_requests hrun hjtake hstore fun i job hi hjob => ?_
  have hik : i < k := Nat.lt_of_lt_of_le (List.getElem?_eq_some_iff.mp hjob).1 (List.length_take_le _ _)
  rw [List.getElem?_take_of_lt hik] at hjob
  cases job with
  | newpeer => exact .inl trivial
  | command id' =>
    by_cases hmem : id' ∈ ws
    · have hfrag : w.command id' ∈ writeRequests vh a src frags := hws ▸ List.mem_map_of_mem hmem
      exact writeRequests_agree x hfrag
    · exact .inl (hU.quiet idw hidw id hid id' hmem (precedes_of_lt h hj hjob hi) (precedes_of_lt h hjob hk hik) x hx)

/-- The messages that answer the fragments of a read, from what the memory is when each of them is handled. -/
theorem replies_of_reads (h : (offload n w symtable sp v₀).Reachable (served w sp) o) : ∀ {frags' : List Word} {a src dst : Word}
    {rs : List ReqId} {msgs : List VeReply}, fragBytes frags' ≤ 2 ^ 64 → rs.map w.command = readRequests dst a frags' →
    Answered o rs msgs →
    (∀ id ∈ rs, ∀ k v, o.sent[k]? = some (.command id) →
      (vePeer symtable sp).run v₀ (w.requests (o.sent.take k)) = some v →
      ∀ x, InRange a (fragBytes frags') x → v.ve.mem x = vh (src + (x - a))) →
    msgs = readReplies vh dst src frags'
  | [], _, _, _, rs, msgs, _, hrs, hans, _ => by
    cases List.map_eq_nil_iff.mp hrs
    cases hans
    rfl
  | psz :: rest, a, src, dst, rs, msgs, hlen, hrs, hans, hmem => by
    obtain ⟨id, rs, rfl, hid, hrs⟩ := List.map_eq_cons_iff.mp hrs
    cases hans with
    | @cons _ msg _ msgs hhead htail =>
      rw [fragBytes_cons] at hlen hmem
      have hrest : msgs = readReplies vh (dst + psz) (src + psz) rest := by
        refine replies_of_reads h (Nat.le_trans (Nat.le_add_left _ _) hlen) hrs htail fun id' hid' k v hk hrun x hx => ?_
        rw [source_tail]
        exact hmem id' (List.mem_cons_of_mem _ hid') k v hk hrun x (inRange_of_tail hlen hx)
      obtain ⟨k, r, hk, hr, rfl⟩ := hhead
      obtain ⟨v, hv⟩ := (Serving.of_reachable h).replies k r hr
      rw [readReplies, hrest, recvbuff_reply hv hk hid]
      congr 2
      refine List.map_congr_left fun i hi => ?_
      have hin : InRange a (psz.toNat + fragBytes rest) (a + BitVec.ofNat 64 i) :=
        inRange_add (Nat.lt_of_lt_of_le (List.mem_range.mp hi) (Nat.le_add_right _ _))
      rw [hmem id List.mem_cons_self k v hk hv.before _ hin, BitVec.add_comm a, BitVec.add_sub_cancel]

end

/-- A write and a read of the same range, with the fragments of either, on a context that other threads use too. When the
VE thread has answered the read, its result functions bring the bytes of the source of the write to the target of the
read. -/
theorem read_back_what_was_written (h : (offload n w symtable sp v₀).Reachable (served w sp) o) {vh : Mem}
    {a src dst size maxw maxr : Word} {fuelw fuelr : Nat} {fragsw fragsr : List Word}
    (hfragsw : fragmentLoop maxw fuelw size = some fragsw) (hfragsr : fragmentLoop maxr fuelr size = some fragsr)
    {ws rs : List ReqId} (hws : ws.map w.command = writeRequests vh a src fragsw)
    (hrs : rs.map w.command = readRequests dst a fragsr) (hU : Undisturbed w o ws rs a size.toNat) {msgs : List VeReply}
    (hans : Answered o rs msgs) (m : Mem) :
    msgs.foldl VeReply.deliver m = m.write dst (vh.read src size.toNat) := by
  have hw := fragBytes_fragmentLoop hfragsw
  have hr := fragBytes_fragmentLoop hfragsr
  have hlen : fragBytes fragsr ≤ 2 ^ 64 := by
    rw [hr]
    exact Nat.le_of_lt size.isLt
  rw [← hw] at hU
  have hmsgs : msgs = readReplies vh dst src fragsr :=
    replies_of_reads h hlen hrs hans fun id hid k v hk hrun x hx => mem_at_read h hws hU hid hk hrun (by rwa [hw, ← hr])
  rw [hmsgs, deliver_readReplies hlen, hr]

/-- A memory that has its addresses as contents. -/
def lowBytes : Mem := fun x => x.setWidth 8

/-- Three bytes that go to the VE in two requests and come back in one. -/
def copyWork : Work where
  command id :=
    if id = 0 then .sendbuff 8 (lowBytes.read 0x100 2)
    else if id = 1 then .sendbuff 10 (lowBytes.read 0x102 1)
    else .recvbuff 8 0x200 3
  newpeer _ := 1
  out _ := .sent

theorem served_copyWork (o : Offload n) (l : OffloadLabel n) (o' : Offload n) : served copyWork 64 o l o' := by
  unfold served
  split
  · rename_i job _
    cases job with
    | command id =>
      simp only [Work.label, Work.request, copyWork]
      by_cases hfirst : id = 0
      · rw [if_pos hfirst]
        rfl
      · rw [if_neg hfirst]
        split <;> rfl
    | newpeer => exact ⟨.inl (show (1 : BitVec 32) ≠ 0 by decide), rfl⟩
  · trivial

/-- A user thread submits the first request, the progress thread the others, and the VE thread handles the three. -/
def copyTrace : List (OffloadLabel 1) :=
  List.flatten [[.vh (.call (some 0) (.asyncWriteMem 2))], List.replicate 12 (.vh (.api (some 0) .tau)),
    [.vh (.api (some 0) (.sent 0))], List.replicate 12 (.vh (.api (some 0) .tau)),
    [.vh (.call (some 0) (.asyncReadMem 1))], List.replicate 10 (.vh (.api (some 0) .tau)),
    List.replicate 5 (.vh (.main .tau)), [.vh (.main (.sent 1))], List.replicate 3 (.vh (.main .tau)),
    [.vh (.main (.sent 2)), .serve, .serve, .serve]]

theorem read_back_what_was_written_copy :
    ∃ (o : Offload 1) (msgs : List VeReply), (offload 1 copyWork [] 64 VePeer.start).Reachable (served copyWork 64) o ∧
      Answered o [2] msgs ∧ ∀ m : Mem, msgs.foldl VeReply.deliver m = m.write 0x200 (lowBytes.read 0x100 3) := by
  have hrun : ∃ o, (offload 1 copyWork [] 64 VePeer.start).Reachable Machine.anyStep o ∧
      (o.sent = [.command 0, .command 1, .command 2] && o.ve.ve.replies.length = 3 &&
        pushedIds o.ctx.sh.log = [0, 1, 2]) = true :=
    Machine.exists_reachable_of_run (M := offload 1 copyWork [] 64 VePeer.start)
      (s := ⟨.new 1, [], VePeer.start, none⟩) copyTrace _ ⟨rfl, rfl, rfl, rfl, rfl⟩ (by decide +kernel)
  obtain ⟨o, ho, hp⟩ := hrun
  simp only [Bool.and_eq_true, decide_eq_true_eq] at hp
  obtain ⟨⟨hsent, hreplies⟩, hpushed⟩ := hp
  have ho : (offload 1 copyWork [] 64 VePeer.start).Reachable (served copyWork 64) o :=
    ho.mono fun o l o' _ => served_copyWork o l o'
  have hU : Undisturbed copyWork o [0, 1] [2] 8 (3 : Word).toNat := by
    refine ⟨by simp [hsent], fun x hx y hy => ?_, fun x hx y hy id hnot _ hid => ?_⟩
    · rw [List.mem_singleton.mp hy, hpushed]
      exact ⟨[0, 1], [], rfl, hx⟩
    · -- only the two writes were pushed before the read
      rw [List.mem_singleton.mp hy, hpushed] at hid
      exact absurd (hid.mem_of_eq (by decide) rfl) hnot
  obtain ⟨r, hr⟩ : ∃ r, o.ve.ve.replies[2]? = some r := ⟨_, List.getElem?_eq_getElem (by omega)⟩
  have hans : Answered o [2] [r.msg] := .cons ⟨2, r, by rw [hsent]; rfl, hr, rfl⟩ .nil
  have hfragsw : fragmentLoop 2 3 3 = some [2, 1] := by decide
  have hfragsr : fragmentLoop 3 3 3 = some [3] := by decide
  exact ⟨o, _, ho, hans, fun m => read_back_what_was_written ho hfragsw hfragsr rfl rfl hU hans m⟩

end Offload

end Aveo

import Aveo.Lib.Decimal

/-!
# The VE node of a process

`set_venode_from_env` chooses the VE node from the argument of the user and two environment variables. A job scheduler
sets `_VENODELIST` to the nodes it assigns, and then node numbers of the user count in that list. The architecture of a
node is read from sysfs, where a directory `ve<N>` stands for each node. `selectNode` is what the choice is for; the
functions agree with it when the variables and sysfs hold decimal numbers.
-/

namespace Aveo

open Lib

/-! ### The model -/

/-- The exceptions of `std::stoi`. -/
inductive NumberError
  | invalidArgument
  | outOfRange
  deriving DecidableEq

def IsInt (z : Int) : Prop := -2 ^ 31 ≤ z ∧ z < 2 ^ 31

instance (z : Int) : Decidable (IsInt z) := inferInstanceAs (Decidable (_ ∧ _))

def stoi (s : List Char) : Except NumberError Int :=
  match scanInt isSpace s with
  | none => .error .invalidArgument
  | some (z, _) => if IsInt z then .ok z else .error .outOfRange

/-- The environment variables `_VENODELIST` and `VE_NODE_NUMBER`. -/
structure NodeEnv where
  venodelist : Option (List Char)
  veNodeNumber : Option (List Char)

/-- The search for `VE_NODE_NUMBER` in the list. A number that cannot be read ends it with an exception. -/
def findNode (venodenum : List Char) : List (List Char) → Except NumberError Bool
  | [] => .ok false
  | node :: rest => do
      if (← stoi node) = (← stoi venodenum) then .ok true else findNode venodenum rest

def setVenodeFromEnv (env : NodeEnv) (venode : Int) : Except NumberError Int :=
  if venode < -1 then .ok (-2)
  else
    match env.venodelist with
    | some venodelist =>
        let v := lines ' ' venodelist
        if venode = -1 then
          match env.veNodeNumber with
          | some venodenum => do
              let found ← findNode venodenum v
              let venode ← stoi venodenum
              .ok (if found then venode else -2)
          | none =>
              match v with
              | node :: _ => stoi node
              | [] => .ok (-2)
        else
          match v[venode.toNat]? with
          | some node => stoi node
          | none => .ok (-2)
    | none =>
        if venode = -1 then
          match env.veNodeNumber with
          | some venodenum => stoi venodenum
          | none => .ok 0
        else .ok venode

/-- `strtol` converted to an `int`, and what follows the number. -/
def strtolInt (s : List Char) : Int × List Char := ((BitVec.ofInt 32 (strtol s).1).toInt, (strtol s).2)

def getNumFromVestr (str : List Char) : Int :=
  if str.take 2 ≠ ['v', 'e'] then -1
  else
    let r := strtolInt (str.drop 2)
    if r.2 = [] ∨ r.2.head? = some '\n' then r.1 else -1

/-- A file in sysfs: there is none, it cannot be read, or it has contents. -/
inductive SysFile
  | missing
  | unreadable
  | contents (text : List Char)

/-- The names in `/sys/class/ve` in the order in which `readdir` gives them, unless the directory cannot be opened, and
the files by their paths. -/
structure Sysfs where
  names : Option (List (List Char))
  file : List Char → SysFile

/-- What `snprintf` leaves in a buffer. -/
def snprintf (size : Nat) (text : List Char) : List Char := text.take (size - 1)

def archPathBsize : Nat := 64

def archFileBsize : Nat := 16

def archPath (ve : Int) : List Char :=
  snprintf archPathBsize ("/sys/class/ve/ve".toList ++ decimal ve ++ "/ve_arch_class".toList)

/-- The loop over the directory. -/
def findVe (veNodeNumber : Int) : List (List Char) → Int
  | [] => -1
  | name :: rest =>
      let ve := getNumFromVestr name
      if veNodeNumber ≠ -1 then if ve = veNodeNumber then ve else findVe veNodeNumber rest
      else if ve ≠ -1 then ve
      else findVe veNodeNumber rest

/-- The file of a node is read. The buffer for its contents is not initialised: `junk` is what follows them. -/
def readArchFile (fs : Sysfs) (junk : List Char) (ve : Int) : Int :=
  match fs.file (archPath ve) with
  | .missing => 1
  | .unreadable => -1
  | .contents text => getNumFromVestr (text.take archFileBsize ++ junk)

def veoArchNumberSysfs (fs : Sysfs) (junk : List Char) (veNodeNumber : Int) : Int :=
  match fs.names with
  | none => -1
  | some names =>
      let ve := findVe veNodeNumber names
      if ve = -1 then -1 else readArchFile fs junk ve

def veoGetVeArch (env : NodeEnv) (fs : Sysfs) (junk : List Char) (venode : Int) : Int :=
  match setVenodeFromEnv env venode with
  | .ok venode => if -1 ≤ venode then veoArchNumberSysfs fs junk venode else 0
  | .error _ => -1

def cmdVegdb : List Char := "/opt/nec/ve/bin/ve-gdb".toList

def cmdXterm : List Char := "/usr/bin/xterm".toList

/-- The command of a process in the buffer that is allocated for it; `veoDebug` is the variable `VEO_DEBUG`. -/
def veobin (tmpVeobin : List Char) (veoDebug : Option (List Char)) : List Char :=
  let veobinSize := tmpVeobin.length + cmdVegdb.length + cmdXterm.length + "-e".toList.length + 4
  if veoDebug = some "console".toList then snprintf veobinSize (cmdVegdb ++ [' '] ++ tmpVeobin)
  else if veoDebug = some "xterm".toList then
    snprintf veobinSize (cmdXterm ++ " -e ".toList ++ cmdVegdb ++ [' '] ++ tmpVeobin)
  else snprintf veobinSize tmpVeobin

/-- The node and the command with which `ProcHandle` is constructed, unless the function returns NULL before. -/
def veoProcCreateStatic (env : NodeEnv) (veoDebug : Option (List Char)) (venode : Int) (tmpVeobin : List Char) :
    Option (Int × List Char) :=
  match setVenodeFromEnv env venode with
  | .ok venode => if venode < -1 then none else some (venode, veobin tmpVeobin veoDebug)
  | .error _ => none

/-- `veorunBin` is the variable `VEORUN_BIN`, and `ve1` and `ve3` are the binaries that are installed. -/
def veoProcCreate (env : NodeEnv) (veorunBin veoDebug : Option (List Char)) (fs : Sysfs) (junk ve1 ve3 : List Char) (venode : Int) :
    Option (Int × List Char) :=
  match veorunBin with
  | some bin => veoProcCreateStatic env veoDebug venode bin
  | none =>
      if veoArchNumberSysfs fs junk (-1) = 3 then veoProcCreateStatic env veoDebug venode ve3
      else veoProcCreateStatic env veoDebug venode ve1

/-! ### What the choice is for -/

/-- The node that is meant, if there is one: `nodes` are those that the scheduler assigned, and `num` is the node that the
user set. -/
def selectNode (nodes : Option (List Nat)) (num : Option Nat) (venode : Int) : Option Nat :=
  match nodes with
  | some nodes =>
      if venode = -1 then
        match num with
        | some m => if m ∈ nodes then some m else none
        | none => nodes.head?
      else if venode < -1 then none
      else nodes[venode.toNat]?
  | none =>
      if venode = -1 then some (num.getD 0)
      else if venode < -1 then none
      else some venode.toNat

/-- A number that is not negative. -/
def digits (k : Nat) : List Char := decimal (Int.ofNat k)

/-- The environment with these nodes. -/
def nodeEnv (nodes : Option (List Nat)) (num : Option Nat) : NodeEnv where
  venodelist := nodes.map fun nodes => [' '].intercalate (nodes.map digits)
  veNodeNumber := num.map digits

/-- The command that runs a binary, in a debugger if the user wants it. -/
def debugCommand (veoDebug : Option (List Char)) (bin : List Char) : List Char :=
  if veoDebug = some "console".toList then "/opt/nec/ve/bin/ve-gdb ".toList ++ bin
  else if veoDebug = some "xterm".toList then "/usr/bin/xterm -e /opt/nec/ve/bin/ve-gdb ".toList ++ bin
  else bin

/-! ### Numbers -/

theorem stoi_decimal {z : Int} (hz : IsInt z) : stoi (decimal z) = .ok z := by
  have hend : ∀ c, ([] : List Char).head? = some c → c.isDigit = false := fun c hc => by cases hc
  have hscan := scanInt_of_decimal z hend
  rw [List.append_nil] at hscan
  rw [stoi, hscan]
  exact if_pos hz

theorem stoi_digits {k : Nat} (hk : k < 2 ^ 31) : stoi (digits k) = .ok (Int.ofNat k) := by
  refine stoi_decimal ⟨?_, ?_⟩
  · exact Int.le_trans (by decide) (Int.natCast_nonneg k)
  · exact Int.ofNat_lt.mpr hk

/-- A number in digits, up to its end or the end of its line. -/
theorem strtolInt_digits {k : Nat} (hk : k < 2 ^ 31) {rest : List Char} (hrest : ∀ c, rest.head? = some c → c.isDigit = false) :
    strtolInt (digits k ++ rest) = (Int.ofNat k, rest) := by
  have hread : strtol (digits k ++ rest) = (Int.ofNat k, rest) := by
    refine strtol_decimal ?_ ?_ hrest <;> simp only [Int.ofNat_eq_natCast] <;> omega
  simp only [strtolInt, hread, Prod.mk.injEq, and_true]
  rw [BitVec.toInt_ofInt, Int.bmod_def]
  simp only [Int.ofNat_eq_natCast]
  omega

/-! ### The environment -/

theorem findNode_digits {m : Nat} (hm : m < 2 ^ 31) : ∀ {nodes : List Nat}, (∀ k ∈ nodes, k < 2 ^ 31) →
    findNode (digits m) (nodes.map digits) = .ok (decide (m ∈ nodes))
  | [], _ => rfl
  | k :: nodes, hnodes => by
    have hk := stoi_digits (hnodes k List.mem_cons_self)
    have hrest := findNode_digits hm fun j hj => hnodes j (List.mem_cons_of_mem k hj)
    simp only [List.map_cons, findNode, hk, stoi_digits hm, hrest, bind, Except.bind, Int.ofNat.injEq]
    by_cases hkm : k = m
    · simp [hkm]
    · simp [hkm, Ne.symm hkm]

theorem lines_nodeEnv (nodes : List Nat) : lines ' ' ([' '].intercalate (nodes.map digits)) = nodes.map digits := by
  refine lines_intercalate ?_ ?_
  · intro l hl
    obtain ⟨k, -, rfl⟩ := List.mem_map.mp hl
    exact not_mem_decimal (by decide) (by decide)
  · intro l hl
    obtain ⟨k, -, rfl⟩ := List.mem_map.mp hl
    exact decimal_ne_nil _

section

variable {nodes : Option (List Nat)} {num : Option Nat} (hnodes : ∀ ns, nodes = some ns → ∀ k ∈ ns, k < 2 ^ 31)
  (hnum : ∀ m, num = some m → m < 2 ^ 31)

include hnodes hnum

/-- With decimal numbers in the environment the choice is the one that is meant. -/
theorem setVenodeFromEnv_nodeEnv (venode : Int) :
    setVenodeFromEnv (nodeEnv nodes num) venode = .ok (((selectNode nodes num venode).map Int.ofNat).getD (-2)) := by
  unfold setVenodeFromEnv selectNode
  by_cases hlt : venode < -1
  · have hne : venode ≠ -1 := by omega
    cases nodes <;> simp [hlt, hne]
  rw [if_neg hlt]
  cases nodes with
  | none =>
    by_cases hone : venode = -1
    · cases num with
      | none => simp [nodeEnv, hone]
      | some m => simpa [nodeEnv, hone] using stoi_digits (hnum m rfl)
    · have hnat : Int.ofNat venode.toNat = venode := Int.toNat_of_nonneg (by omega)
      simp only [nodeEnv, Option.map_none, if_neg hone, if_neg hlt, Option.map_some, Option.getD_some, hnat]
  | some ns =>
    have hstoi : ∀ k ∈ ns, stoi (digits k) = .ok (Int.ofNat k) := fun k hk => stoi_digits (hnodes ns rfl k hk)
    simp only [nodeEnv, Option.map_some, lines_nodeEnv]
    by_cases hone : venode = -1
    · rw [if_pos hone, if_pos hone]
      cases num with
      | none =>
        cases ns with
        | nil => rfl
        | cons k ns => exact hstoi k List.mem_cons_self
      | some m =>
        have hm := hnum m rfl
        simp only [Option.map_some, findNode_digits hm (hnodes ns rfl), stoi_digits hm, bind, Except.bind]
        by_cases hmem : m ∈ ns <;> simp [hmem]
    · rw [if_neg hone, if_neg hone, if_neg hlt, List.getElem?_map]
      cases hget : ns[venode.toNat]? with
      | none => rfl
      | some k => exact hstoi k (List.mem_of_getElem? hget)

end

/-- A number that is found in the list is there. -/
theorem mem_of_findNode {venodenum : List Char} : ∀ {v : List (List Char)}, findNode venodenum v = .ok true →
    ∃ node ∈ v, stoi node = stoi venodenum
  | [], h => by cases h
  | node :: rest, h => by
    simp only [findNode, bind, Except.bind] at h
    cases hnode : stoi node with
    | error e =>
      rw [hnode] at h
      cases h
    | ok a =>
      cases hnum : stoi venodenum with
      | error e =>
        rw [hnode, hnum] at h
        cases h
      | ok b =>
        simp only [hnode, hnum] at h
        split at h
        · rename_i heq
          exact ⟨node, List.mem_cons_self, by rw [hnode, heq]⟩
        · obtain ⟨node', hmem, heq⟩ := mem_of_findNode h
          exact ⟨node', List.mem_cons_of_mem _ hmem, by rw [heq, hnum]⟩

/-- Whatever the variables hold, no node is chosen that is not in the list of the scheduler. -/
theorem node_is_assigned {env : NodeEnv} {venodelist : List Char} (hlist : env.venodelist = some venodelist) {venode r : Int}
    (h : setVenodeFromEnv env venode = .ok r) (hr : r ≠ -2) : ∃ node ∈ lines ' ' venodelist, stoi node = .ok r := by
  unfold setVenodeFromEnv at h
  split at h
  · cases h
    exact absurd rfl hr
  rw [hlist] at h
  dsimp only at h
  split at h
  · split at h
    · rename_i venodenum _
      simp only [bind, Except.bind] at h
      cases hfound : findNode venodenum (lines ' ' venodelist) with
      | error e =>
        rw [hfound] at h
        cases h
      | ok found =>
        cases hnum : stoi venodenum with
        | error e =>
          rw [hfound, hnum] at h
          cases h
        | ok z =>
          simp only [hfound, hnum] at h
          cases found with
          | false =>
            cases h
            exact absurd rfl hr
          | true =>
            cases h
            obtain ⟨node, hmem, heq⟩ := mem_of_findNode hfound
            exact ⟨node, hmem, heq.trans hnum⟩
    · split at h
      · rename_i node _ heq
        exact ⟨node, heq ▸ List.mem_cons_self, h⟩
      · cases h
        exact absurd rfl hr
  · split at h
    · rename_i node hget
      exact ⟨node, List.mem_of_getElem? hget, h⟩
    · cases h
      exact absurd rfl hr

/-- The first node of a list in which not everything is a number. -/
theorem node_is_assigned_first : ∃ node ∈ lines ' ' "2  x 5".toList, stoi node = .ok 2 := by
  have hlist : (NodeEnv.mk (some "2  x 5".toList) none).venodelist = some "2  x 5".toList := rfl
  have hset : setVenodeFromEnv ⟨some "2  x 5".toList, none⟩ (-1) = .ok 2 := by decide
  exact node_is_assigned hlist hset (by decide)

/-! ### The architecture -/

theorem ofNat_ne_neg_one (k : Nat) : Int.ofNat k ≠ -1 := Int.noConfusion

/-- The loop finds a node whatever the order of the directory. -/
theorem findVe_eq {node : Int} (hnode : node ≠ -1) : ∀ {names : List (List Char)},
    (∃ name ∈ names, getNumFromVestr name = node) → findVe node names = node
  | [], ⟨_, hmem, _⟩ => by cases hmem
  | name :: rest, hex => by
    unfold findVe
    rw [if_pos hnode]
    by_cases hname : getNumFromVestr name = node
    · rw [if_pos hname, hname]
    · rw [if_neg hname]
      obtain ⟨name', hmem, heq⟩ := hex
      rcases List.mem_cons.mp hmem with rfl | hmem
      · exact absurd heq hname
      · exact findVe_eq hnode ⟨name', hmem, heq⟩

theorem findVe_eq_neg_one {node : Int} (hnode : node ≠ -1) : ∀ {names : List (List Char)},
    (∀ name ∈ names, getNumFromVestr name ≠ node) → findVe node names = -1
  | [], _ => rfl
  | name :: rest, hall => by
    unfold findVe
    rw [if_pos hnode, if_neg (hall name List.mem_cons_self)]
    exact findVe_eq_neg_one hnode fun name' hmem => hall name' (List.mem_cons_of_mem _ hmem)

/-- The name of a directory, or the contents of a file up to the end of its line. -/
theorem getNumFromVestr_digits {k : Nat} (hk : k < 2 ^ 31) {rest : List Char} (hrest : rest = [] ∨ rest.head? = some '\n') :
    getNumFromVestr ("ve".toList ++ digits k ++ rest) = Int.ofNat k := by
  have hstop : ∀ c, rest.head? = some c → c.isDigit = false := by
    intro c hc
    rcases hrest with rfl | hhead
    · cases hc
    · rw [hhead] at hc
      cases hc
      rfl
  have hnum := strtolInt_digits hk hstop
  unfold getNumFromVestr
  rw [List.append_assoc, if_neg]
  · show (if (strtolInt (digits k ++ rest)).2 = [] ∨ (strtolInt (digits k ++ rest)).2.head? = some '\n' then _ else _) = _
    rw [hnum, if_pos hrest]
    exact congrArg Prod.fst hnum
  · exact not_not.mpr rfl

theorem length_digits_le {k : Nat} (hk : k < 2 ^ 31) : (digits k).length ≤ 11 :=
  length_decimal_le (k := 10) (by decide) (Nat.lt_trans hk (by decide))

/-- The path of the file for a node fits its buffer. -/
theorem archPath_eq {k : Nat} (hk : k < 2 ^ 31) :
    archPath (Int.ofNat k) = "/sys/class/ve/ve".toList ++ digits k ++ "/ve_arch_class".toList := by
  refine List.take_of_length_le ?_
  have hlen := length_digits_le hk
  have h₁ : "/sys/class/ve/ve".toList.length = 16 := rfl
  have h₂ : "/ve_arch_class".toList.length = 14 := rfl
  rw [List.length_append, List.length_append, h₁, h₂]
  show 16 + (digits k).length + 14 ≤ 63
  omega

/-- The VE nodes of a machine with their architectures, as sysfs shows them. There may be other names in the
directory. -/
structure Sysfs.Describes (fs : Sysfs) (cards : List (Nat × Nat)) : Prop where
  small : ∀ c ∈ cards, c.1 < 2 ^ 31 ∧ c.2 < 2 ^ 31
  names : ∃ names, fs.names = some names ∧ (∀ c ∈ cards, "ve".toList ++ digits c.1 ∈ names) ∧
    ∀ name ∈ names, getNumFromVestr name = -1 ∨ ∃ c ∈ cards, name = "ve".toList ++ digits c.1
  file : ∀ c ∈ cards, fs.file ("/sys/class/ve/ve".toList ++ digits c.1 ++ "/ve_arch_class".toList) =
    .contents ("ve".toList ++ digits c.2 ++ ['\n'])

namespace Sysfs.Describes

variable {fs : Sysfs} {cards : List (Nat × Nat)} (h : fs.Describes cards)

include h

theorem getNumFromVestr_name {c : Nat × Nat} (hc : c ∈ cards) : getNumFromVestr ("ve".toList ++ digits c.1) = Int.ofNat c.1 := by
  have hnum := getNumFromVestr_digits (h.small c hc).1 (.inl (Eq.refl []))
  rwa [List.append_nil] at hnum

/-- The number in the file of a node, whatever is in the buffer behind it. -/
theorem readArchFile_eq {c : Nat × Nat} (hc : c ∈ cards) (junk : List Char) :
    readArchFile fs junk (Int.ofNat c.1) = Int.ofNat c.2 := by
  rw [readArchFile, archPath_eq (h.small c hc).1, h.file c hc]
  have hlen := length_digits_le (h.small c hc).2
  have htake : ("ve".toList ++ digits c.2 ++ ['\n']).take archFileBsize = "ve".toList ++ digits c.2 ++ ['\n'] := by
    refine List.take_of_length_le ?_
    have hve : "ve".toList.length = 2 := rfl
    rw [List.length_append, List.length_append, hve, List.length_singleton]
    show 2 + (digits c.2).length + 1 ≤ 16
    omega
  dsimp only
  rw [htake, List.append_assoc]
  exact getNumFromVestr_digits (h.small c hc).2 (.inr rfl)

/-- The architecture of a node of the machine. -/
theorem arch_of_node {c : Nat × Nat} (hc : c ∈ cards) (junk : List Char) :
    veoArchNumberSysfs fs junk (Int.ofNat c.1) = Int.ofNat c.2 := by
  obtain ⟨names, hnames, hall, -⟩ := h.names
  have hne := ofNat_ne_neg_one c.1
  have hve : findVe (Int.ofNat c.1) names = Int.ofNat c.1 := findVe_eq hne ⟨_, hall c hc, h.getNumFromVestr_name hc⟩
  unfold veoArchNumberSysfs
  rw [hnames]
  simp only [hve]
  rw [if_neg hne]
  exact h.readArchFile_eq hc junk

/-- There is no other node. -/
theorem arch_of_other {k : Nat} (hk : ∀ c ∈ cards, c.1 ≠ k) (junk : List Char) : veoArchNumberSysfs fs junk (Int.ofNat k) = -1 := by
  obtain ⟨names, hnames, -, honly⟩ := h.names
  have hne := ofNat_ne_neg_one k
  have hve : findVe (Int.ofNat k) names = -1 := by
    refine findVe_eq_neg_one hne fun name hname heq => ?_
    rcases honly name hname with hnum | ⟨c, hc, rfl⟩
    · exact hne (heq.symm.trans hnum)
    · rw [h.getNumFromVestr_name hc] at heq
      exact hk c hc (Int.ofNat.inj heq)
  unfold veoArchNumberSysfs
  rw [hnames]
  simp only [hve]
  rfl

/-- Without a node number the loop stops at a node of the machine. -/
theorem findVe_first {names : List (List Char)} (honly : ∀ name ∈ names, getNumFromVestr name = -1 ∨
    ∃ c ∈ cards, name = "ve".toList ++ digits c.1) (hex : ∃ c ∈ cards, "ve".toList ++ digits c.1 ∈ names) :
    ∃ c ∈ cards, findVe (-1) names = Int.ofNat c.1 := by
  induction names with
  | nil =>
    obtain ⟨c, -, hmem⟩ := hex
    cases hmem
  | cons name names ih =>
    unfold findVe
    rw [if_neg (not_not.mpr rfl)]
    rcases honly name List.mem_cons_self with hnum | ⟨c, hc, rfl⟩
    · rw [if_neg (not_not.mpr hnum)]
      obtain ⟨c, hc, hmem⟩ := hex
      refine ih (fun name' hname' => honly name' (List.mem_cons_of_mem _ hname')) ⟨c, hc, ?_⟩
      refine (List.mem_cons.mp hmem).resolve_left ?_
      rintro rfl
      exact ofNat_ne_neg_one c.1 ((h.getNumFromVestr_name hc).symm.trans hnum)
    · rw [h.getNumFromVestr_name hc, if_pos (ofNat_ne_neg_one c.1)]
      exact ⟨c, hc, rfl⟩

theorem arch_of_first (hne : cards ≠ []) (junk : List Char) :
    ∃ c ∈ cards, veoArchNumberSysfs fs junk (-1) = Int.ofNat c.2 := by
  obtain ⟨names, hnames, hall, honly⟩ := h.names
  obtain ⟨c₀, hc₀⟩ := List.exists_mem_of_ne_nil cards hne
  obtain ⟨c, hc, hve⟩ := h.findVe_first honly ⟨c₀, hc₀, hall c₀ hc₀⟩
  refine ⟨c, hc, ?_⟩
  unfold veoArchNumberSysfs
  rw [hnames]
  simp only [hve]
  rw [if_neg (ofNat_ne_neg_one c.1)]
  exact h.readArchFile_eq hc junk

end Sysfs.Describes

/-- `veo_get_ve_arch` gives the architecture of the node that is meant, an error if the machine has no such node, and
zero if no node is meant; in whatever order the directory is read. -/
theorem ve_arch_of_selected_node {nodes : Option (List Nat)} {num : Option Nat}
    (hnodes : ∀ ns, nodes = some ns → ∀ k ∈ ns, k < 2 ^ 31) (hnum : ∀ m, num = some m → m < 2 ^ 31) {fs : Sysfs}
    {cards : List (Nat × Nat)} (hfs : fs.Describes cards) (junk : List Char) (venode : Int) :
    (selectNode nodes num venode = none → veoGetVeArch (nodeEnv nodes num) fs junk venode = 0) ∧
      ∀ k, selectNode nodes num venode = some k →
        (∀ a, (k, a) ∈ cards → veoGetVeArch (nodeEnv nodes num) fs junk venode = Int.ofNat a) ∧
        ((∀ c ∈ cards, c.1 ≠ k) → veoGetVeArch (nodeEnv nodes num) fs junk venode = -1) := by
  unfold veoGetVeArch
  rw [setVenodeFromEnv_nodeEnv hnodes hnum]
  refine ⟨fun hnone => ?_, fun k hk => ?_⟩
  · rw [hnone]
    rfl
  · rw [hk]
    have hle : (-1 : Int) ≤ Int.ofNat k := Int.le_trans (by decide) (Int.natCast_nonneg k)
    simp only [Option.map_some, Option.getD_some, if_pos hle]
    exact ⟨fun a ha => hfs.arch_of_node ha junk, fun hk => hfs.arch_of_other hk junk⟩

/-- A machine with two nodes, read in the other order and with the entries for the directory itself. -/
def twoCards : Sysfs where
  names := some [".".toList, "ve3".toList, "..".toList, "ve0".toList]
  file path :=
    if path = "/sys/class/ve/ve0/ve_arch_class".toList then .contents "ve1\n".toList
    else if path = "/sys/class/ve/ve3/ve_arch_class".toList then .contents "ve3\n".toList
    else .missing

theorem twoCards_describes : twoCards.Describes [(0, 1), (3, 3)] where
  small := by decide
  names := ⟨_, rfl, by decide, by decide⟩
  file := by
    intro c hc
    rcases List.mem_cons.mp hc with rfl | hc
    · rfl
    · cases List.mem_singleton.mp hc
      rfl

/-- The scheduler assigned the nodes 3 and 0, and the user asks for the first of them. -/
theorem ve_arch_of_selected_node_two :
    selectNode (some [3, 0]) none 0 = some 3 ∧ veoGetVeArch (nodeEnv (some [3, 0]) none) twoCards ['x'] 0 = 3 := by
  have hnodes : ∀ ns, some [3, 0] = some ns → ∀ k ∈ ns, k < 2 ^ 31 := by
    rintro ns ⟨⟩
    decide
  have hnum : ∀ m, (none : Option Nat) = some m → m < 2 ^ 31 := fun m hm => by cases hm
  exact ⟨rfl, ((ve_arch_of_selected_node hnodes hnum twoCards_describes ['x'] 0).2 3 rfl).1 3 (by decide)⟩

/-! ### Creating a process -/

/-- The buffer of the command is large enough in every mode. -/
theorem veobin_eq (bin : List Char) (veoDebug : Option (List Char)) : veobin bin veoDebug = debugCommand veoDebug bin := by
  have hvegdb : cmdVegdb.length = 22 := rfl
  have hxterm : cmdXterm.length = 14 := rfl
  have he : "-e".toList.length = 2 := rfl
  have hfit : ∀ {text : List Char}, text.length ≤ bin.length + 41 →
      snprintf (bin.length + cmdVegdb.length + cmdXterm.length + "-e".toList.length + 4) text = text := by
    intro text hlen
    refine List.take_of_length_le ?_
    rw [hvegdb, hxterm, he]
    omega
  unfold veobin debugCommand
  split
  · exact hfit (by simp [hvegdb]; omega)
  · split
    · exact hfit (by simp [hvegdb, hxterm]; omega)
    · exact hfit (by omega)

theorem veoProcCreateStatic_eq {nodes : Option (List Nat)} {num : Option Nat}
    (hnodes : ∀ ns, nodes = some ns → ∀ k ∈ ns, k < 2 ^ 31) (hnum : ∀ m, num = some m → m < 2 ^ 31)
    (veoDebug : Option (List Char)) (venode : Int) (bin : List Char) :
    veoProcCreateStatic (nodeEnv nodes num) veoDebug venode bin =
      (selectNode nodes num venode).map fun k => (Int.ofNat k, debugCommand veoDebug bin) := by
  unfold veoProcCreateStatic
  rw [setVenodeFromEnv_nodeEnv hnodes hnum]
  cases selectNode nodes num venode with
  | none => rfl
  | some k =>
    have hle : ¬ Int.ofNat k < -1 := Int.not_lt.mpr (Int.le_trans (by decide) (Int.natCast_nonneg k))
    simp only [Option.map_some, Option.getD_some, if_neg hle, veobin_eq]

/-- On a machine whose nodes have one architecture, a process is created on the node that is meant, and runs the binary
that the user set or the one for the architecture, with the whole command of the debugger before it. -/
theorem proc_runs_on_selected_node {nodes : Option (List Nat)} {num : Option Nat}
    (hnodes : ∀ ns, nodes = some ns → ∀ k ∈ ns, k < 2 ^ 31) (hnum : ∀ m, num = some m → m < 2 ^ 31) {fs : Sysfs}
    {cards : List (Nat × Nat)} (hfs : fs.Describes cards) (hne : cards ≠ []) {a : Nat} (harch : ∀ c ∈ cards, c.2 = a)
    (veorunBin veoDebug : Option (List Char)) (junk ve1 ve3 : List Char) (venode : Int) :
    veoProcCreate (nodeEnv nodes num) veorunBin veoDebug fs junk ve1 ve3 venode =
      (selectNode nodes num venode).map fun k =>
        (Int.ofNat k, debugCommand veoDebug (veorunBin.getD (if a = 3 then ve3 else ve1))) := by
  unfold veoProcCreate
  cases veorunBin with
  | some bin => exact veoProcCreateStatic_eq hnodes hnum veoDebug venode bin
  | none =>
    obtain ⟨c, hc, hnumber⟩ := hfs.arch_of_first hne junk
    have hthree : Int.ofNat c.2 = 3 ↔ a = 3 := by
      rw [harch c hc]
      exact ⟨Int.ofNat.inj, congrArg Int.ofNat⟩
    simp only [hnumber, hthree, Option.getD_none, veoProcCreateStatic_eq hnodes hnum]
    split <;> rfl

/-- A machine with one node. -/
def oneCard : Sysfs where
  names := some ["ve3".toList]
  file _ := .contents "ve3\n".toList

theorem oneCard_describes : oneCard.Describes [(3, 3)] where
  small := by decide
  names := ⟨_, rfl, by decide, by decide⟩
  file c hc := by
    cases List.mem_singleton.mp hc
    rfl

/-- The user asks for a node that the scheduler assigned, and for the debugger on the terminal. -/
theorem proc_runs_on_selected_node_console :
    veoProcCreate (nodeEnv (some [3, 0]) (some 3)) none (some "console".toList) oneCard [] "aveorun_ve1".toList
        "aveorun_ve3".toList (-1) =
      some (3, "/opt/nec/ve/bin/ve-gdb aveorun_ve3".toList) := by
  have hnodes : ∀ ns, some [3, 0] = some ns → ∀ k ∈ ns, k < 2 ^ 31 := by
    rintro ns ⟨⟩
    decide
  have hnum : ∀ m, some 3 = some m → m < 2 ^ 31 := by
    rintro m ⟨⟩
    decide
  have harch : ∀ c ∈ [(3, 3)], c.2 = 3 := by decide
  exact proc_runs_on_selected_node hnodes hnum oneCard_describes (List.cons_ne_nil _ _) harch none _ _ _ _ _

end Aveo

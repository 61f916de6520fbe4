import PathArmor.Analyzer.StateSet
import PathArmor.Analyzer.Validate
import PathArmor.Library.Grouping
import PathArmor.StateFile

/-!
# Kernel states

`generate_lbr_kstates` turns the state sets of the analysis into a value of the state file. The
kernel looks a path up by its newest target, so the states are grouped by that address, and it
compares addresses that carry flags, so the records do too.
-/

namespace PathArmor.Analyzer
open PathArmor.Library StateFile

def libFlag : UInt64 := (1 : UInt64) <<< 63
def targFlag : UInt64 := (1 : UInt64) <<< 62
def mainFlag : UInt64 := (1 : UInt64) <<< 61

def maxFnameLength : Nat := 16

/-- What else a function is marked with. -/
structure FunctionMarks where
  isMain : FuncId → Bool
  addrTaken : FuncId → Bool

/-- The functions to protect with their states. -/
abbrev LbrStateMap := List (FuncId × LbrStateSet)

def LbrStateMap.states (smap : LbrStateMap) : List LbrState := smap.flatMap fun entry => entry.2.values

section Addresses
variable (g : Cfg)

namespace LbrState
variable (s : LbrState)

/-- The pairs of `source(i)` and `target(i)`. -/
def addresses : List (Address × Address) := s.edges.map fun e =>
  ((g.block (g.source e)).lastInsnAddress, (g.block (g.target e)).startAddress)

/-- `target(0)` -/
def firstTarget : Address := (g.block (g.target (s.edges.head s.nonempty))).startAddress

/-- What `LBRState::hash` feeds to the digest. -/
def hashStream : List UInt8 :=
  (List.range lbrSize).flatMap fun i => pairBytes ((s.addresses g)[i]?.getD (0, 0))

end LbrState

def setAddrFlags (marks : FunctionMarks) (addr : Address) : Address :=
  let f := g.findFunction addr
  let flagged :=
    if f.any fun f => (g.func f).isLibDummy then addr ||| libFlag
    else if g.addrInCfg addr then
      if addr ≠ addressTaken then addr ||| targFlag else addr
    else addr
  if f.any marks.isMain then flagged ||| mainFlag else flagged

end Addresses

theorem or_ne_of_lt {addr : UInt64} (plain : addr.toNat < 2 ^ 61) (flag : UInt64)
    (high : 2 ^ 61 ≤ flag.toNat) (x : UInt64) : x ||| flag ≠ addr := by
  rintro rfl
  have le : flag.toNat ≤ x.toNat ||| flag.toNat := Nat.right_le_or
  rw [UInt64.toNat_or] at plain
  omega

/-- An address below the flags stays as it is only if there is nothing to say about it. -/
theorem setAddrFlags_eq_self_iff {g : Cfg} {marks : FunctionMarks} {addr : Address}
    (plain : addr.toNat < 2 ^ 61) :
    setAddrFlags g marks addr = addr ↔
      (g.addrInCfg addr = true → addr = addressTaken) ∧
      (g.findFunction addr).any (fun f => (g.func f).isLibDummy) = false ∧
      (g.findFunction addr).any marks.isMain = false := by
  have lib := or_ne_of_lt plain libFlag (by decide)
  have targ := or_ne_of_lt plain targFlag (by decide)
  have main := or_ne_of_lt plain mainFlag (by decide)
  simp only [setAddrFlags]
  generalize (g.findFunction addr).any marks.isMain = isMain
  generalize (g.findFunction addr).any (fun f => (g.func f).isLibDummy) = isLib
  cases isMain with
  | true => simp [main]
  | false =>
      cases isLib with
      | true => simp [lib]
      | false => simp [ite_eq_right_iff, targ]

/-! ## Generating the states -/

deriving instance DecidableEq for LbrValidState
deriving instance DecidableEq for HashedState

section Generate
variable (g : Cfg) (marks : FunctionMarks) (digest : List UInt8 → List UInt8)

/-- A `struct lbr_valid_state_map` whose states have no digests yet. -/
structure KstatesMap where
  toAddr : UInt64
  state : List LbrValidState

def kstate (s : LbrState) : LbrValidState where
  fromAddr k := ((s.addresses g)[k.val]?.map fun pair => setAddrFlags g marks pair.1).getD 0
  toAddr k := ((s.addresses g)[k.val]?.map fun pair => setAddrFlags g marks pair.2).getD 0

def setKstatesMap (toAddr : Address) (sset : List LbrState) : KstatesMap where
  toAddr := toAddr
  state := sset.map (kstate g marks)

def dummyKstates : KstatesMap where
  toAddr := 0
  state := [{ fromAddr := fun _ => 0, toAddr := fun _ => 0 }]

def hashKstate (state : LbrValidState) : HashedState :=
  { state with hash := digest (hashPathsStream state) }

def hashPaths (maps : List KstatesMap) : List LbrValidStateMap :=
  maps.map fun entry => { toAddr := entry.toAddr, state := entry.state.map (hashKstate digest) }

/-- The name is copied up to its `NUL`; what follows in the array is not set. -/
def kstatesFunc (f : FuncId) : LbrFunction where
  fptr := (g.func f).baseAddr
  fname := (g.func f).funname.toUTF8.toList ++ [0]

def kstatesAddressTaken : List UInt64 :=
  (g.functions.filter fun entry => marks.addrTaken entry.2).map fun entry =>
    setAddrFlags g marks (g.func entry.2).baseAddr

/-- `states_by_addr` and `state_lookup` after the loop over all states. -/
def statesByAddr (smap : LbrStateMap) : Grouping Address LbrState (List UInt8) :=
  smap.states.foldl (Grouping.add (·.firstTarget g) fun s => digest (s.hashStream g)) {}

def kstates (smap : LbrStateMap) : LbrPaths where
  func := smap.map fun entry => kstatesFunc g entry.1
  addressTaken := kstatesAddressTaken g marks
  stateMap := hashPaths digest ((statesByAddr g digest smap).groups.map
    (fun group => setKstatesMap g marks group.1 group.2) ++ [dummyKstates])

/-- `none` stands for a failed assertion and `some none` for the result `-1`; `alloc i` says whether
the allocation `i` succeeds. -/
def generateLbrKstates (alloc : Nat → Bool) (smap : LbrStateMap) : Option (Option LbrPaths) :=
  let n := (statesByAddr g digest smap).groups.length
  if !alloc 0 then some none
  else if smap.any fun entry => maxFnameLength ≤ (g.func entry.1).funname.toUTF8.size then none
  else if !alloc 1 then some none
  else if 0 < n && !alloc 2 then some none
  else if (List.range n).any fun i => !alloc (3 + i) then some none
  else if !alloc (3 + n) || !alloc (4 + n) then some none
  else some (some (kstates g marks digest smap))

/-! ## The grouping -/

/-- The record of a state. -/
def krecord (s : LbrState) : HashedState := hashKstate digest (kstate g marks s)

/-- Each sequence of addresses has one record, which is in the map of its own target, and the only
map without states is the one for the address 0. -/
structure Grouped (smap : LbrStateMap) (paths : LbrPaths) : Prop where
  oneEach : ∀ s ∈ smap.states,
    (paths.stateMap.flatMap (·.state)).count (krecord g marks digest s) = 1
  apart : ∀ s ∈ smap.states, ∀ s' ∈ smap.states,
    krecord g marks digest s = krecord g marks digest s' → s.addresses g = s'.addresses g
  ownTarget : ∀ entry ∈ paths.stateMap, ∀ record ∈ entry.state, record.toAddr 0 = entry.toAddr
  distinct : (paths.stateMap.map (·.toAddr)).Nodup
  further : ∃ groups, paths.stateMap = groups ++ hashPaths digest [dummyKstates] ∧
    ∀ entry ∈ groups, entry.state ≠ [] ∧
      ∀ record ∈ entry.state, ∃ s ∈ smap.states, record = krecord g marks digest s

/-- No flag is set in a first target, and neither the zeros at the end of a hashed sequence nor the
flags make two sequences one. -/
structure Groupable (smap : LbrStateMap) : Prop where
  names : ∀ entry ∈ smap, (g.func entry.1).funname.toUTF8.size < maxFnameLength
  unflagged : ∀ s ∈ smap.states, setAddrFlags g marks (s.firstTarget g) = s.firstTarget g
  nonzero : ∀ s ∈ smap.states, s.firstTarget g ≠ 0
  padding : ∀ s ∈ smap.states, ∀ s' ∈ smap.states,
    s.hashStream g = s'.hashStream g → s.addresses g = s'.addresses g
  flags : ∀ s ∈ smap.states, ∀ s' ∈ smap.states,
    kstate g marks s = kstate g marks s' → s.addresses g = s'.addresses g

end Generate

variable {g : Cfg} {marks : FunctionMarks} {digest : List UInt8 → List UInt8} {smap : LbrStateMap}
  {s s' : LbrState}

theorem LbrState.addresses_zero (s : LbrState) :
    ∃ source, (s.addresses g)[0]? = some (source, s.firstTarget g) := by
  obtain ⟨edges, nonempty, short⟩ := s
  cases edges with
  | nil => exact absurd rfl nonempty
  | cons e rest => exact ⟨_, rfl⟩

theorem LbrState.firstTarget_of_hashStream (same : s.hashStream g = s'.hashStream g) :
    s.firstTarget g = s'.firstTarget g := by
  have pairs : (List.range lbrSize).map (fun i => (s.addresses g)[i]?.getD (0, 0)) =
      (List.range lbrSize).map (fun i => (s'.addresses g)[i]?.getD (0, 0)) := by
    apply flatMap_injective length_pairBytes (fun _ _ => pairBytes_injective) (by simp)
    simpa only [hashStream, List.flatMap_map] using same
  have first := congrArg (·[0]?) pairs
  obtain ⟨source, atZero⟩ := s.addresses_zero (g := g)
  obtain ⟨source', atZero'⟩ := s'.addresses_zero (g := g)
  have both : source = source' ∧ s.firstTarget g = s'.firstTarget g := by
    simpa [lbrSize, atZero, atZero'] using first
  exact both.2

theorem kstate_toAddr_zero (s : LbrState) :
    (kstate g marks s).toAddr 0 = setAddrFlags g marks (s.firstTarget g) := by
  obtain ⟨source, atZero⟩ := s.addresses_zero (g := g)
  simp [kstate, atZero]

theorem kstate_of_addresses (same : s.addresses g = s'.addresses g) :
    kstate g marks s = kstate g marks s' := by
  rw [kstate, kstate, same]

theorem krecord_eq_iff : krecord g marks digest s = krecord g marks digest s' ↔
    kstate g marks s = kstate g marks s' := by
  constructor
  · intro same
    exact congrArg HashedState.toLbrValidState same
  · intro same
    rw [krecord, krecord, same]

/-- The digest tells the sequences of the map apart. -/
def CollisionFree (g : Cfg) (digest : List UInt8 → List UInt8) (smap : LbrStateMap) : Prop :=
  ∀ s ∈ smap.states, ∀ s' ∈ smap.states,
    digest (s.hashStream g) = digest (s'.hashStream g) → s.hashStream g = s'.hashStream g

theorem statesByAddr_of : Grouping.Of (·.firstTarget g) (fun s => digest (s.hashStream g)) smap.states
    (statesByAddr g digest smap) := Grouping.of_foldl _

theorem CollisionFree.exists_member (collisionFree : CollisionFree g digest smap)
    (member : s ∈ smap.states) : ∃ b ∈ (statesByAddr g digest smap).members,
      b.hashStream g = s.hashStream g := by
  obtain ⟨b, inGroup, same⟩ := statesByAddr_of.exists_member member
  exact ⟨b, inGroup, collisionFree b (statesByAddr_of.members_subset inGroup) s member same⟩

theorem eq_of_hashStream {b b' : LbrState} (first : b ∈ (statesByAddr g digest smap).members)
    (second : b' ∈ (statesByAddr g digest smap).members) (same : b.hashStream g = b'.hashStream g) :
    b = b' :=
  statesByAddr_of.eq_of_ident first second (congrArg digest same)

/-! ## The result -/

theorem generateLbrKstates_eq {alloc : Nat → Bool} (memory : ∀ i, alloc i = true) :
    generateLbrKstates g marks digest alloc smap =
      if ∀ entry ∈ smap, (g.func entry.1).funname.toUTF8.size < maxFnameLength
        then some (some (kstates g marks digest smap)) else none := by
  have noneFails (n : Nat) : (List.range n).any (fun _ => false) = false := by simp
  simp only [generateLbrKstates, memory, noneFails, Bool.not_true, Bool.and_false, Bool.or_false,
    Bool.false_eq_true, if_false]
  by_cases short : ∀ entry ∈ smap, (g.func entry.1).funname.toUTF8.size < maxFnameLength
  · rw [if_pos short, if_neg]
    simpa using short
  · rw [if_neg short, if_pos]
    simpa using short

theorem stateMap_kstates : (kstates g marks digest smap).stateMap =
    (statesByAddr g digest smap).groups.map (fun group =>
      { toAddr := group.1, state := group.2.map (krecord g marks digest) }) ++
      hashPaths digest [dummyKstates] := by
  simp only [kstates, hashPaths, List.map_append, List.map_map]
  congr 1
  apply List.map_congr_left
  intro group _
  simp [setKstatesMap, krecord]

theorem records_kstates : (kstates g marks digest smap).stateMap.flatMap (·.state) =
    (statesByAddr g digest smap).members.map (krecord g marks digest) ++
      [hashKstate digest { fromAddr := fun _ => 0, toAddr := fun _ => 0 }] := by
  rw [stateMap_kstates, List.flatMap_append, List.flatMap_map, Grouping.members, List.map_flatMap]
  rfl

theorem targets_kstates : (kstates g marks digest smap).stateMap.map (·.toAddr) =
    (statesByAddr g digest smap).groups.map Prod.fst ++ [0] := by
  rw [stateMap_kstates, List.map_append, List.map_map]
  rfl

theorem Groupable.nodup_records (groupable : Groupable g marks smap) :
    ((kstates g marks digest smap).stateMap.flatMap (·.state)).Nodup := by
  have of : Grouping.Of _ _ smap.states (statesByAddr g digest smap) := statesByAddr_of
  rw [records_kstates]
  refine List.Nodup.append ?_ (List.nodup_singleton _) ?_
  · refine List.Nodup.map_on ?_ (of.seen.nodup_iff.mp of.distinct).of_map
    intro b first b' second same
    have addresses := groupable.flags b (of.members_subset first) b' (of.members_subset second)
      (krecord_eq_iff.mp same)
    apply eq_of_hashStream first second
    rw [LbrState.hashStream, LbrState.hashStream, addresses]
  · intro record member zero
    obtain ⟨b, inGroup, rfl⟩ := List.mem_map.mp member
    have target : (kstate g marks b).toAddr 0 = 0 :=
      congrArg (fun record : HashedState => record.toAddr 0) (List.mem_singleton.mp zero)
    rw [kstate_toAddr_zero, groupable.unflagged b (of.members_subset inGroup)] at target
    exact groupable.nonzero b (of.members_subset inGroup) target

theorem Groupable.grouped (groupable : Groupable g marks smap)
    (collisionFree : CollisionFree g digest smap) :
    Grouped g marks digest smap (kstates g marks digest smap) := by
  have of : Grouping.Of _ _ smap.states (statesByAddr g digest smap) := statesByAddr_of
  have states {group : Address × List LbrState} (listed : group ∈ (statesByAddr g digest smap).groups)
      {b : LbrState} (inGroup : b ∈ group.2) : b ∈ smap.states :=
    of.members_subset (List.mem_flatMap.mpr ⟨group, listed, inGroup⟩)
  constructor
  · intro s member
    obtain ⟨b, inGroup, same⟩ := collisionFree.exists_member member
    have addresses := groupable.padding b (of.members_subset inGroup) s member same
    apply List.count_eq_one_of_mem groupable.nodup_records
    rw [records_kstates]
    apply List.mem_append_left
    exact List.mem_map.mpr ⟨b, inGroup, krecord_eq_iff.mpr (kstate_of_addresses addresses)⟩
  · intro s member s' member' same
    exact groupable.flags s member s' member' (krecord_eq_iff.mp same)
  · rw [stateMap_kstates]
    refine List.forall_mem_append.mpr ⟨?_, by simp [hashPaths, dummyKstates, hashKstate]⟩
    refine List.forall_mem_map.mpr fun group listed => List.forall_mem_map.mpr fun b inGroup => ?_
    calc (kstate g marks b).toAddr 0 = setAddrFlags g marks (b.firstTarget g) := kstate_toAddr_zero b
      _ = b.firstTarget g := groupable.unflagged b (states listed inGroup)
      _ = group.1 := (of.keyed group listed).2 b inGroup
  · rw [targets_kstates]
    refine of.nodup_keys.append (List.nodup_singleton _) ?_
    intro target member zero
    obtain ⟨group, listed, rfl⟩ := List.mem_map.mp member
    obtain ⟨notEmpty, keyed⟩ := of.keyed group listed
    obtain ⟨b, inGroup⟩ := List.exists_mem_of_ne_nil _ notEmpty
    exact groupable.nonzero b (states listed inGroup)
      ((keyed b inGroup).trans (List.mem_singleton.mp zero))
  · refine ⟨_, stateMap_kstates, List.forall_mem_map.mpr fun group listed => ⟨?_, ?_⟩⟩
    · exact List.map_eq_nil_iff.not.mpr (of.keyed group listed).1
    · exact List.forall_mem_map.mpr fun b inGroup => ⟨b, states listed inGroup, rfl⟩

theorem Grouped.unflagged (grouped : Grouped g marks digest smap (kstates g marks digest smap))
    {b : LbrState} (inGroup : b ∈ (statesByAddr g digest smap).members) :
    setAddrFlags g marks (b.firstTarget g) = b.firstTarget g ∧ b.firstTarget g ≠ 0 := by
  obtain ⟨group, listed, inside, key⟩ := statesByAddr_of.key_mem inGroup
  constructor
  · have own := grouped.ownTarget
    rw [stateMap_kstates] at own
    have here := (List.forall_mem_append.mp own).1 _ (List.mem_map.mpr ⟨group, listed, rfl⟩) _
      (List.mem_map.mpr ⟨b, inside, rfl⟩)
    rw [← kstate_toAddr_zero, ← key]
    exact here
  · intro zero
    have distinct := grouped.distinct
    rw [targets_kstates] at distinct
    refine (List.nodup_append.mp distinct).2.2 _ (List.mem_map.mpr ⟨group, listed, rfl⟩) 0
      (List.mem_singleton_self 0) (key.trans zero)

theorem Grouped.groupable (grouped : Grouped g marks digest smap (kstates g marks digest smap))
    (names : ∀ entry ∈ smap, (g.func entry.1).funname.toUTF8.size < maxFnameLength)
    (collisionFree : CollisionFree g digest smap) : Groupable g marks smap := by
  have target (s : LbrState) (member : s ∈ smap.states) :
      setAddrFlags g marks (s.firstTarget g) = s.firstTarget g ∧ s.firstTarget g ≠ 0 := by
    obtain ⟨b, inGroup, same⟩ := collisionFree.exists_member member
    rw [← LbrState.firstTarget_of_hashStream same]
    exact grouped.unflagged inGroup
  have recorded (s : LbrState) (member : s ∈ smap.states) :
      ∃ b ∈ (statesByAddr g digest smap).members, b.addresses g = s.addresses g := by
    have listed := List.count_pos_iff.mp (grouped.oneEach s member ▸ Nat.one_pos)
    rw [records_kstates] at listed
    rcases List.mem_append.mp listed with inMap | zero
    · obtain ⟨b, inGroup, same⟩ := List.mem_map.mp inMap
      exact ⟨b, inGroup, grouped.apart b (statesByAddr_of.members_subset inGroup) s member same⟩
    · have zeroTarget : (kstate g marks s).toAddr 0 = 0 :=
        congrArg (fun record : HashedState => record.toAddr 0) (List.mem_singleton.mp zero)
      rw [kstate_toAddr_zero, (target s member).1] at zeroTarget
      exact absurd zeroTarget (target s member).2
  refine ⟨names, fun s member => (target s member).1, fun s member => (target s member).2, ?_, ?_⟩
  · intro s member s' member' same
    obtain ⟨b, inGroup, addresses⟩ := recorded s member
    obtain ⟨b', inGroup', addresses'⟩ := recorded s' member'
    have stream : b.hashStream g = b'.hashStream g := by
      calc b.hashStream g = s.hashStream g := by rw [LbrState.hashStream, LbrState.hashStream, addresses]
        _ = s'.hashStream g := same
        _ = b'.hashStream g := by rw [LbrState.hashStream, LbrState.hashStream, addresses']
    rw [← addresses, ← addresses', eq_of_hashStream inGroup inGroup' stream]
  · intro s member s' member' same
    exact grouped.apart s member s' member' (krecord_eq_iff.mpr same)

theorem generateLbrKstates_grouped_iff {alloc : Nat → Bool} (memory : ∀ i, alloc i = true)
    (collisionFree : CollisionFree g digest smap) :
    (∃ paths, generateLbrKstates g marks digest alloc smap = some (some paths) ∧
      Grouped g marks digest smap paths) ↔ Groupable g marks smap := by
  rw [generateLbrKstates_eq memory]
  constructor
  · rintro ⟨paths, returned, grouped⟩
    split_ifs at returned with names
    cases returned
    exact grouped.groupable names collisionFree
  · intro groupable
    exact ⟨_, if_pos groupable.names, groupable.grouped collisionFree⟩

/-- A jump to a dummy block, whose address no function and no registered block has. -/
def outsideJump : Cfg :=
  (((Cfg.empty id).newBlock 0x400000 0x400004 0x400002 false []).newBlock 0x2911 0x2912 0x2911 true
    []).link 0 1

def noMarks : FunctionMarks := ⟨fun _ => false, fun _ => false⟩

def oneEdge : LbrState := ⟨[0], by decide, by decide⟩

def oneEdgeMap : LbrStateMap := [(0, { state := [⟨0, oneEdge⟩] })]

theorem generateLbrKstates_grouped_iff_outside :
    ∃ paths, generateLbrKstates outsideJump noMarks id (fun _ => true)
        oneEdgeMap = some (some paths) ∧
      Grouped outsideJump noMarks id oneEdgeMap paths := by
  have single : ∀ s ∈ oneEdgeMap.states, s = oneEdge := by decide
  have collisionFree : CollisionFree outsideJump id oneEdgeMap := fun _ _ _ _ same => same
  refine (generateLbrKstates_grouped_iff (fun _ => rfl) collisionFree).mpr ⟨?_, ?_, ?_, ?_, ?_⟩
  · decide +kernel
  · decide +kernel
  · decide +kernel
  · intro s member s' member' _
    rw [single s member, single s' member']
  · intro s member s' member' _
    rw [single s member, single s' member']

def insideJump : Cfg :=
  Cfg.ofEdges id [(0x400000, 0x400002), (0x400500, 0x400505)] [(0, 1, .directJmp)]

/-- The target of the jump is in the graph, so the record has a flag that the map has not. -/
theorem generateLbrKstates_mixes :
    CollisionFree insideJump id oneEdgeMap ∧
      ∃ paths, generateLbrKstates insideJump noMarks id (fun _ => true)
          oneEdgeMap = some (some paths) ∧
        paths.stateMap.map (fun entry => (entry.toAddr, entry.state.map (·.toAddr 0))) =
          [(0x400500, [0x4000000000400500]), (0, [0])] ∧
        ¬ Grouped insideJump noMarks id oneEdgeMap paths := by
  refine ⟨fun _ _ _ _ same => same, _, generateLbrKstates_eq fun _ => rfl, by decide +kernel, ?_⟩
  intro grouped
  have member : oneEdge ∈ (statesByAddr insideJump id oneEdgeMap).members := by decide +kernel
  exact absurd (grouped.unflagged member).1 (by decide +kernel)

end PathArmor.Analyzer

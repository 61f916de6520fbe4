import PathArmor.Analyzer.StateSearch
import PathArmor.Library.SwapRemove
import PathArmor.Library.Transition

/-!
# Sets of LBR states

An `LBRStateSet` owns its states. It keeps a pointer to each of them in a vector and a second one in
the list that belongs to the id of the state's last edge, where `find_state` looks for it. Which
address `new` returns is left to the allocator; it is one that no state of a set has.
-/

namespace PathArmor.Analyzer
open PathArmor.Library
open scoped List

/-- What `set_edges` stores. -/
@[ext] structure LbrState where
  edges : List EdgeId
  nonempty : edges ≠ []
  length_le : edges.length ≤ lbrSize
  deriving DecidableEq

/-- An `LBRState` on the heap. -/
structure StateObject where
  address : Nat
  value : LbrState
  deriving DecidableEq

structure LbrStateSet where
  state : List StateObject := []
  statesByLastEdge : UInt32 → List StateObject := fun _ => []

def LbrState.lastEdge (s : LbrState) : EdgeId := s.edges.getLast s.nonempty

def LbrStateSet.len (set : LbrStateSet) : Nat := set.state.length

def LbrStateSet.addresses (set : LbrStateSet) : List Nat := set.state.map (·.address)

def LbrStateSet.values (set : LbrStateSet) : List LbrState := set.state.map (·.value)

section Ids
-- The ids are drawn from a counter of 32 bits, so edges may share one.
variable (id : EdgeId → UInt32)

namespace LbrStateSet
variable (set : LbrStateSet)

def appendState (address : Nat) (s : LbrState) : LbrStateSet :=
  let t : StateObject := ⟨address, s⟩
  { state := set.state ++ [t]
    statesByLastEdge := Function.update set.statesByLastEdge (id t.value.lastEdge)
      (set.statesByLastEdge (id t.value.lastEdge) ++ [t]) }

/-- The list of the last edge gives up the pointer to `t`. -/
def unlist (t : StateObject) : UInt32 → List StateObject :=
  Function.update set.statesByLastEdge (id t.value.lastEdge)
    (swapRemoveFirst (set.statesByLastEdge (id t.value.lastEdge)) (·.address == t.address))

def deleteState (i : Nat) : LbrStateSet :=
  match set.state[i]? with
  | none => set
  | some t => { state := swapRemove set.state i, statesByLastEdge := set.unlist id t }

/-- `addresses` are those of the copies. -/
def appendStates (addresses : List Nat) (other : LbrStateSet) : LbrStateSet :=
  (other.state.zip addresses).foldl (fun set (t, address) => set.appendState id address t.value) set

def findState (s : LbrState) : Option StateObject :=
  (set.statesByLastEdge (id s.lastEdge)).find? fun t => t.value = s

def storeLbrState (address : Nat) (s : LbrState) : LbrStateSet :=
  match set.findState id s with
  | some _ => set
  | none => set.appendState id address s

def copy (addresses : List Nat) : LbrStateSet := appendStates id {} addresses set

end LbrStateSet

abbrev SetId := Nat

/-- The operations, with the addresses the allocator returns on the way. -/
inductive SetOp
  | appendState (k : SetId) (address : Nat) (s : LbrState)
  | appendStates (k : SetId) (addresses : List Nat) (other : SetId)
  | deleteState (k : SetId) (i : Nat)
  | storeLbrState (k : SetId) (address : Nat) (s : LbrState)
  | copy (k : SetId) (addresses : List Nat) (original : SetId)

abbrev Sets := SetId → LbrStateSet

def setSystem : System Sets SetOp where
  step sets
    | .appendState k address s => some (Function.update sets k ((sets k).appendState id address s))
    | .appendStates k addresses other =>
        some (Function.update sets k ((sets k).appendStates id addresses (sets other)))
    | .deleteState k i => some (Function.update sets k ((sets k).deleteState id i))
    | .storeLbrState k address s =>
        some (Function.update sets k ((sets k).storeLbrState id address s))
    | .copy k addresses original =>
        some (Function.update sets k ((sets original).copy id addresses))

/-- No state of a set is at one of the addresses. -/
def Sets.Fresh (sets : Sets) (addresses : List Nat) : Prop :=
  addresses.Nodup ∧ ∀ k, ∀ address ∈ addresses, address ∉ (sets k).addresses

def SetOp.Allowed (sets : Sets) : SetOp → Prop
  | .appendState _ address _ => sets.Fresh [address]
  | .appendStates k addresses other =>
      other ≠ k ∧ addresses.length = (sets other).len ∧ sets.Fresh addresses
  | .deleteState k i => i < (sets k).len
  | .storeLbrState _ address _ => sets.Fresh [address]
  | .copy _ addresses original => addresses.length = (sets original).len ∧ sets.Fresh addresses

/-- Nothing but `store_lbr_state` puts states into the set `k`. -/
def SetOp.Stores (k : SetId) : SetOp → Prop
  | .appendState k' _ _ | .appendStates k' _ _ | .copy k' _ _ => k' ≠ k
  | .deleteState _ _ | .storeLbrState _ _ _ => True

/-! ## The index -/

/-- The lists divide the vector by the last edges. -/
structure LbrStateSet.Indexed (set : LbrStateSet) : Prop where
  nodup : set.addresses.Nodup
  lists : ∀ key, set.statesByLastEdge key ~ set.state.filter fun t => id t.value.lastEdge = key

namespace LbrStateSet
variable {id} {set : LbrStateSet} {s : LbrState} {t : StateObject} {address i : Nat}

theorem indexed_empty : Indexed id {} where
  nodup := List.nodup_nil
  lists _ := List.Perm.refl []

theorem Indexed.nodup_state (indexed : set.Indexed id) : set.state.Nodup := indexed.nodup.of_map

theorem Indexed.mem_list (indexed : set.Indexed id) {key : UInt32} :
    t ∈ set.statesByLastEdge key ↔ t ∈ set.state ∧ id t.value.lastEdge = key := by
  rw [(indexed.lists key).mem_iff, List.mem_filter, decide_eq_true_iff]

theorem Indexed.count_list (indexed : set.Indexed id) (key : UInt32) (t : StateObject) :
    (set.statesByLastEdge key).count t =
      if id t.value.lastEdge = key then set.state.count t else 0 := by
  rw [(indexed.lists key).count_eq]
  split_ifs with here
  · exact List.count_filter (by simpa using here)
  · refine List.count_eq_zero_of_not_mem fun member => here ?_
    simpa using (List.mem_filter.mp member).2

theorem Indexed.isSome_findState (indexed : set.Indexed id) (s : LbrState) :
    (set.findState id s).isSome ↔ ∃ t ∈ set.state, t.value = s := by
  simp only [findState, List.find?_isSome, indexed.mem_list, decide_eq_true_iff]
  constructor
  · rintro ⟨t, ⟨member, -⟩, same⟩
    exact ⟨t, member, same⟩
  · rintro ⟨t, member, rfl⟩
    exact ⟨t, ⟨member, rfl⟩, rfl⟩

theorem Indexed.eq_of_address (indexed : set.Indexed id) {t t' : StateObject} (member : t ∈ set.state)
    (member' : t' ∈ set.state) (same : t'.address = t.address) : t' = t :=
  List.inj_on_of_nodup_map indexed.nodup member' member same

theorem Indexed.appendState (indexed : set.Indexed id) (fresh : address ∉ set.addresses)
    (s : LbrState) : (set.appendState id address s).Indexed id where
  nodup := by
    rw [addresses, LbrStateSet.appendState, List.map_append, List.map_singleton]
    exact indexed.nodup.append (List.nodup_singleton _) (List.disjoint_singleton.mpr fresh)
  lists key := by
    simp only [LbrStateSet.appendState, List.filter_append, List.filter_singleton]
    rcases eq_or_ne key (id s.lastEdge) with rfl | other
    · rw [Function.update_self, decide_eq_true rfl]
      exact (indexed.lists _).append_right _
    · rw [Function.update_of_ne other, decide_eq_false other.symm]
      simpa using indexed.lists key

theorem Indexed.perm_unlist (indexed : set.Indexed id) (member : t ∈ set.state) :
    set.statesByLastEdge (id t.value.lastEdge) ~ t :: set.unlist id t (id t.value.lastEdge) := by
  rw [unlist, Function.update_self]
  apply perm_swapRemoveFirst (indexed.mem_list.mpr ⟨member, rfl⟩)
  intro t' member'
  rw [beq_iff_eq]
  exact ⟨indexed.eq_of_address member (indexed.mem_list.mp member').1, congrArg _⟩

theorem Indexed.deleteState (indexed : set.Indexed id) (i : Nat) :
    (set.deleteState id i).Indexed id := by
  unfold LbrStateSet.deleteState
  cases found : set.state[i]? with
  | none => exact indexed
  | some t =>
      obtain ⟨inside, rfl⟩ := List.getElem?_eq_some_iff.mp found
      have parts := perm_swapRemove inside
      have member : set.state[i] ∈ set.state := List.getElem_mem inside
      refine ⟨?_, fun key => ?_⟩
      · have nodup := (parts.map StateObject.address).nodup_iff.mp indexed.nodup
        exact (List.nodup_cons.mp nodup).2
      · have divided := (indexed.lists key).trans (parts.filter _)
        rw [List.filter_cons] at divided
        rcases eq_or_ne key (id set.state[i].value.lastEdge) with rfl | other
        · rw [if_pos (by simp)] at divided
          exact (((indexed.perm_unlist member).symm.trans divided)).cons_inv
        · rw [if_neg (by simpa using other.symm)] at divided
          exact (List.Perm.of_eq (Function.update_of_ne other _ _)).trans divided

theorem addresses_appendState :
    (set.appendState id address s).addresses = set.addresses ++ [address] := by
  simp [addresses, LbrStateSet.appendState]

theorem Indexed.foldl_appendState (indexed : set.Indexed id) {copies : List (StateObject × Nat)}
    (nodup : (copies.map (·.2)).Nodup) (fresh : ∀ copy ∈ copies, copy.2 ∉ set.addresses) :
    (copies.foldl (fun set (t, address) => set.appendState id address t.value) set).Indexed id := by
  induction copies generalizing set with
  | nil => exact indexed
  | cons copy copies ih =>
      obtain ⟨first, rest⟩ := List.nodup_cons.mp nodup
      apply ih (indexed.appendState (fresh copy List.mem_cons_self) _) rest
      intro copy' later
      rw [addresses_appendState, List.mem_append, List.mem_singleton, not_or]
      refine ⟨fresh copy' (List.mem_cons_of_mem _ later), fun same => first ?_⟩
      exact List.mem_map.mpr ⟨copy', later, same⟩

theorem Indexed.appendStates (indexed : set.Indexed id) {addresses : List Nat} {other : LbrStateSet}
    (enough : addresses.length = other.len) (nodup : addresses.Nodup)
    (fresh : ∀ address ∈ addresses, address ∉ set.addresses) :
    (set.appendStates id addresses other).Indexed id := by
  have drawn : (other.state.zip addresses).map (·.2) = addresses := List.map_snd_zip enough.le
  apply indexed.foldl_appendState
  · rwa [drawn]
  · intro copy member
    apply fresh
    rw [← drawn]
    exact List.mem_map_of_mem member

theorem Indexed.storeLbrState (indexed : set.Indexed id) (fresh : address ∉ set.addresses)
    (s : LbrState) : (set.storeLbrState id address s).Indexed id := by
  unfold LbrStateSet.storeLbrState
  split
  · exact indexed
  · exact indexed.appendState fresh s

/-! ## Sets without duplicates -/

def Distinct (set : LbrStateSet) : Prop := set.values.Nodup

theorem Indexed.values_storeLbrState (indexed : set.Indexed id) (address : Nat) (s : LbrState) :
    (set.storeLbrState id address s).values =
      if s ∈ set.values then set.values else set.values ++ [s] := by
  have known : s ∈ set.values ↔ (set.findState id s).isSome := by
    rw [indexed.isSome_findState, values, List.mem_map]
  unfold LbrStateSet.storeLbrState
  split
  · rename_i found
    rw [if_pos (known.mpr (by simp [found]))]
  · rename_i missing
    rw [if_neg (by simp [known, missing])]
    simp [values, LbrStateSet.appendState]

/-- The search for LBR states sees the set as the list of its values. -/
theorem Indexed.stateSet_storeLbrState {dfs : Dfs} (indexed : set.Indexed id)
    (states : dfs.stateSet = set.values.map (·.edges)) (state : dfs.lbrState = s.edges)
    (address : Nat) :
    dfs.storeLbrState.stateSet = (set.storeLbrState id address s).values.map (·.edges) := by
  have notEmpty : dfs.len ≠ 0 := by
    intro zero
    apply s.nonempty
    rw [← state, Dfs.lbrState, zero]
    rfl
  have known : dfs.lbrState ∈ dfs.stateSet ↔ s ∈ set.values := by
    rw [states, state]
    exact List.mem_map_of_injective fun _ _ => LbrState.ext
  rw [indexed.values_storeLbrState, Dfs.storeLbrState, if_neg notEmpty]
  by_cases stored : s ∈ set.values
  · rw [if_pos (known.mpr stored), if_pos stored, states]
  · rw [if_neg (mt known.mp stored), if_neg stored]
    simp [states, state]

theorem Distinct.deleteState (distinct : set.Distinct) (i : Nat) : (set.deleteState id i).Distinct := by
  unfold LbrStateSet.deleteState
  cases found : set.state[i]? with
  | none => exact distinct
  | some t =>
      obtain ⟨inside, -⟩ := List.getElem?_eq_some_iff.mp found
      have nodup := ((perm_swapRemove inside).map StateObject.value).nodup_iff.mp distinct
      exact (List.nodup_cons.mp nodup).2

theorem Distinct.storeLbrState (distinct : set.Distinct) (indexed : set.Indexed id) (address : Nat)
    (s : LbrState) : (set.storeLbrState id address s).Distinct := by
  rw [Distinct, indexed.values_storeLbrState]
  split_ifs with known
  · exact distinct
  · exact List.Nodup.append distinct (List.nodup_singleton s) (List.disjoint_singleton.mpr known)

end LbrStateSet

/-! ## Sequences of operations -/

variable {id} {sets sets' : Sets} {op : SetOp} {ops : List SetOp}

theorem Sets.forall_update {P : SetId → LbrStateSet → Prop} (kept : ∀ k, P k (sets k)) {k : SetId}
    {set : LbrStateSet} (new : P k set) : ∀ k', P k' (Function.update sets k set k') := by
  intro k'
  rcases eq_or_ne k' k with rfl | other
  · rwa [Function.update_self]
  · rw [Function.update_of_ne other]
    exact kept k'

theorem step_indexed (indexed : ∀ k, (sets k).Indexed id) (allowed : op.Allowed sets)
    (step : (setSystem id).step sets op = some sets') : ∀ k, (sets' k).Indexed id := by
  cases op with
  | appendState k address s =>
      obtain rfl := Option.some.inj step
      have fresh := allowed.2 k address List.mem_cons_self
      exact Sets.forall_update indexed ((indexed k).appendState fresh s)
  | appendStates k addresses other =>
      obtain rfl := Option.some.inj step
      obtain ⟨-, enough, nodup, fresh⟩ := allowed
      exact Sets.forall_update indexed ((indexed k).appendStates enough nodup (fresh k))
  | deleteState k i =>
      obtain rfl := Option.some.inj step
      exact Sets.forall_update indexed ((indexed k).deleteState i)
  | storeLbrState k address s =>
      obtain rfl := Option.some.inj step
      have fresh := allowed.2 k address List.mem_cons_self
      exact Sets.forall_update indexed ((indexed k).storeLbrState fresh s)
  | copy k addresses original =>
      obtain rfl := Option.some.inj step
      obtain ⟨enough, nodup, -⟩ := allowed
      apply Sets.forall_update indexed
      exact LbrStateSet.indexed_empty.appendStates enough nodup fun _ _ => List.not_mem_nil

theorem step_distinct {k : SetId} (indexed : (sets k).Indexed id) (distinct : (sets k).Distinct)
    (stores : op.Stores k) (step : (setSystem id).step sets op = some sets') :
    (sets' k).Distinct := by
  cases op with
  | appendState k' address s =>
      obtain rfl := Option.some.inj step
      rwa [Function.update_of_ne (Ne.symm stores)]
  | appendStates k' addresses other =>
      obtain rfl := Option.some.inj step
      rwa [Function.update_of_ne (Ne.symm stores)]
  | copy k' addresses original =>
      obtain rfl := Option.some.inj step
      rwa [Function.update_of_ne (Ne.symm stores)]
  | deleteState k' i =>
      obtain rfl := Option.some.inj step
      rcases eq_or_ne k k' with rfl | other
      · rw [Function.update_self]
        exact distinct.deleteState i
      · rwa [Function.update_of_ne other]
  | storeLbrState k' address s =>
      obtain rfl := Option.some.inj step
      rcases eq_or_ne k k' with rfl | other
      · rw [Function.update_self]
        exact distinct.storeLbrState indexed address s
      · rwa [Function.update_of_ne other]

def noSets : Sets := fun _ => {}

theorem run_indexed (run : (setSystem id).Run (fun sets op => op.Allowed sets) noSets ops sets) :
    ∀ k, (sets k).Indexed id :=
  run.invariant (fun _ _ _ indexed allowed step => step_indexed indexed allowed step)
    fun _ => LbrStateSet.indexed_empty

theorem run_distinct (run : (setSystem id).Run (fun sets op => op.Allowed sets) noSets ops sets)
    {k : SetId} (stores : ∀ op ∈ ops, op.Stores k) : (sets k).Distinct := by
  have history := run.history (P := fun past sets => (∀ k, (sets k).Indexed id) ∧
      ((∀ op ∈ past, op.Stores k) → (sets k).Distinct)) [] ?_ ⟨fun _ => LbrStateSet.indexed_empty,
        fun _ => List.nodup_nil⟩
  · exact history.2 (by simpa using stores)
  · rintro past sets op sets' ⟨indexed, distinct⟩ allowed step
    refine ⟨step_indexed indexed allowed step, fun stores => ?_⟩
    exact step_distinct (indexed k) (distinct fun op earlier => stores op (by simp [earlier]))
      (stores op (by simp)) step

/-- After every sequence of operations the lists by last edge hold exactly the states of the set,
each of them once, so that a state is found exactly if the set has an equal one. -/
theorem lbrStateSet_index_complete
    (run : (setSystem id).Run (fun sets op => op.Allowed sets) noSets ops sets) (k : SetId) :
    (∀ s, ((sets k).findState id s).isSome ↔ ∃ t ∈ (sets k).state, t.value = s) ∧
    ((sets k).state.Nodup ∧ ∀ key t, ((sets k).statesByLastEdge key).count t =
      if id t.value.lastEdge = key then (sets k).state.count t else 0) ∧
    ((∀ op ∈ ops, op.Stores k) → (sets k).values.Nodup) := by
  have indexed := run_indexed run k
  exact ⟨indexed.isSome_findState, ⟨indexed.nodup_state, indexed.count_list⟩, run_distinct run⟩

def lbrStateOf (e : EdgeId) : LbrState := ⟨[e], by simp, by simp [lbrSize]⟩

theorem lbrStateSet_index_complete_stored :
    ∃ ops sets, (setSystem UInt32.ofNat).Run (fun sets op => op.Allowed sets) noSets ops sets ∧
      (∀ op ∈ ops, op.Stores 0) ∧ (sets 0).len = 1 ∧
      ((sets 0).findState UInt32.ofNat (lbrStateOf 7)).isSome := by
  have run : (setSystem UInt32.ofNat).Run (fun sets op => op.Allowed sets) noSets
      [.storeLbrState 0 100 (lbrStateOf 7), .storeLbrState 0 200 (lbrStateOf 7)] _ :=
    .cons ⟨by simp, by simp [noSets, LbrStateSet.addresses]⟩ rfl
      (.cons ⟨by simp, fun k => by
        rcases eq_or_ne k 0 with rfl | other
        · decide
        · simp [noSets, LbrStateSet.addresses, other]⟩ rfl (.nil _))
  refine ⟨_, _, run, by simp [SetOp.Stores], by decide, ?_⟩
  exact ((lbrStateSet_index_complete run 0).1 (lbrStateOf 7)).mpr ⟨⟨100, lbrStateOf 7⟩, by decide⟩

/-! ## The destructor -/

/-- The destructor at work. The vector holds pointers that may have become `NULL`; every access to it
is kept with its index and the size of the vector at that time. -/
structure Teardown where
  state : List (Option StateObject)
  statesByLastEdge : UInt32 → List StateObject
  deleted : List StateObject := []
  accesses : List (Nat × Nat) := []

namespace Teardown

def access (d : Teardown) (i : Nat) : Teardown :=
  { d with accesses := d.accesses ++ [(i, d.state.length)] }

variable (id) in
def release (d : Teardown) (t : StateObject) : Teardown :=
  { d with
    statesByLastEdge := LbrStateSet.unlist id { statesByLastEdge := d.statesByLastEdge } t
    deleted := d.deleted ++ [t] }

def fillGap (d : Teardown) (i : Nat) : Teardown :=
  { (if 1 < d.state.length then (d.access (d.state.length - 1)).access i else d) with
    state := swapRemove d.state i }

variable (id) in
/-- `delete_state` for the state `t` at index `i`. -/
def deleteState (d : Teardown) (i : Nat) (t : StateObject) : Teardown :=
  ((d.access i).release id t).fillGap i

def clearSlot (d : Teardown) (i : Nat) : Teardown :=
  { d.access i with state := d.state.set i none }

variable (id) in
def round (d : Teardown) (i : Nat) : Teardown :=
  match d.state[i]? with
  | some (some t) => ((d.access i).deleteState id i t).clearSlot i
  | _ => (d.access i).clearSlot i

variable (id) in
/-- The loop. The index grows and the vector does not, so it makes at most as many rounds as there
are states. -/
def rounds : Nat → Nat → Teardown → Teardown
  | 0, _, d => d
  | fuel + 1, i, d => if i < d.state.length then rounds fuel (i + 1) (d.round id i) else d

end Teardown

variable (id) in
/-- The destructor up to the last `clear`, which leaves the heap alone. -/
def LbrStateSet.destroy (set : LbrStateSet) : Teardown :=
  Teardown.rounds id set.state.length 0
    { state := set.state.map some, statesByLastEdge := set.statesByLastEdge }

namespace Teardown
variable {d : Teardown} {fuel i : Nat} {t : StateObject}

@[simp] theorem fillGap_deleted : (d.fillGap i).deleted = d.deleted := by
  unfold fillGap
  split_ifs <;> rfl

theorem accesses_subset_fillGap : d.accesses ⊆ (d.fillGap i).accesses := by
  unfold fillGap
  split_ifs <;> simp [access]

theorem round_of_state (found : d.state[i]? = some (some t)) :
    d.round id i = ((d.access i).deleteState id i t).clearSlot i := by
  simp only [round, found]

theorem round_of_null (null : ∀ t, d.state[i]? ≠ some (some t)) :
    d.round id i = (d.access i).clearSlot i := by
  unfold round
  split
  · rename_i t found
    exact absurd found (null t)
  · rfl

theorem accesses_subset_round (d : Teardown) (i : Nat) : d.accesses ⊆ (d.round id i).accesses := by
  intro a seen
  have logged {d : Teardown} (seen : a ∈ d.accesses) : a ∈ (d.access i).accesses :=
    List.mem_append_left _ seen
  by_cases found : ∃ t, d.state[i]? = some (some t)
  · obtain ⟨t, found⟩ := found
    rw [round_of_state found]
    exact logged (accesses_subset_fillGap (logged (logged seen)))
  · rw [round_of_null (not_exists.mp found)]
    exact logged (logged seen)

theorem rounds_invariant {P : Teardown → Prop} (keeps : ∀ d i, P d → P (d.round id i))
    (start : P d) : P (rounds id fuel i d) := by
  induction fuel generalizing i d with
  | zero => exact start
  | succ fuel ih =>
      unfold rounds
      split_ifs
      · exact ih (keeps d i start)
      · exact start

variable (id) in
theorem length_round_le (d : Teardown) (i : Nat) : (d.round id i).state.length ≤ d.state.length := by
  by_cases found : ∃ t, d.state[i]? = some (some t)
  · obtain ⟨t, found⟩ := found
    have shrinks : (d.round id i).state.length = d.state.length - 1 := by
      rw [round_of_state found]
      exact (List.length_set ..).trans (length_swapRemove d.state i)
    omega
  · rw [round_of_null (not_exists.mp found)]
    exact (List.length_set ..).le

/-- More fuel makes no difference. -/
theorem rounds_of_le {more : Nat} (enough : d.state.length ≤ i + fuel) (le : fuel ≤ more) :
    rounds id more i d = rounds id fuel i d := by
  induction fuel generalizing i d more with
  | zero => cases more with
    | zero => rfl
    | succ more => exact if_neg (by omega)
  | succ fuel ih =>
      obtain ⟨more, rfl⟩ := Nat.exists_eq_add_of_le' (Nat.one_le_of_lt le)
      have shorter := d.length_round_le id i
      unfold rounds
      rw [ih (by omega) (by omega)]

/-- The state is neither deleted nor within reach. -/
structure Lost (d : Teardown) (z : StateObject) : Prop where
  unreached : some z ∉ d.state
  kept : z ∉ d.deleted

theorem Lost.round {z : StateObject} (lost : d.Lost z) (i : Nat) : (d.round id i).Lost z := by
  have cleared {l : List (Option StateObject)} (member : some z ∈ l.set i none) : some z ∈ l :=
    (List.mem_or_eq_of_mem_set member).resolve_right (Option.some_ne_none z)
  by_cases found : ∃ t, d.state[i]? = some (some t)
  · obtain ⟨t, found⟩ := found
    obtain ⟨inside, here⟩ := List.getElem?_eq_some_iff.mp found
    rw [round_of_state found]
    constructor
    · intro member
      have moved : some z ∈ swapRemove d.state i := cleared member
      exact lost.unreached (mem_of_mem_swapRemove inside moved)
    · intro deleted
      change z ∈ ((((d.access i).access i).release id t).fillGap i).deleted at deleted
      rw [fillGap_deleted] at deleted
      change z ∈ d.deleted ++ [t] at deleted
      rw [List.mem_append, List.mem_singleton] at deleted
      rcases deleted with earlier | rfl
      · exact lost.kept earlier
      · exact lost.unreached (here ▸ List.getElem_mem inside)
  · rw [round_of_null (not_exists.mp found)]
    exact ⟨fun member => lost.unreached (cleared member), lost.kept⟩

end Teardown

namespace LbrStateSet
variable {set : LbrStateSet}

variable (id) in
/-- Every state is deleted once, and no access leaves the vector. -/
def FreesOnce (set : LbrStateSet) : Prop :=
  (set.destroy id).deleted ~ set.state ∧ ∀ access ∈ (set.destroy id).accesses, access.1 < access.2

variable (id) in
theorem destroy_of_cons {t : StateObject} {rest : List StateObject} (states : set.state = t :: rest) :
    ∃ d : Teardown, set.destroy id = Teardown.rounds id rest.length 1 d ∧
      d.state = (swapRemove ((t :: rest).map some) 0).set 0 none ∧ d.deleted = [t] ∧
      (0, rest.length) ∈ d.accesses := by
  refine ⟨Teardown.round id { state := (t :: rest).map some, statesByLastEdge := set.statesByLastEdge } 0,
    ?_, ?_, ?_, ?_⟩
  · simp [destroy, states, Teardown.rounds]
  · rw [Teardown.round_of_state rfl]
    rfl
  · rw [Teardown.round_of_state rfl]
    exact Teardown.fillGap_deleted
  · rw [Teardown.round_of_state rfl]
    have size : (swapRemove ((t :: rest).map some) 0).length = rest.length := by
      simp [length_swapRemove]
    apply List.mem_append_right
    rw [← size]
    exact List.mem_singleton_self _

variable (id) in
/-- The last state is moved into the slot that is overwritten next. -/
theorem destroy_loses_last {t z : StateObject} {init : List StateObject}
    (states : set.state = t :: (init ++ [z])) (nodup : set.state.Nodup) :
    z ∉ (set.destroy id).deleted := by
  obtain ⟨d, runs, state, first, -⟩ := destroy_of_cons id states
  rw [states, List.nodup_cons, List.mem_append, List.mem_singleton, not_or] at nodup
  obtain ⟨⟨-, notFirst⟩, nodup⟩ := nodup
  have notInit : z ∉ init :=
    List.disjoint_right.mp (List.nodup_append'.mp nodup).2.2 (List.mem_singleton_self z)
  rw [List.map_cons, List.map_append, List.map_singleton, ← List.cons_append,
    swapRemove_concat] at state
  have lost : d.Lost z := by
    constructor
    · simpa [state] using notInit
    · simpa [first] using Ne.symm notFirst
  rw [runs]
  exact (Teardown.rounds_invariant (P := (Teardown.Lost · z)) (fun _ i lost => lost.round i) lost).kept

/-- A vector of one state is empty when its slot is overwritten; a longer one loses its last
state. -/
theorem destroy_freesOnce_iff (indexed : set.Indexed id) : set.FreesOnce id ↔ set.len = 0 := by
  constructor
  · rintro ⟨deleted, inside⟩
    by_contra someStates
    obtain ⟨t, rest, states⟩ := List.exists_cons_of_length_pos (Nat.pos_of_ne_zero someStates)
    rcases List.eq_nil_or_concat rest with rfl | ⟨init, z, rfl⟩
    · obtain ⟨d, runs, -, -, last⟩ := destroy_of_cons id states
      rw [runs] at inside
      have outside := inside (0, 0) (Teardown.rounds_invariant
        (fun d i member => d.accesses_subset_round i member) last)
      exact lt_irrefl 0 outside
    · rw [List.concat_eq_append] at states
      apply destroy_loses_last id states indexed.nodup_state
      rw [deleted.mem_iff, states]
      simp
  · intro none
    have noStates : set.state = [] := List.length_eq_zero_iff.mp none
    simp [FreesOnce, destroy, noStates, Teardown.rounds]

def ofLastEdges (addresses : List Nat) : LbrStateSet :=
  addresses.foldl (fun set address => set.appendState UInt32.ofNat address (lbrStateOf address)) {}

theorem destroy_freesOnce_iff_single :
    (ofLastEdges [1]).Indexed UInt32.ofNat ∧ ¬ (ofLastEdges [1]).FreesOnce UInt32.ofNat := by
  have indexed : (ofLastEdges [1]).Indexed UInt32.ofNat :=
    indexed_empty.appendState List.not_mem_nil (lbrStateOf 1)
  exact ⟨indexed, fun frees => absurd ((destroy_freesOnce_iff indexed).mp frees) (by decide)⟩

/-- Of two states one is deleted; with three, the first and the second are, and the vector is
accessed behind its end. -/
theorem destroy_leaks :
    ((ofLastEdges [1, 2]).destroy UInt32.ofNat).deleted.map (·.address) = [1] ∧
    ((ofLastEdges [1, 2, 3]).destroy UInt32.ofNat).deleted.map (·.address) = [1, 2] ∧
    (1, 1) ∈ ((ofLastEdges [1, 2, 3]).destroy UInt32.ofNat).accesses ∧
    ¬ (ofLastEdges [1, 2]).FreesOnce UInt32.ofNat := by
  refine ⟨by decide, by decide, by decide, fun frees => ?_⟩
  exact absurd frees.1.length_eq (by decide)

end LbrStateSet

end Ids
end PathArmor.Analyzer

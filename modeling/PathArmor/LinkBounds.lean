import PathArmor.RoundTrip

/-!
# The bounds of linking

`lbr_link_paths` takes the number of functions, addresses, maps and states from the buffer it links,
which is a file or comes from user space. Nobody compares them with the size of the buffer.
-/

namespace PathArmor.StateFile
open Library

/-! ## The callers -/

/-- What the two `copy_from_user` return. -/
structure CopyCalls where
  copyStruct : Bool
  copyPaths : Bool

/-- `ARMOR_IOC_COPY_PATHS` up to the linking: `tocopy.size` bytes are taken from the address
`tocopy.paths` of user space. The result is `some none` if nothing is linked. -/
def copyPaths (calls : CopyCalls) (kmalloc : UInt64 → Option UInt64) (user : Memory)
    (source size : UInt64) (m : Memory) : Option (Option (Memory × UInt64)) :=
  if !calls.copyStruct then some none
  else match kmalloc size with
    | none => some none
    | some paths =>
        if source = 0 then some none
        else if !calls.copyPaths then some none
        else (lbrLinkPaths (m.write paths (user.read source size.toNat)) paths).map
          fun m => some (m, paths)

/-! ## Linking with its accesses -/

/-- The state of `lbr_link_paths` with the blocks of memory it has read or written and those it has
set a pointer to. -/
structure LinkRun where
  mem : Memory
  p : UInt64
  touched : List (UInt64 × Nat) := []

/-- `*pointer = p; p += *count * size`, with a block of so many records at `p`. -/
def LinkRun.layOut (s : LinkRun) (pointer : UInt64) (count : Memory → UInt64) (size : Nat) : LinkRun :=
  let mem := s.mem.store64 pointer s.p
  let n := mem.load32 (count mem)
  { mem
    p := s.p + n.toUInt64 * UInt64.ofNat size
    touched := s.touched ++ [(pointer, 8), (count mem, 4), (s.p, size * n.toNat)] }

variable (paths : UInt64)

def LinkRun.read (s : LinkRun) (k n : Nat) : LinkRun :=
  { s with touched := s.touched ++ [(paths + UInt64.ofNat k, n)] }

def linkHeader (m : Memory) : LinkRun :=
  let s : LinkRun := { mem := m, p := paths + UInt64.ofNat 48 }
  let s := s.layOut (paths + UInt64.ofNat 8) (fun _ => paths) 24
  let s := s.layOut (paths + UInt64.ofNat 24) (fun _ => paths + UInt64.ofNat 16) 8
  s.layOut (paths + UInt64.ofNat 40) (fun _ => paths + UInt64.ofNat 32) 24

/-- The test of the loop reads the number of maps, and both accesses to the entry read the address of
the array. -/
def linkEntry (i : Nat) (s : LinkRun) : LinkRun :=
  (((s.read paths 32 4).read paths 40 8).layOut (mapEntry s.mem paths i + UInt64.ofNat 16)
    (fun mem => mapEntry mem paths i + UInt64.ofNat 8) 272).read paths 40 8

def linkRun (m : Memory) : Option LinkRun :=
  (forInt (fun s => (pathsStateMaps s.mem paths).toNat) (linkEntry paths) intMax 0
    (linkHeader paths m)).map fun s => s.read paths 32 4

variable {paths} {m : Memory}

theorem forInt_map {σ τ : Type} {count : σ → Nat} {body : Nat → σ → σ} {count' : τ → Nat}
    {body' : Nat → τ → τ} (f : σ → τ) (counts : ∀ s, count' (f s) = count s)
    (bodies : ∀ i s, body' i (f s) = f (body i s)) (fuel i : Nat) (s : σ) :
    forInt count' body' fuel i (f s) = (forInt count body fuel i s).map f := by
  induction fuel generalizing i s with
  | zero =>
      unfold forInt
      rw [counts]
      split_ifs <;> rfl
  | succ fuel ih =>
      unfold forInt
      rw [counts, bodies, ih]
      split_ifs <;> rfl

/-- Without the blocks, it is `lbr_link_paths`. -/
theorem linkRun_mem (m : Memory) (paths : UInt64) :
    (linkRun paths m).map (·.mem) = lbrLinkPaths m paths := by
  have loop : forInt (fun s : Memory × UInt64 => (pathsStateMaps s.1 paths).toNat) (linkMap paths)
      intMax 0 ((linkHeader paths m).mem, (linkHeader paths m).p) =
      (forInt (fun s : LinkRun => (pathsStateMaps s.mem paths).toNat) (linkEntry paths) intMax 0
        (linkHeader paths m)).map fun s => (s.mem, s.p) :=
    forInt_map (fun s : LinkRun => (s.mem, s.p)) (fun _ => rfl) (fun _ _ => rfl) intMax 0
      (linkHeader paths m)
  have header : lbrLinkPaths m paths = (forInt (fun s => (pathsStateMaps s.1 paths).toNat)
      (linkMap paths) intMax 0 ((linkHeader paths m).mem, (linkHeader paths m).p)).map Prod.fst := rfl
  rw [header, loop, linkRun, Option.map_map, Option.map_map]
  rfl

/-! ## The layout of a buffer -/

section Layout
variable (paths : UInt64) (m : Memory)

def mapsStart : Nat := 48 + 24 * (pathsFuncs m paths).toNat + 8 * (pathsAts m paths).toNat

/-- The address of the entry `i` behind the header, the functions and the addresses. -/
def entryAt (i : Nat) : UInt64 := paths + UInt64.ofNat (mapsStart paths m + 24 * i)

/-- The offset of the states of the entry `i`. -/
def statesStart (i : Nat) : Nat :=
  mapsStart paths m + 24 * (pathsStateMaps m paths).toNat +
    272 * ((List.range i).map fun j => (mapStates m (entryAt paths m j)).toNat).sum

/-- How many bytes the counts in the buffer call for. -/
def layoutEnd : Nat := statesStart paths m (pathsStateMaps m paths).toNat

end Layout

theorem le_mapsStart : 48 ≤ mapsStart paths m := by
  unfold mapsStart
  omega

theorem statesStart_zero :
    statesStart paths m 0 = mapsStart paths m + 24 * (pathsStateMaps m paths).toNat := by
  simp [statesStart]

theorem statesStart_succ (i : Nat) : statesStart paths m (i + 1) =
    statesStart paths m i + 272 * (mapStates m (entryAt paths m i)).toNat := by
  simp only [statesStart, List.range_succ, List.map_append, List.sum_append, List.map_singleton,
    List.sum_singleton]
  ring

theorem statesStart_mono {i j : Nat} (le : i ≤ j) :
    statesStart paths m i ≤ statesStart paths m j := by
  induction le with
  | refl => exact le_rfl
  | step _ ih =>
      rw [statesStart_succ]
      omega

/-- Every block lies in the buffer. -/
def Inside (paths : UInt64) (size : Nat) (blocks : List (UInt64 × Nat)) : Prop :=
  ∀ block ∈ blocks, region block.1 block.2 ⊆ region paths size

theorem inside_append {size : Nat} {blocks blocks' : List (UInt64 × Nat)} :
    Inside paths size (blocks ++ blocks') ↔ Inside paths size blocks ∧ Inside paths size blocks' :=
  List.forall_mem_append

/-! ## The header -/

theorem LinkRun.layOut_eq {mem : Memory} {touched : List (UInt64 × Nat)} {count : Memory → UInt64}
    {size k c o n : Nat}
    (counted : ∀ v, count (mem.store64 (paths + UInt64.ofNat k) v) = paths + UInt64.ofNat c)
    (apart : c + 4 ≤ k ∨ k + 8 ≤ c) (inside : c + 4 ≤ 2 ^ 64) (inside' : k + 8 ≤ 2 ^ 64)
    (loaded : (mem.load32 (paths + UInt64.ofNat c)).toNat = n) :
    LinkRun.layOut ⟨mem, paths + UInt64.ofNat o, touched⟩ (paths + UInt64.ofNat k) count size =
      { mem := mem.store64 (paths + UInt64.ofNat k) (paths + UInt64.ofNat o)
        p := paths + UInt64.ofNat (o + size * n)
        touched := touched ++ [(paths + UInt64.ofNat k, 8), (paths + UInt64.ofNat c, 4),
          (paths + UInt64.ofNat o, size * n)] } := by
  simp only [layOut, counted, Memory.load32_store64_of_apart inside inside' apart, LbrPaths.scaled,
    loaded, offset_offset]

/-- What the header has become when the loop starts. -/
def headerStored (paths : UInt64) (m : Memory) : Memory :=
  ((m.store64 (paths + UInt64.ofNat 8) (paths + UInt64.ofNat 48)).store64 (paths + UInt64.ofNat 24)
    (paths + UInt64.ofNat (48 + 24 * (pathsFuncs m paths).toNat))).store64 (paths + UInt64.ofNat 40)
    (paths + UInt64.ofNat (mapsStart paths m))

theorem linkHeader_eq : linkHeader paths m =
    { mem := headerStored paths m
      p := paths + UInt64.ofNat (statesStart paths m 0)
      touched := [(paths + UInt64.ofNat 8, 8), (paths + UInt64.ofNat 0, 4),
        (paths + UInt64.ofNat 48, 24 * (pathsFuncs m paths).toNat),
        (paths + UInt64.ofNat 24, 8), (paths + UInt64.ofNat 16, 4),
        (paths + UInt64.ofNat (48 + 24 * (pathsFuncs m paths).toNat), 8 * (pathsAts m paths).toNat),
        (paths + UInt64.ofNat 40, 8), (paths + UInt64.ofNat 32, 4),
        (paths + UInt64.ofNat (mapsStart paths m), 24 * (pathsStateMaps m paths).toNat)] } := by
  have start : paths = paths + UInt64.ofNat 0 := (UInt64.add_zero paths).symm
  have funcs : (m.load32 (paths + UInt64.ofNat 0)).toNat = (pathsFuncs m paths).toNat := by
    rw [← start]
    rfl
  have ats {v : UInt64} : ((m.store64 (paths + UInt64.ofNat 8) v).load32
      (paths + UInt64.ofNat 16)).toNat = (pathsAts m paths).toNat := by
    rw [Memory.load32_store64_of_apart (by omega) (by omega) (by omega)]
    rfl
  have stateMaps {v w : UInt64} : (((m.store64 (paths + UInt64.ofNat 8) v).store64
      (paths + UInt64.ofNat 24) w).load32 (paths + UInt64.ofNat 32)).toNat =
      (pathsStateMaps m paths).toNat := by
    rw [Memory.load32_store64_of_apart (by omega) (by omega) (by omega),
      Memory.load32_store64_of_apart (by omega) (by omega) (by omega)]
    rfl
  rw [linkHeader, LinkRun.layOut_eq (c := 0) (fun _ => start) (by omega) (by omega) (by omega) funcs,
    LinkRun.layOut_eq (c := 16) (fun _ => rfl) (by omega) (by omega) (by omega) ats,
    LinkRun.layOut_eq (c := 32) (fun _ => rfl) (by omega) (by omega) (by omega) stateMaps,
    statesStart_zero]
  rfl

/-- The header is inside, and the blocks behind it one after the other. -/
theorem inside_linkHeader {size : Nat} (bound : size < 2 ^ 64) :
    Inside paths size (linkHeader paths m).touched ↔ statesStart paths m 0 ≤ size := by
  have total : statesStart paths m 0 = _ := statesStart_zero
  have maps : mapsStart paths m =
    48 + 24 * (pathsFuncs m paths).toNat + 8 * (pathsAts m paths).toNat := rfl
  rw [linkHeader_eq]
  simp only [Inside, List.forall_mem_cons]
  constructor
  · rintro ⟨-, -, funcs, -, -, ats, last, -, stateMaps, -⟩
    have header : 48 ≤ size := end_le_of_subset last (by omega) (by omega)
    rw [region_offset_subset_iff header bound] at funcs
    have funcsEnd : 48 + 24 * (pathsFuncs m paths).toNat ≤ size := by omega
    rw [region_offset_subset_iff funcsEnd bound] at ats
    have atsEnd : mapsStart paths m ≤ size := by omega
    rw [region_offset_subset_iff atsEnd bound] at stateMaps
    omega
  · intro fits
    refine ⟨?_, ?_, ?_, ?_, ?_, ?_, ?_, ?_, ?_, List.forall_mem_nil _⟩
    all_goals
      apply region_offset_subset
      omega

/-! ## The loop -/

/-- The run before the round `i` of the loop. -/
structure LinkingAt (paths : UInt64) (m : Memory) (size i : Nat) (s : LinkRun) : Prop where
  stateMaps : pathsStateMaps s.mem paths = pathsStateMaps m paths
  stateMap : pathsStateMap s.mem paths = paths + UInt64.ofNat (mapsStart paths m)
  states : ∀ j < (pathsStateMaps m paths).toNat,
    mapStates s.mem (entryAt paths m j) = mapStates m (entryAt paths m j)
  next : s.p = paths + UInt64.ofNat (statesStart paths m i)
  inside : Inside paths size s.touched ↔ statesStart paths m i ≤ size

theorem entryAt_add (i k : Nat) : entryAt paths m i + UInt64.ofNat k =
    paths + UInt64.ofNat (mapsStart paths m + 24 * i + k) := by
  rw [entryAt, offset_offset]

theorem mapEntry_eq_entryAt {m' : Memory}
    (linked : pathsStateMap m' paths = paths + UInt64.ofNat (mapsStart paths m)) (i : Nat) :
    mapEntry m' paths i = entryAt paths m i := by
  rw [mapEntry, linked, offset_offset, entryAt]

theorem linkingAt_linkHeader {size : Nat} (bound : size < 2 ^ 64)
    (fits : statesStart paths m 0 ≤ size) : LinkingAt paths m size 0 (linkHeader paths m) := by
  have inside : Inside paths size (linkHeader paths m).touched ↔ _ := inside_linkHeader bound
  have total : statesStart paths m 0 = _ := statesStart_zero
  have maps : 48 ≤ mapsStart paths m := le_mapsStart
  have kept {k : Nat} (apart : 48 ≤ k ∨ k = 32) (below : k + 4 ≤ 2 ^ 64) :
      (headerStored paths m).load32 (paths + UInt64.ofNat k) = m.load32 (paths + UInt64.ofNat k) := by
    unfold headerStored
    rw [Memory.load32_store64_of_apart below (by omega) (by omega),
      Memory.load32_store64_of_apart below (by omega) (by omega),
      Memory.load32_store64_of_apart below (by omega) (by omega)]
  rw [linkHeader_eq] at inside ⊢
  constructor
  · exact kept (k := 32) (.inr rfl) (by omega)
  · exact Memory.load64_store64 _ _ _
  · intro j below
    rw [mapStates, mapStates, entryAt_add]
    exact kept (.inl (by omega)) (by omega)
  · rfl
  · exact inside

theorem linkEntry_eq {size i : Nat} {s : LinkRun} (at_i : LinkingAt paths m size i s)
    (small : statesStart paths m 0 < 2 ^ 64) (below : i < (pathsStateMaps m paths).toNat) :
    linkEntry paths i s =
      { mem := s.mem.store64 (paths + UInt64.ofNat (mapsStart paths m + 24 * i + 16)) s.p
        p := paths + UInt64.ofNat (statesStart paths m (i + 1))
        touched := s.touched ++ [(paths + UInt64.ofNat 32, 4), (paths + UInt64.ofNat 40, 8),
          (paths + UInt64.ofNat (mapsStart paths m + 24 * i + 16), 8),
          (paths + UInt64.ofNat (mapsStart paths m + 24 * i + 8), 4),
          (paths + UInt64.ofNat (statesStart paths m i),
            272 * (mapStates m (entryAt paths m i)).toNat), (paths + UInt64.ofNat 40, 8)] } := by
  obtain ⟨mem, p, touched⟩ := s
  obtain ⟨stateMaps, stateMap, states, next, -⟩ := at_i
  have total : statesStart paths m 0 = _ := statesStart_zero
  have maps : 48 ≤ mapsStart paths m := le_mapsStart
  have slot : mapEntry mem paths i + UInt64.ofNat 16 =
      paths + UInt64.ofNat (mapsStart paths m + 24 * i + 16) := by
    rw [mapEntry_eq_entryAt stateMap, entryAt_add]
  have counted (v : UInt64) :
      mapEntry (mem.store64 (paths + UInt64.ofNat (mapsStart paths m + 24 * i + 16)) v) paths i +
        UInt64.ofNat 8 = paths + UInt64.ofNat (mapsStart paths m + 24 * i + 8) := by
    have kept := Memory.load64_store64_of_apart (m := mem) (a := paths) (v := v) (k := 40)
      (n := mapsStart paths m + 24 * i + 16) (by omega) (by omega) (by omega)
    rw [mapEntry_eq_entryAt (kept.trans stateMap), entryAt_add]
  have loaded : (mem.load32 (paths + UInt64.ofNat (mapsStart paths m + 24 * i + 8))).toNat =
      (mapStates m (entryAt paths m i)).toNat := by
    rw [← entryAt_add, ← states i below]
    rfl
  rw [linkEntry, slot, show p = _ from next]
  simp only [LinkRun.read, List.append_assoc, List.cons_append, List.nil_append, statesStart_succ]
  rw [LinkRun.layOut_eq counted (by omega) (by omega) (by omega) loaded]
  simp only [List.append_assoc, List.cons_append, List.nil_append]

theorem LinkingAt.step {size i : Nat} {s : LinkRun} (at_i : LinkingAt paths m size i s)
    (bound : size < 2 ^ 64) (fits : statesStart paths m 0 ≤ size)
    (below : i < (pathsStateMaps m paths).toNat) :
    LinkingAt paths m size (i + 1) (linkEntry paths i s) := by
  have total : statesStart paths m 0 = _ := statesStart_zero
  have maps : 48 ≤ mapsStart paths m := le_mapsStart
  have succ : statesStart paths m (i + 1) = _ := statesStart_succ i
  obtain ⟨slot, isSlot⟩ : ∃ slot, slot = mapsStart paths m + 24 * i + 16 := ⟨_, rfl⟩
  have kept {k : Nat} (apart : k + 4 ≤ slot ∨ slot + 8 ≤ k) (inside : k + 4 ≤ 2 ^ 64) :
      (s.mem.store64 (paths + UInt64.ofNat slot) s.p).load32 (paths + UInt64.ofNat k) =
        s.mem.load32 (paths + UInt64.ofNat k) :=
    Memory.load32_store64_of_apart inside (by omega) apart
  have count : pathsStateMaps (s.mem.store64 (paths + UInt64.ofNat slot) s.p) paths =
      pathsStateMaps s.mem paths := kept (by omega) (by omega)
  have kept' : pathsStateMap (s.mem.store64 (paths + UInt64.ofNat slot) s.p) paths =
      pathsStateMap s.mem paths :=
    Memory.load64_store64_of_apart (by omega) (by omega) (by omega)
  rw [linkEntry_eq at_i (by omega) below, ← isSlot]
  constructor
  · exact count.trans at_i.stateMaps
  · exact kept'.trans at_i.stateMap
  · intro j below'
    have same := kept (k := mapsStart paths m + 24 * j + 8) (by omega) (by omega)
    rw [← entryAt_add] at same
    exact same.trans (at_i.states j below')
  · rfl
  · rw [inside_append, at_i.inside]
    simp only [Inside, List.forall_mem_cons]
    constructor
    · rintro ⟨before, -, -, -, -, states, -⟩
      rw [region_offset_subset_iff before bound] at states
      omega
    · intro fits'
      refine ⟨by omega, ?_, ?_, ?_, ?_, ?_, ?_, List.forall_mem_nil _⟩
      all_goals
        apply region_offset_subset
        omega

theorem forInt_eq_none {σ : Type} {count : σ → Nat} {body : Nat → σ → σ} {I : Nat → σ → Prop} {n : Nat}
    (counted : ∀ i s, I i s → count s = n) (step : ∀ i s, i < n → I i s → I (i + 1) (body i s))
    {fuel i : Nat} {s : σ} (start : I i s) (many : i + fuel < n) :
    forInt count body fuel i s = none := by
  induction fuel generalizing i s with
  | zero => exact if_pos (by rw [counted i s start]; omega)
  | succ fuel ih =>
      rw [forInt, counted i s start, if_pos (by omega)]
      exact ih (step i s (by omega) start) (by omega)

theorem forInt_keeps {σ : Type} {count : σ → Nat} {body : Nat → σ → σ} {P : σ → Prop}
    (step : ∀ i s, P s → P (body i s)) {fuel i : Nat} {s s' : σ} (start : P s)
    (looped : forInt count body fuel i s = some s') : P s' := by
  induction fuel generalizing i s with
  | zero =>
      rw [forInt] at looped
      split_ifs at looped
      exact Option.some.inj looped ▸ start
  | succ fuel ih =>
      rw [forInt] at looped
      split_ifs at looped
      · exact ih (step i s start) looped
      · exact Option.some.inj looped ▸ start

/-! ## Linking -/

/-- Linking comes back, and all that it reads, writes or sets a pointer to is in the buffer. -/
def StaysInside (m : Memory) (paths : UInt64) (size : Nat) : Prop :=
  ∃ run, linkRun paths m = some run ∧ Inside paths size run.touched

/-- The counts call for no more than there is, and those of the maps are in range of an `int`. -/
def CountsFit (m : Memory) (paths : UInt64) (size : Nat) : Prop :=
  (pathsStateMaps m paths).toNat ≤ intMax ∧ layoutEnd paths m ≤ size

theorem inside_of_linkRun {size : Nat} {run : LinkRun} (linked : linkRun paths m = some run)
    (inside : Inside paths size run.touched) : Inside paths size (linkHeader paths m).touched := by
  obtain ⟨s, looped, rfl⟩ := Option.map_eq_some_iff.mp linked
  by_contra outside
  have kept : ¬ Inside paths size s.touched := by
    refine forInt_keeps (P := fun s => ¬ Inside paths size s.touched) ?_ outside looped
    intro i s outside inside
    simp only [linkEntry, LinkRun.layOut, LinkRun.read, List.append_assoc] at inside
    exact outside (inside_append.mp inside).1
  exact kept (inside_append.mp inside).1

theorem staysInside_iff {size : Nat} (bound : size < 2 ^ 64) :
    StaysInside m paths size ↔ CountsFit m paths size := by
  have mono : statesStart paths m 0 ≤ layoutEnd paths m := statesStart_mono (Nat.zero_le _)
  rcases Nat.lt_or_ge size (statesStart paths m 0) with tooSmall | fits
  · constructor
    · rintro ⟨run, linked, inside⟩
      have := (inside_linkHeader bound).mp (inside_of_linkRun linked inside)
      omega
    · rintro ⟨-, fits⟩
      omega
  · have start := linkingAt_linkHeader bound fits
    have counted (i : Nat) (s : LinkRun) (at_i : LinkingAt paths m size i s) :
        (pathsStateMaps s.mem paths).toNat = (pathsStateMaps m paths).toNat := by
      rw [at_i.stateMaps]
    have step (i : Nat) (s : LinkRun) (below : i < (pathsStateMaps m paths).toNat)
        (at_i : LinkingAt paths m size i s) : LinkingAt paths m size (i + 1) (linkEntry paths i s) :=
      at_i.step bound fits below
    rcases Nat.lt_or_ge intMax (pathsStateMaps m paths).toNat with many | few
    · have stuck : linkRun paths m = none := by
        rw [linkRun, forInt_eq_none counted step start (by omega)]
        rfl
      constructor
      · rintro ⟨run, linked, -⟩
        rw [stuck] at linked
        cases linked
      · rintro ⟨few, -⟩
        omega
    · obtain ⟨s, looped, done⟩ := forInt_rule counted step start (Nat.zero_le _) (by omega)
      have linked : linkRun paths m = some (s.read paths 32 4) := by
        rw [linkRun, looped]
        rfl
      have inside : Inside paths size (s.read paths 32 4).touched ↔ layoutEnd paths m ≤ size := by
        rw [LinkRun.read, inside_append, done.inside]
        refine and_iff_left_of_imp fun fits block member => ?_
        rw [List.mem_singleton.mp member]
        apply region_offset_subset
        rw [statesStart_zero, mapsStart] at mono
        unfold layoutEnd at mono
        omega
      constructor
      · rintro ⟨run, linked', inside'⟩
        rw [linked] at linked'
        cases linked'
        exact ⟨few, inside.mp inside'⟩
      · rintro ⟨-, fits'⟩
        exact ⟨_, linked, inside.mpr fits'⟩

def ReadCalls.Succeed (calls : ReadCalls) (file : List UInt8) : Prop :=
  calls.fopen ∧ calls.seekEnd ∧ file.length < 2 ^ 63 ∧ calls.seekSet ∧ calls.fread ∧ calls.fclose

theorem readPaths_rejects_iff {calls : ReadCalls} {file : List UInt8} :
    (∃ m', readPaths calls (fun _ => some paths) file m = some (m', none)) ↔
      ¬ calls.Succeed file := by
  obtain ⟨fopen, seekEnd, seekSet, fread, fclose⟩ := calls
  unfold readPaths ReadCalls.Succeed
  generalize 2 ^ 63 = limit
  rcases Nat.lt_or_ge file.length limit with short | long
  · cases fopen <;> cases seekEnd <;> cases seekSet <;> cases fread <;> cases fclose <;>
      simp [short, not_le.mpr short, Option.bind_eq_some_iff]
  · simp [long, not_lt.mpr long]

theorem copyPaths_rejects_iff {calls : CopyCalls} {user : Memory} {source size : UInt64} :
    copyPaths calls (fun _ => some paths) user source size m = some none ↔
      ¬ (calls.copyStruct ∧ source ≠ 0 ∧ calls.copyPaths) := by
  obtain ⟨copyStruct, copyPaths⟩ := calls
  unfold StateFile.copyPaths
  cases copyStruct <;> cases copyPaths <;> simp

/-- Whether a buffer is linked depends only on the system calls before, and linking stays inside
it exactly if its counts fit. -/
theorem link_inside_iff (m : Memory) (paths : UInt64) :
    (∀ calls file,
      (∃ m', readPaths calls (fun _ => some paths) file m = some (m', none)) ∨
        StaysInside (m.write paths file) paths file.length ↔
      (calls.Succeed file → CountsFit (m.write paths file) paths file.length)) ∧
    ∀ calls user source size,
      copyPaths calls (fun _ => some paths) user source size m = some none ∨
        StaysInside (m.write paths (user.read source size.toNat)) paths size.toNat ↔
      (calls.copyStruct ∧ source ≠ 0 ∧ calls.copyPaths →
        CountsFit (m.write paths (user.read source size.toNat)) paths size.toNat) := by
  constructor
  · intro calls file
    rw [readPaths_rejects_iff, ← imp_iff_not_or]
    refine imp_congr_right fun succeed => staysInside_iff ?_
    have := succeed.2.2.1
    omega
  · intro calls user source size
    rw [copyPaths_rejects_iff, ← imp_iff_not_or, staysInside_iff size.toNat_lt]

/-- A header with one map and nothing behind it: its entry is read and written outside. -/
theorem link_leaves_buffer :
    let file := List.replicate 32 0 ++ [1] ++ List.replicate 15 0
    file.length = 48 ∧
      (∀ m', readPaths ⟨true, true, true, true, true⟩ (fun _ => some 4096) file (fun _ => 0) ≠
        some (m', none)) ∧
      ¬ StaysInside (Memory.write (fun _ => 0) 4096 file) 4096 48 := by
  refine ⟨rfl, ?_, ?_⟩
  · intro m' rejected
    refine readPaths_rejects_iff.mp ⟨m', rejected⟩ ?_
    simp [ReadCalls.Succeed]
  · rw [staysInside_iff (by omega)]
    rintro ⟨-, fits⟩
    revert fits
    decide +kernel

end PathArmor.StateFile

import PathArmor.StateFile

/-!
# The round trip through the state file

Packing, measuring and linking walk over the blocks of a value on their own. What they have in
common is the order of the blocks in the file: a value is laid out there whatever the pointers in
between are, and linking sets the pointers.
-/

namespace PathArmor.StateFile
open Library

theorem forInt_rule {σ : Type} {count : σ → Nat} {body : Nat → σ → σ} {I : Nat → σ → Prop} {n : Nat}
    (counted : ∀ i s, I i s → count s = n) (step : ∀ i s, i < n → I i s → I (i + 1) (body i s))
    {fuel i : Nat} {s : σ} (start : I i s) (below : i ≤ n) (enough : n - i ≤ fuel) :
    ∃ s', forInt count body fuel i s = some s' ∧ I n s' := by
  induction fuel generalizing i s with
  | zero =>
      obtain rfl : i = n := by omega
      exact ⟨s, if_neg (by rw [counted i s start]; omega), start⟩
  | succ fuel ih =>
      rw [forInt, counted i s start]
      split_ifs with more
      · exact ih (step i s more start) more (by omega)
      · obtain rfl : i = n := by omega
        exact ⟨s, rfl, start⟩

namespace LbrPaths
variable (v : LbrPaths)

def atsOffset : Nat := 48 + 24 * v.func.length

def mapsOffset : Nat := v.atsOffset + 8 * v.addressTaken.length

def stateCount (i : Nat) : Nat := ((v.stateMap.take i).map fun entry => entry.state.length).sum

def stateOffset (i : Nat) : Nat :=
  v.mapsOffset + 24 * v.stateMap.length + 272 * v.stateCount i

def size : Nat := v.stateOffset v.stateMap.length

/-- The byte belongs to one of the pointers. -/
def InPointer (k : Nat) : Prop :=
  (8 ≤ k ∧ k < 16) ∨ (24 ≤ k ∧ k < 32) ∨ (40 ≤ k ∧ k < 48) ∨
    ∃ i < v.stateMap.length, v.mapsOffset + 24 * i + 16 ≤ k ∧ k < v.mapsOffset + 24 * i + 24

/-- The value as a file has it, from `q` on. -/
structure LaidOut (m : Memory) (q : UInt64) : Prop where
  funcs : (pathsFuncs m q).toNat = v.func.length
  ats : (pathsAts m q).toNat = v.addressTaken.length
  stateMaps : (pathsStateMaps m q).toNat = v.stateMap.length
  func : ∀ i f, v.func[i]? = some f → functionAt m (q + UInt64.ofNat (48 + 24 * i)) = f
  addressTaken : ∀ i word, v.addressTaken[i]? = some word →
    m.load64 (q + UInt64.ofNat (v.atsOffset + 8 * i)) = word
  target : ∀ i entry, v.stateMap[i]? = some entry →
    mapTo m (q + UInt64.ofNat (v.mapsOffset + 24 * i)) = entry.toAddr
  states : ∀ i entry, v.stateMap[i]? = some entry →
    (mapStates m (q + UInt64.ofNat (v.mapsOffset + 24 * i))).toNat = entry.state.length
  state : ∀ i entry j s, v.stateMap[i]? = some entry → entry.state[j]? = some s →
    stateAt m (q + UInt64.ofNat (v.stateOffset i + 272 * j)) = s

variable {v} {m m' : Memory} {q q' a a' : UInt64} {i j : Nat}

theorem stateOffset_zero : v.stateOffset 0 = v.mapsOffset + 24 * v.stateMap.length := by
  simp [stateOffset, stateCount]

theorem stateCount_succ {entry : LbrValidStateMap} (atI : v.stateMap[i]? = some entry) :
    v.stateCount (i + 1) = v.stateCount i + entry.state.length := by
  unfold stateCount
  rw [List.take_add_one, atI]
  simp

theorem stateOffset_succ {entry : LbrValidStateMap} (atI : v.stateMap[i]? = some entry) :
    v.stateOffset (i + 1) = v.stateOffset i + 272 * entry.state.length := by
  rw [stateOffset, stateOffset, stateCount_succ atI, Nat.mul_add, ← Nat.add_assoc]

theorem stateCount_mono (le : i ≤ j) : v.stateCount i ≤ v.stateCount j := by
  obtain ⟨n, rfl⟩ := Nat.exists_eq_add_of_le le
  unfold stateCount
  rw [List.take_add, List.map_append, List.sum_append]
  exact Nat.le_add_right _ _

theorem stateEnd_le {entry : LbrValidStateMap} (atI : v.stateMap[i]? = some entry) :
    v.stateOffset i + 272 * entry.state.length ≤ v.size := by
  have inside : i + 1 ≤ v.stateMap.length := (List.getElem?_eq_some_iff.mp atI).1
  have more := stateCount_mono (v := v) inside
  rw [stateCount_succ atI] at more
  unfold size stateOffset
  omega

variable (v) in
theorem mapsEnd_le : v.mapsOffset + 24 * v.stateMap.length ≤ v.size := by
  unfold size stateOffset
  omega

variable (v) in
theorem headerEnd_le : 48 ≤ v.mapsOffset := by
  unfold mapsOffset atsOffset
  omega

theorem functionAt_congr
    (same : ∀ k < 24, m (a + UInt64.ofNat k) = m' (a' + UInt64.ofNat k)) :
    functionAt m a = functionAt m' a' := by
  have fptr : m.load64 a = m'.load64 a' := Memory.load64_congr fun k _ => same k (by omega)
  have fname : m.read (a + UInt64.ofNat 8) 16 = m'.read (a' + UInt64.ofNat 8) 16 := by
    apply Memory.read_congr
    intro k below
    have shifted := same (8 + k) (by omega)
    rwa [← offset_offset, ← offset_offset] at shifted
  rw [functionAt, functionAt, fptr, fname]

theorem stateAt_congr
    (same : ∀ k < 272, m (a + UInt64.ofNat k) = m' (a' + UInt64.ofNat k)) :
    stateAt m a = stateAt m' a' := by
  have word : ∀ n, n + 8 ≤ 272 →
      m.load64 (a + UInt64.ofNat n) = m'.load64 (a' + UInt64.ofNat n) := by
    intro n inside
    apply Memory.load64_congr
    intro k below
    rw [offset_offset, offset_offset]
    exact same (n + k) (by omega)
  have hash : m.read (a + UInt64.ofNat 256) 16 = m'.read (a' + UInt64.ofNat 256) 16 := by
    apply Memory.read_congr
    intro k below
    have shifted := same (256 + k) (by omega)
    rwa [← offset_offset, ← offset_offset] at shifted
  have fromAddr : ∀ k : Fin lbrEntries, m.load64 (a + UInt64.ofNat (8 * k.val)) =
      m'.load64 (a' + UInt64.ofNat (8 * k.val)) := fun k =>
    word _ (by have := k.isLt; unfold lbrEntries at this; omega)
  have toAddr : ∀ k : Fin lbrEntries, m.load64 (a + UInt64.ofNat (128 + 8 * k.val)) =
      m'.load64 (a' + UInt64.ofNat (128 + 8 * k.val)) := fun k =>
    word _ (by have := k.isLt; unfold lbrEntries at this; omega)
  simp only [stateAt, hash, fromAddr, toAddr]

/-- The pointers do not matter. -/
theorem LaidOut.of_same (laidOut : v.LaidOut m q)
    (same : ∀ k < v.size, ¬ v.InPointer k → m' (q' + UInt64.ofNat k) = m (q + UInt64.ofNat k)) :
    v.LaidOut m' q' := by
  have mapsEnd := v.mapsEnd_le
  have atsEnd : v.atsOffset + 8 * v.addressTaken.length = v.mapsOffset := rfl
  have funcsEnd : 48 + 24 * v.func.length = v.atsOffset := rfl
  have bytes : ∀ n len, n + len ≤ v.size → (∀ k < len, ¬ v.InPointer (n + k)) → ∀ k < len,
      m' (q' + UInt64.ofNat n + UInt64.ofNat k) = m (q + UInt64.ofNat n + UInt64.ofNat k) := by
    intro n len inside outside k below
    rw [offset_offset, offset_offset]
    exact same (n + k) (by omega) (outside k below)
  constructor
  · have header : pathsFuncs m' q' = pathsFuncs m q := by
      apply Memory.load32_congr
      intro k below
      apply same k (by omega)
      unfold InPointer
      omega
    rw [header, laidOut.funcs]
  · have header : pathsAts m' q' = pathsAts m q := by
      apply Memory.load32_congr
      apply bytes 16 4 (by omega)
      unfold InPointer
      omega
    rw [header, laidOut.ats]
  · have header : pathsStateMaps m' q' = pathsStateMaps m q := by
      apply Memory.load32_congr
      apply bytes 32 4 (by omega)
      unfold InPointer
      omega
    rw [header, laidOut.stateMaps]
  · intro i f atI
    have inside := (List.getElem?_eq_some_iff.mp atI).1
    rw [← laidOut.func i f atI]
    apply functionAt_congr
    apply bytes _ 24 (by omega)
    unfold InPointer
    omega
  · intro i word atI
    have inside := (List.getElem?_eq_some_iff.mp atI).1
    rw [← laidOut.addressTaken i word atI]
    apply Memory.load64_congr
    apply bytes _ 8 (by omega)
    unfold InPointer
    omega
  · intro i entry atI
    have inside := (List.getElem?_eq_some_iff.mp atI).1
    rw [← laidOut.target i entry atI]
    apply Memory.load64_congr
    apply bytes _ 8 (by omega)
    unfold InPointer
    omega
  · intro i entry atI
    have inside := (List.getElem?_eq_some_iff.mp atI).1
    have count : mapStates m' (q' + UInt64.ofNat (v.mapsOffset + 24 * i)) =
        mapStates m (q + UInt64.ofNat (v.mapsOffset + 24 * i)) := by
      unfold mapStates
      rw [offset_offset, offset_offset]
      apply Memory.load32_congr
      apply bytes _ 4 (by omega)
      unfold InPointer
      omega
    rw [count, laidOut.states i entry atI]
  · intro i entry j s atI atJ
    have inside := (List.getElem?_eq_some_iff.mp atJ).1
    have ends := stateEnd_le atI
    have starts : v.mapsOffset + 24 * v.stateMap.length ≤ v.stateOffset i := by
      unfold stateOffset
      omega
    rw [← laidOut.state i entry j s atI atJ]
    apply stateAt_congr
    apply bytes _ 272 (by omega)
    unfold InPointer
    omega

/-- Another copy of the bytes is laid out as well. -/
theorem LaidOut.write_read (laidOut : v.LaidOut m q) (fits : v.size ≤ 2 ^ 64) (m' : Memory)
    (q' : UInt64) : v.LaidOut (m'.write q' (m.read q v.size)) q' := by
  apply laidOut.of_same
  intro k below _
  rw [Memory.write_apply (by omega) (by rwa [Memory.length_read])]
  simp [Memory.read, region]

variable (v) in
/-- The pointers lead to the blocks of the layout. -/
structure Linked (m : Memory) (q : UInt64) : Prop where
  func : pathsFunc m q = q + UInt64.ofNat 48
  addressTaken : pathsAddressTaken m q = q + UInt64.ofNat v.atsOffset
  stateMap : pathsStateMap m q = q + UInt64.ofNat v.mapsOffset
  state : ∀ i < v.stateMap.length,
    mapState m (q + UInt64.ofNat (v.mapsOffset + 24 * i)) = q + UInt64.ofNat (v.stateOffset i)

theorem LaidOut.store (laidOut : v.LaidOut m q) (fits : v.size ≤ 2 ^ 64) {k : Nat} {x : UInt64}
    (inside : k + 8 ≤ v.size) (pointer : ∀ j < 8, v.InPointer (k + j)) :
    v.LaidOut (m.store64 (q + UInt64.ofNat k) x) q := by
  apply laidOut.of_same
  intro n below notPointer
  apply Memory.store64_of_notMem
  apply offset_notMem (by omega) (by omega)
  by_contra within
  obtain ⟨j, rfl⟩ : ∃ j, n = k + j := ⟨n - k, by omega⟩
  exact notPointer (pointer j (by omega))

theorem LaidOut.store_header (laidOut : v.LaidOut m q) (fits : v.size ≤ 2 ^ 64) {k : Nat}
    (pointer : k = 8 ∨ k = 24 ∨ k = 40) (x : UInt64) :
    v.LaidOut (m.store64 (q + UInt64.ofNat k) x) q := by
  have mapsEnd := v.mapsEnd_le
  have headerEnd := v.headerEnd_le
  apply laidOut.store fits (by omega)
  unfold InPointer
  omega

theorem scaled (x : UInt32) (n : Nat) :
    x.toUInt64 * UInt64.ofNat n = UInt64.ofNat (n * x.toNat) := by
  rw [← UInt64.ofNat_uInt32ToNat, ← UInt64.ofNat_mul, Nat.mul_comm]

theorem mapEntry_eq (linked : pathsStateMap m q = q + UInt64.ofNat v.mapsOffset) (i : Nat) :
    mapEntry m q i = q + UInt64.ofNat (v.mapsOffset + 24 * i) := by
  rw [mapEntry, linked, offset_offset]

/-- The state before the round `i` of the loop in `lbr_link_paths`. -/
structure Linking (v : LbrPaths) (before : Memory) (q : UInt64) (i : Nat) (s : Memory × UInt64) :
    Prop where
  laidOut : v.LaidOut s.1 q
  func : pathsFunc s.1 q = q + UInt64.ofNat 48
  addressTaken : pathsAddressTaken s.1 q = q + UInt64.ofNat v.atsOffset
  stateMap : pathsStateMap s.1 q = q + UInt64.ofNat v.mapsOffset
  next : s.2 = q + UInt64.ofNat (v.stateOffset i)
  state : ∀ j < i, mapState s.1 (q + UInt64.ofNat (v.mapsOffset + 24 * j)) =
    q + UInt64.ofNat (v.stateOffset j)
  frame : ∀ x ∉ region q v.size, s.1 x = before x

theorem store_frame {k : Nat} {x y : UInt64} (inside : k + 8 ≤ v.size) (outside : x ∉ region q v.size) :
    m.store64 (q + UInt64.ofNat k) y x = m x := by
  apply Memory.store64_of_notMem
  intro member
  obtain ⟨j, below, rfl⟩ := mem_region.mp member
  apply outside
  rw [offset_offset]
  exact mem_region.mpr ⟨k + j, by omega, rfl⟩

theorem Linking.step {before : Memory} {s : Memory × UInt64} (linking : Linking v before q i s)
    (fits : v.size ≤ 2 ^ 64) (below : i < v.stateMap.length) :
    Linking v before q (i + 1) (linkMap q i s) := by
  obtain ⟨m, p⟩ := s
  have mapsEnd := v.mapsEnd_le
  have headerEnd := v.headerEnd_le
  have inside : v.mapsOffset + 24 * i + 16 + 8 ≤ v.size := by omega
  have slot : mapEntry m q i + UInt64.ofNat 16 = q + UInt64.ofNat (v.mapsOffset + 24 * i + 16) := by
    rw [mapEntry_eq linking.stateMap, offset_offset]
  have pointer : ∀ j < 8, v.InPointer (v.mapsOffset + 24 * i + 16 + j) := by
    intro j below'
    exact .inr (.inr (.inr ⟨i, below, by omega, by omega⟩))
  obtain ⟨stored, isStored⟩ : ∃ stored,
      stored = m.store64 (q + UInt64.ofNat (v.mapsOffset + 24 * i + 16)) p := ⟨_, rfl⟩
  have round : linkMap q i (m, p) =
      (stored, p + (mapStates stored (mapEntry stored q i)).toUInt64 * UInt64.ofNat 272) := by
    rw [isStored, ← slot]
    rfl
  have laidOut : v.LaidOut stored q := isStored ▸ linking.laidOut.store fits inside pointer
  have elsewhere : ∀ n, n + 8 ≤ v.mapsOffset + 24 * i + 16 →
      stored.load64 (q + UInt64.ofNat n) = m.load64 (q + UInt64.ofNat n) := by
    intro n apart
    rw [isStored]
    exact Memory.load64_store64_of_apart (by omega) (by omega) (.inl apart)
  have stateMap : pathsStateMap stored q = q + UInt64.ofNat v.mapsOffset :=
    (elsewhere 40 (by omega)).trans linking.stateMap
  rw [round]
  constructor
  · exact laidOut
  · exact (elsewhere 8 (by omega)).trans linking.func
  · exact (elsewhere 24 (by omega)).trans linking.addressTaken
  · exact stateMap
  · obtain ⟨entry, atI⟩ : ∃ entry, v.stateMap[i]? = some entry :=
      ⟨_, List.getElem?_eq_getElem below⟩
    have count := laidOut.states i entry atI
    rw [← mapEntry_eq stateMap] at count
    have step := scaled (mapStates stored (mapEntry stored q i)) 272
    rw [step, count, show p = _ from linking.next, offset_offset, stateOffset_succ atI]
  · intro j earlier
    rcases Nat.lt_or_eq_of_le (Nat.le_of_lt_succ earlier) with before' | rfl
    · have kept := elsewhere (v.mapsOffset + 24 * j + 16) (by omega)
      rw [← offset_offset q _ 16] at kept
      exact kept.trans (linking.state j before')
    · have written := Memory.load64_store64 m (q + UInt64.ofNat (v.mapsOffset + 24 * j + 16)) p
      rw [← isStored, ← offset_offset q _ 16] at written
      exact written.trans linking.next
  · intro x outside
    change stored x = before x
    rw [isStored, store_frame inside outside]
    exact linking.frame x outside

/-- Linking a value that is laid out sets its pointers and changes nothing outside. -/
theorem LaidOut.link (laidOut : v.LaidOut m q) (fits : v.size ≤ 2 ^ 64)
    (few : v.stateMap.length ≤ intMax) :
    ∃ m', lbrLinkPaths m q = some m' ∧ v.LaidOut m' q ∧ v.Linked m' q ∧
      ∀ x ∉ region q v.size, m' x = m x := by
  have headerEnd := v.headerEnd_le
  have mapsEnd := v.mapsEnd_le
  obtain ⟨m₁, isM₁⟩ : ∃ m₁, m₁ = m.store64 (q + UInt64.ofNat 8) (q + UInt64.ofNat 48) := ⟨_, rfl⟩
  obtain ⟨m₂, isM₂⟩ : ∃ m₂, m₂ = m₁.store64 (q + UInt64.ofNat 24) (q + UInt64.ofNat v.atsOffset) :=
    ⟨_, rfl⟩
  obtain ⟨m₃, isM₃⟩ : ∃ m₃, m₃ = m₂.store64 (q + UInt64.ofNat 40) (q + UInt64.ofNat v.mapsOffset) :=
    ⟨_, rfl⟩
  have laidOut₁ : v.LaidOut m₁ q := isM₁ ▸ laidOut.store_header fits (by omega) _
  have laidOut₂ : v.LaidOut m₂ q := isM₂ ▸ laidOut₁.store_header fits (by omega) _
  have laidOut₃ : v.LaidOut m₃ q := isM₃ ▸ laidOut₂.store_header fits (by omega) _
  have p₁ : q + UInt64.ofNat 48 + (pathsFuncs m₁ q).toUInt64 * UInt64.ofNat 24 =
      q + UInt64.ofNat v.atsOffset := by
    rw [scaled, laidOut₁.funcs, offset_offset, atsOffset]
  have p₂ : q + UInt64.ofNat v.atsOffset + (pathsAts m₂ q).toUInt64 * UInt64.ofNat 8 =
      q + UInt64.ofNat v.mapsOffset := by
    rw [scaled, laidOut₂.ats, offset_offset, mapsOffset]
  have p₃ : q + UInt64.ofNat v.mapsOffset + (pathsStateMaps m₃ q).toUInt64 * UInt64.ofNat 24 =
      q + UInt64.ofNat (v.stateOffset 0) := by
    rw [scaled, laidOut₃.stateMaps, offset_offset, stateOffset_zero]
  have start : Linking v m q 0 (m₃, q + UInt64.ofNat (v.stateOffset 0)) := by
    constructor
    · exact laidOut₃
    · change m₃.load64 (q + UInt64.ofNat 8) = _
      rw [isM₃, Memory.load64_store64_of_apart (by omega) (by omega) (by omega), isM₂,
        Memory.load64_store64_of_apart (by omega) (by omega) (by omega), isM₁, Memory.load64_store64]
    · change m₃.load64 (q + UInt64.ofNat 24) = _
      rw [isM₃, Memory.load64_store64_of_apart (by omega) (by omega) (by omega), isM₂,
        Memory.load64_store64]
    · change m₃.load64 (q + UInt64.ofNat 40) = _
      rw [isM₃, Memory.load64_store64]
    · rfl
    · exact fun j below => absurd below (Nat.not_lt_zero j)
    · intro x outside
      change m₃ x = m x
      rw [isM₃, isM₂, isM₁, store_frame (by omega) outside, store_frame (by omega) outside,
        store_frame (by omega) outside]
  obtain ⟨⟨m', p⟩, looped, linking⟩ := forInt_rule (fun i s (linking : Linking v m q i s) =>
    linking.laidOut.stateMaps) (fun i s below linking => linking.step fits below) start
    (Nat.zero_le _) (by omega)
  refine ⟨m', ?_, linking.laidOut, ⟨linking.func, linking.addressTaken, linking.stateMap,
    linking.state⟩, linking.frame⟩
  have run : lbrLinkPaths m q = (forInt (fun s => (pathsStateMaps s.1 q).toNat) (linkMap q) intMax 0
      (m₃, q + UInt64.ofNat (v.stateOffset 0))).map Prod.fst := by
    rw [← p₃, isM₃, ← p₂, isM₂, ← p₁, isM₁, lbrLinkPaths]
  rw [run, looped]
  rfl

theorem range_map_eq {α : Type} {l : List α} {g : Nat → α} {n : Nat} (length : n = l.length)
    (entries : ∀ i x, l[i]? = some x → g i = x) : (List.range n).map g = l := by
  subst length
  apply List.ext_getElem (by simp)
  intro i _ inside
  simpa using entries i l[i] (List.getElem?_eq_getElem inside)

theorem getElem?_range_map {α : Type} {g : Nat → α} {n : Nat} {x : α}
    (entry : ((List.range n).map g)[i]? = some x) : i < n ∧ g i = x := by
  rw [List.getElem?_map] at entry
  obtain ⟨j, isJ, same⟩ := Option.map_eq_some_iff.mp entry
  obtain ⟨below, rfl⟩ := List.getElem?_eq_some_iff.mp isJ
  rw [List.getElem_range] at same
  exact ⟨by simpa using below, same⟩

theorem LaidOut.stateMapAt (laidOut : v.LaidOut m q) (linked : v.Linked m q)
    {entry : LbrValidStateMap} (atI : v.stateMap[i]? = some entry) :
    stateMapAt m (mapEntry m q i) = entry := by
  have state : (List.range (mapStates m (mapEntry m q i)).toNat).map (fun j =>
      stateAt m (mapState m (mapEntry m q i) + UInt64.ofNat (272 * j))) = entry.state := by
    rw [mapEntry_eq linked.stateMap]
    apply range_map_eq (laidOut.states i entry atI)
    intro j s atJ
    rw [linked.state i (List.getElem?_eq_some_iff.mp atI).1, offset_offset]
    exact laidOut.state i entry j s atI atJ
  rw [StateFile.stateMapAt, state, mapEntry_eq linked.stateMap, laidOut.target i entry atI]

/-- A value that is laid out and linked can be found there. -/
theorem LaidOut.pathsAt (laidOut : v.LaidOut m q) (linked : v.Linked m q) : pathsAt m q = v := by
  have func : (List.range (pathsFuncs m q).toNat).map (fun i =>
      functionAt m (pathsFunc m q + UInt64.ofNat (24 * i))) = v.func := by
    apply range_map_eq laidOut.funcs
    intro i f atI
    rw [linked.func, offset_offset]
    exact laidOut.func i f atI
  have addressTaken : (List.range (pathsAts m q).toNat).map (fun i =>
      m.load64 (pathsAddressTaken m q + UInt64.ofNat (8 * i))) = v.addressTaken := by
    apply range_map_eq laidOut.ats
    intro i word atI
    rw [linked.addressTaken, offset_offset]
    exact laidOut.addressTaken i word atI
  have stateMap : (List.range (pathsStateMaps m q).toNat).map (fun i =>
      StateFile.stateMapAt m (mapEntry m q i)) = v.stateMap := by
    apply range_map_eq laidOut.stateMaps
    intro i entry atI
    exact laidOut.stateMapAt linked atI
  rw [StateFile.pathsAt, func, addressTaken, stateMap]

theorem scaled_toNat (x : UInt32) {n : Nat} (small : n ≤ 2 ^ 32) :
    (x.toUInt64 * UInt64.ofNat n).toNat = n * x.toNat := by
  have bound : n * x.toNat < 2 ^ 64 := by
    have product := Nat.mul_lt_mul_of_le_of_lt small x.toNat_lt (by omega)
    simpa using product
  rw [scaled, UInt64.toNat_ofNat', Nat.mod_eq_of_lt bound]

end LbrPaths

/-! ## Sizes -/

section Sizes
open LbrPaths
variable (m : Memory) (p : UInt64)

theorem length_func : (pathsAt m p).func.length = (pathsFuncs m p).toNat := by simp [pathsAt]

theorem length_addressTaken : (pathsAt m p).addressTaken.length = (pathsAts m p).toNat := by
  simp [pathsAt]

theorem length_stateMap : (pathsAt m p).stateMap.length = (pathsStateMaps m p).toNat := by
  simp [pathsAt]

theorem getElem?_stateMap {i : Nat} (below : i < (pathsStateMaps m p).toNat) :
    (pathsAt m p).stateMap[i]? = some (stateMapAt m (mapEntry m p i)) := by
  simp [pathsAt, below]

theorem length_state (entry : UInt64) :
    (stateMapAt m entry).state.length = (mapStates m entry).toNat := by
  simp [stateMapAt]

theorem lbrSizeofPaths_eq (few : (pathsStateMaps m p).toNat ≤ intMax) :
    lbrSizeofPaths m p = some (UInt64.ofNat (pathsAt m p).size) := by
  have start : UInt64.ofNat 48 + (pathsFuncs m p).toUInt64 * UInt64.ofNat 24 +
      (pathsAts m p).toUInt64 * UInt64.ofNat 8 + (pathsStateMaps m p).toUInt64 * UInt64.ofNat 24 =
      UInt64.ofNat ((pathsAt m p).stateOffset 0) := by
    rw [scaled, scaled, scaled, ← UInt64.ofNat_add, ← UInt64.ofNat_add, ← UInt64.ofNat_add,
      ← length_func, ← length_addressTaken, ← length_stateMap, stateOffset_zero, mapsOffset, atsOffset]
  have round : ∀ i size, i < (pathsStateMaps m p).toNat →
      size = UInt64.ofNat ((pathsAt m p).stateOffset i) →
      size + (mapStates m (mapEntry m p i)).toUInt64 * UInt64.ofNat 272 =
        UInt64.ofNat ((pathsAt m p).stateOffset (i + 1)) := by
    rintro i size below rfl
    rw [scaled, ← UInt64.ofNat_add, stateOffset_succ (getElem?_stateMap m p below), length_state]
  obtain ⟨size, looped, sized⟩ := forInt_rule (fun _ _ _ => rfl) round start (Nat.zero_le _)
    (by omega)
  rw [lbrSizeofPaths, looped, sized, LbrPaths.size, length_stateMap]

theorem length_headBlocks :
    (addresses (headBlocks m p)).length = (pathsAt m p).stateOffset 0 := by
  rw [length_addresses, stateOffset_zero, mapsOffset, atsOffset, length_func, length_addressTaken,
    length_stateMap]
  simp only [headBlocks, List.map_cons, List.map_nil, List.sum_cons, List.sum_nil]
  ring

/-- The blocks before the states of the map `i`. -/
def blocksBefore (i : Nat) : List (UInt64 × Nat) :=
  headBlocks m p ++ (List.range i).map (mapBlock m p)

theorem blocksBefore_succ (i : Nat) :
    blocksBefore m p (i + 1) = blocksBefore m p i ++ [mapBlock m p i] := by
  rw [blocksBefore, List.range_succ, List.map_append, ← List.append_assoc, blocksBefore]
  rfl

theorem length_blocksBefore {i : Nat} (le : i ≤ (pathsStateMaps m p).toNat) :
    (addresses (blocksBefore m p i)).length = (pathsAt m p).stateOffset i := by
  induction i with
  | zero =>
      rw [blocksBefore, List.range_zero, List.map_nil, List.append_nil]
      exact length_headBlocks m p
  | succ i ih =>
      rw [blocksBefore_succ, addresses_append, List.length_append, ih (Nat.le_of_succ_le le),
        length_addresses, stateOffset_succ (getElem?_stateMap m p le), length_state]
      simp [mapBlock]

theorem length_objects : (addresses (objects m p)).length = (pathsAt m p).size := by
  rw [size, length_stateMap]
  exact length_blocksBefore m p le_rfl

theorem objects_paths : ∃ back, objects m p = [] ++ (p, 48) :: back := ⟨_, rfl⟩

theorem objects_func : ∃ back,
    objects m p = [(p, 48)] ++ (pathsFunc m p, 24 * (pathsFuncs m p).toNat) :: back := ⟨_, rfl⟩

theorem objects_addressTaken : ∃ back,
    objects m p = [(p, 48), (pathsFunc m p, 24 * (pathsFuncs m p).toNat)] ++
      (pathsAddressTaken m p, 8 * (pathsAts m p).toNat) :: back := ⟨_, rfl⟩

theorem objects_stateMap : ∃ back,
    objects m p = [(p, 48), (pathsFunc m p, 24 * (pathsFuncs m p).toNat),
        (pathsAddressTaken m p, 8 * (pathsAts m p).toNat)] ++
      (pathsStateMap m p, 24 * (pathsStateMaps m p).toNat) :: back := ⟨_, rfl⟩

theorem objects_prefix {i : Nat} (le : i ≤ (pathsStateMaps m p).toNat) :
    ∃ back, objects m p = blocksBefore m p i ++ back := by
  obtain ⟨more, count⟩ := Nat.exists_eq_add_of_le le
  refine ⟨((List.range more).map (i + ·)).map (mapBlock m p), ?_⟩
  rw [objects, count, blocksBefore, List.range_add, List.map_append, List.append_assoc]

theorem objects_split {i : Nat} (below : i < (pathsStateMaps m p).toNat) :
    ∃ back, objects m p = blocksBefore m p i ++ mapBlock m p i :: back := by
  obtain ⟨back, split⟩ := objects_prefix m p (Nat.succ_le_of_lt below)
  refine ⟨back, ?_⟩
  rw [split, blocksBefore_succ, List.append_assoc]
  rfl

end Sizes

/-! ## Packing -/

section Packing
open LbrPaths
variable {m M : Memory} {p packed : UInt64} {i k : Nat}

/-- The memory has been changed outside the blocks only. -/
def SameBlocks (m : Memory) (p : UInt64) (M : Memory) : Prop :=
  ∀ x ∈ addresses (objects m p), M x = m x

namespace SameBlocks
variable (same : SameBlocks m p M)
include same

theorem block {a : UInt64} {n : Nat} (member : (a, n) ∈ objects m p) (inside : k < n) :
    M (a + UInt64.ofNat k) = m (a + UInt64.ofNat k) :=
  same _ (mem_addresses member inside)

theorem header (inside : k < 48) : M (p + UInt64.ofNat k) = m (p + UInt64.ofNat k) := by
  have member : (p, 48) ∈ objects m p := List.mem_append_left _ List.mem_cons_self
  exact same.block member inside

theorem load32_header {n : Nat} (inside : n + 4 ≤ 48) :
    M.load32 (p + UInt64.ofNat n) = m.load32 (p + UInt64.ofNat n) := by
  apply Memory.load32_congr
  intro k below
  rw [offset_offset]
  exact same.header (by omega)

theorem load64_header {n : Nat} (inside : n + 8 ≤ 48) :
    M.load64 (p + UInt64.ofNat n) = m.load64 (p + UInt64.ofNat n) := by
  apply Memory.load64_congr
  intro k below
  rw [offset_offset]
  exact same.header (by omega)

theorem funcs : pathsFuncs M p = pathsFuncs m p :=
  Memory.load32_congr fun _ below => same.header (by omega)

theorem func : pathsFunc M p = pathsFunc m p := same.load64_header (by omega)

theorem ats : pathsAts M p = pathsAts m p := same.load32_header (by omega)

theorem addressTaken : pathsAddressTaken M p = pathsAddressTaken m p := same.load64_header (by omega)

theorem stateMaps : pathsStateMaps M p = pathsStateMaps m p := same.load32_header (by omega)

theorem stateMap : pathsStateMap M p = pathsStateMap m p := same.load64_header (by omega)

theorem mapEntry (i : Nat) : mapEntry M p i = mapEntry m p i := by
  rw [StateFile.mapEntry, same.stateMap, StateFile.mapEntry]

theorem entry (below : i < (pathsStateMaps m p).toNat) (inside : k < 24) :
    M (StateFile.mapEntry m p i + UInt64.ofNat k) = m (StateFile.mapEntry m p i + UInt64.ofNat k) := by
  have member : (pathsStateMap m p, 24 * (pathsStateMaps m p).toNat) ∈ objects m p :=
    List.mem_append_left _ (by simp [headBlocks])
  rw [StateFile.mapEntry, offset_offset]
  apply same.block member
  omega

theorem mapStates (below : i < (pathsStateMaps m p).toNat) :
    mapStates M (StateFile.mapEntry m p i) = mapStates m (StateFile.mapEntry m p i) := by
  apply Memory.load32_congr
  intro k inside
  rw [offset_offset]
  exact same.entry below (by omega)

theorem mapState (below : i < (pathsStateMaps m p).toNat) :
    mapState M (StateFile.mapEntry m p i) = mapState m (StateFile.mapEntry m p i) := by
  apply Memory.load64_congr
  intro k inside
  rw [offset_offset]
  exact same.entry below (by omega)

theorem read {a : UInt64} {n : Nat} (member : (a, n) ∈ objects m p) : M.read a n = m.read a n :=
  Memory.read_congr fun _ inside => same.block member inside

end SameBlocks

/-- The state of `lbr_pack_paths` when the blocks `front` have been copied. -/
def copied (m : Memory) (packed : UInt64) (front : List (UInt64 × Nat)) : Memory × UInt64 :=
  (m.write packed ((addresses front).map m), UInt64.ofNat (addresses front).length)

section
variable (fresh : (addresses (objects m p)).Disjoint (region packed (pathsAt m p).size))
  (fits : (pathsAt m p).size ≤ 2 ^ 64)
include fresh

theorem sameBlocks_copied {front back : List (UInt64 × Nat)} (split : objects m p = front ++ back) :
    SameBlocks m p (copied m packed front).1 := by
  intro x member
  apply Memory.write_of_notMem
  intro written
  apply fresh member
  apply region_subset packed _ written
  rw [List.length_map, ← length_objects, split, addresses_append, List.length_append]
  exact Nat.le_add_right _ _

include fits

theorem packBlock_copied {front back : List (UInt64 × Nat)} {a : UInt64} {n : Nat}
    (split : objects m p = front ++ (a, n) :: back) {length : UInt64} (same : length.toNat = n) :
    packBlock packed a length (copied m packed front) = copied m packed (front ++ [(a, n)]) := by
  have member : (a, n) ∈ objects m p := by
    rw [split]
    exact List.mem_append_right _ List.mem_cons_self
  have total := length_objects m p
  rw [split, addresses_append, List.length_append, addresses_cons, List.length_append,
    length_region] at total
  have read : (m.write packed ((addresses front).map m)).read a n = m.read a n :=
    (sameBlocks_copied fresh split).read member
  have advanced : length = UInt64.ofNat n := by rw [← same, UInt64.ofNat_toNat]
  have contents : (addresses (front ++ [(a, n)])).map m =
      (addresses front).map m ++ m.read a n := by
    rw [addresses_append, addresses_cons, List.map_append, List.map_append]
    simp [addresses, Memory.read]
  have filled : (addresses (front ++ [(a, n)])).length = (addresses front).length + n := by
    rw [addresses_append, addresses_cons, List.length_append, List.length_append, length_region]
    rfl
  have appended := @Memory.write_append packed m ((addresses front).map m) (m.read a n) (by
    rw [List.length_map, Memory.length_read]
    omega)
  rw [List.length_map] at appended
  simp only [packBlock, copied, Memory.memcpy]
  rw [same, read, appended, contents, advanced, ← UInt64.ofNat_add, filled]

theorem packMap_copied (below : i < (pathsStateMaps m p).toNat) :
    packMap packed p i (copied m packed (blocksBefore m p i)) =
      copied m packed (blocksBefore m p (i + 1)) := by
  obtain ⟨back, split⟩ := objects_split m p below
  have same := sameBlocks_copied fresh split
  have unfolded : packMap packed p i (copied m packed (blocksBefore m p i)) =
      packBlock packed (mapState m (mapEntry m p i))
        ((mapStates m (mapEntry m p i)).toUInt64 * UInt64.ofNat 272)
        (copied m packed (blocksBefore m p i)) := by
    rw [← same.mapState below, ← same.mapStates below, ← same.mapEntry i]
    rfl
  rw [unfolded, blocksBefore_succ]
  exact packBlock_copied fresh fits split (scaled_toNat _ (by omega))

/-- The blocks are copied one behind the other. -/
theorem packBlocks_eq (few : (pathsStateMaps m p).toNat ≤ intMax) :
    packBlocks packed m p = some (copied m packed (objects m p)) := by
  obtain ⟨_, split₁⟩ := objects_paths m p
  obtain ⟨_, split₂⟩ := objects_func m p
  obtain ⟨_, split₃⟩ := objects_addressTaken m p
  obtain ⟨_, split₄⟩ := objects_stateMap m p
  have copy₁ := packBlock_copied fresh fits split₁ (show (UInt64.ofNat 48).toNat = 48 from rfl)
  have copy₂ := packBlock_copied fresh fits split₂ (scaled_toNat (pathsFuncs m p) (by omega))
  have copy₃ := packBlock_copied fresh fits split₃ (scaled_toNat (pathsAts m p) (by omega))
  have copy₄ := packBlock_copied fresh fits split₄ (scaled_toNat (pathsStateMaps m p) (by omega))
  have same₂ := sameBlocks_copied fresh split₂
  have same₃ := sameBlocks_copied fresh split₃
  have same₄ := sameBlocks_copied fresh split₄
  have start : packBlocks packed m p = forInt (fun s => (pathsStateMaps s.1 p).toNat)
      (packMap packed p) intMax 0 (copied m packed (blocksBefore m p 0)) := by
    have empty : (m, UInt64.ofNat 0) = copied m packed [] := rfl
    simp only [List.nil_append, List.cons_append] at copy₁ copy₂ copy₃ copy₄
    simp only [packBlocks, empty, copy₁, same₂.func, same₂.funcs, copy₂, same₃.addressTaken,
      same₃.ats, copy₃, same₄.stateMap, same₄.stateMaps, copy₄]
    rfl
  have counted : ∀ i s, (i ≤ (pathsStateMaps m p).toNat ∧
      s = copied m packed (blocksBefore m p i)) →
      (pathsStateMaps s.1 p).toNat = (pathsStateMaps m p).toNat := by
    rintro i s ⟨le, rfl⟩
    obtain ⟨back, split⟩ := objects_prefix m p le
    rw [(sameBlocks_copied fresh split).stateMaps]
  have round : ∀ i s, i < (pathsStateMaps m p).toNat → (i ≤ (pathsStateMaps m p).toNat ∧
      s = copied m packed (blocksBefore m p i)) → i + 1 ≤ (pathsStateMaps m p).toNat ∧
      packMap packed p i s = copied m packed (blocksBefore m p (i + 1)) := by
    rintro i s below ⟨-, rfl⟩
    exact ⟨below, packMap_copied fresh fits below⟩
  obtain ⟨s, looped, -, rfl⟩ := forInt_rule counted round ⟨Nat.zero_le _, rfl⟩ (Nat.zero_le _)
    (show _ - 0 ≤ intMax by omega)
  rw [start, looped, objects, blocksBefore]

omit fresh in
variable (packed) in
theorem copied_apply {front back : List (UInt64 × Nat)} {a : UInt64} {n offset : Nat}
    (split : objects m p = front ++ (a, n) :: back) (starts : (addresses front).length = offset)
    (inside : k < n) :
    (copied m packed (objects m p)).1 (packed + UInt64.ofNat (offset + k)) =
      m (a + UInt64.ofNat k) := by
  have entry : (addresses (objects m p))[offset + k]? = some (a + UInt64.ofNat k) := by
    rw [split, ← starts]
    exact getElem?_addresses inside
  obtain ⟨below, entry'⟩ := List.getElem?_eq_some_iff.mp entry
  have total := length_objects m p
  rw [← entry']
  change m.write packed ((addresses (objects m p)).map m) _ = _
  rw [Memory.write_apply (by omega) (by rwa [List.length_map]), List.getElem_map]

omit fresh in
/-- Packing a value lays it out. -/
theorem laidOut_copied : (pathsAt m p).LaidOut (copied m packed (objects m p)).1 packed := by
  obtain ⟨_, split₁⟩ := objects_paths m p
  obtain ⟨_, split₂⟩ := objects_func m p
  obtain ⟨_, split₃⟩ := objects_addressTaken m p
  obtain ⟨_, split₄⟩ := objects_stateMap m p
  obtain ⟨M, isM⟩ : ∃ M, M = (copied m packed (objects m p)).1 := ⟨_, rfl⟩
  -- The bytes of each block, from the offset on where the layout has it.
  have header : ∀ k < 48, M (packed + UInt64.ofNat k) = m (p + UInt64.ofNat k) := by
    intro k inside
    have byte := copied_apply packed fits split₁ (show _ = 0 from rfl) inside
    rwa [Nat.zero_add, ← isM] at byte
  have funcs : ∀ k < 24 * (pathsFuncs m p).toNat,
      M (packed + UInt64.ofNat (48 + k)) = m (pathsFunc m p + UInt64.ofNat k) := by
    intro k inside
    rw [isM]
    exact copied_apply packed fits split₂ (by rw [length_addresses]; rfl) inside
  have ats : ∀ k < 8 * (pathsAts m p).toNat,
      M (packed + UInt64.ofNat ((pathsAt m p).atsOffset + k)) =
        m (pathsAddressTaken m p + UInt64.ofNat k) := by
    intro k inside
    rw [isM]
    refine copied_apply packed fits split₃ ?_ inside
    rw [length_addresses, atsOffset, length_func]
    simp
  have maps : ∀ k < 24 * (pathsStateMaps m p).toNat,
      M (packed + UInt64.ofNat ((pathsAt m p).mapsOffset + k)) =
        m (pathsStateMap m p + UInt64.ofNat k) := by
    intro k inside
    rw [isM]
    refine copied_apply packed fits split₄ ?_ inside
    rw [length_addresses, mapsOffset, atsOffset, length_func, length_addressTaken]
    simp [Nat.add_assoc]
  have states : ∀ i < (pathsStateMaps m p).toNat,
      ∀ k < 272 * (mapStates m (mapEntry m p i)).toNat,
      M (packed + UInt64.ofNat ((pathsAt m p).stateOffset i + k)) =
        m (mapState m (mapEntry m p i) + UInt64.ofNat k) := by
    intro i below k inside
    obtain ⟨_, split⟩ := objects_split m p below
    rw [isM]
    exact copied_apply packed fits split (length_blocksBefore m p below.le) inside
  have entries : ∀ i < (pathsStateMaps m p).toNat, ∀ k < 24,
      M (packed + UInt64.ofNat ((pathsAt m p).mapsOffset + 24 * i) + UInt64.ofNat k) =
        m (mapEntry m p i + UInt64.ofNat k) := by
    intro i below k inside
    rw [mapEntry, offset_offset, offset_offset, Nat.add_assoc]
    exact maps _ (by omega)
  rw [← isM]
  constructor
  · have same : pathsFuncs M packed = pathsFuncs m p :=
      Memory.load32_congr fun k inside => header k (by omega)
    rw [length_func, same]
  · have same : pathsAts M packed = pathsAts m p := by
      apply Memory.load32_congr
      intro k inside
      rw [offset_offset, offset_offset]
      exact header _ (by omega)
    rw [length_addressTaken, same]
  · have same : pathsStateMaps M packed = pathsStateMaps m p := by
      apply Memory.load32_congr
      intro k inside
      rw [offset_offset, offset_offset]
      exact header _ (by omega)
    rw [length_stateMap, same]
  · intro i f atI
    simp only [StateFile.pathsAt] at atI
    obtain ⟨below, rfl⟩ := getElem?_range_map atI
    apply functionAt_congr
    intro k inside
    rw [offset_offset, offset_offset, Nat.add_assoc]
    exact funcs _ (by omega)
  · intro i word atI
    simp only [StateFile.pathsAt] at atI
    obtain ⟨below, rfl⟩ := getElem?_range_map atI
    apply Memory.load64_congr
    intro k inside
    rw [offset_offset, offset_offset, Nat.add_assoc]
    exact ats _ (by omega)
  · intro i entry atI
    simp only [StateFile.pathsAt] at atI
    obtain ⟨below, rfl⟩ := getElem?_range_map atI
    apply Memory.load64_congr
    intro k inside
    exact entries i below k (by omega)
  · intro i entry atI
    simp only [StateFile.pathsAt] at atI
    obtain ⟨below, rfl⟩ := getElem?_range_map atI
    have same : mapStates M (packed + UInt64.ofNat ((pathsAt m p).mapsOffset + 24 * i)) =
        mapStates m (mapEntry m p i) := by
      apply Memory.load32_congr
      intro k inside
      have byte := entries i below (8 + k) (by omega)
      rwa [← offset_offset _ 8, ← offset_offset _ 8] at byte
    rw [same, length_state]
  · intro i entry j s atI atJ
    simp only [StateFile.pathsAt] at atI
    obtain ⟨below, rfl⟩ := getElem?_range_map atI
    simp only [StateFile.stateMapAt] at atJ
    obtain ⟨below', rfl⟩ := getElem?_range_map atJ
    apply stateAt_congr
    intro k inside
    rw [offset_offset, offset_offset, Nat.add_assoc]
    exact states i below _ (by omega)

end

end Packing

/-! ## The round trip -/

section RoundTrip
open LbrPaths
variable {v : LbrPaths} {m : Memory} {p q packed : UInt64} {i : Nat}

theorem addresses_headBlocks (laidOut : v.LaidOut m q) (linked : v.Linked m q) :
    addresses (headBlocks m q) = region q (v.stateOffset 0) := by
  rw [headBlocks, addresses_cons, addresses_cons, addresses_cons, addresses_cons, linked.func,
    linked.addressTaken, linked.stateMap, laidOut.funcs, laidOut.ats, laidOut.stateMaps,
    stateOffset_zero, region_add, mapsOffset, region_add, atsOffset, region_add]
  simp [addresses]

theorem addresses_blocksBefore (laidOut : v.LaidOut m q) (linked : v.Linked m q)
    (le : i ≤ v.stateMap.length) :
    addresses (blocksBefore m q i) = region q (v.stateOffset i) := by
  induction i with
  | zero =>
      rw [blocksBefore, List.range_zero, List.map_nil, List.append_nil]
      exact addresses_headBlocks laidOut linked
  | succ i ih =>
      have atI := List.getElem?_eq_getElem (Nat.lt_of_succ_le le)
      have block : mapBlock m q i =
          (q + UInt64.ofNat (v.stateOffset i), 272 * v.stateMap[i].state.length) := by
        rw [mapBlock, mapEntry_eq linked.stateMap, linked.state i le, laidOut.states i _ atI]
      rw [blocksBefore_succ, addresses_append, ih (Nat.le_of_succ_le le), block, addresses_cons,
        stateOffset_succ atI, region_add]
      simp [addresses]

/-- The blocks of a linked value follow one another without a gap. -/
theorem addresses_objects (laidOut : v.LaidOut m q) (linked : v.Linked m q) :
    addresses (objects m q) = region q v.size := by
  rw [size, ← laidOut.stateMaps]
  exact addresses_blocksBefore laidOut linked laidOut.stateMaps.le

/-- Blocks lie apart from each other and from `NULL`. -/
structure Separate (blocks : List (UInt64 × Nat)) : Prop where
  nodup : (addresses blocks).Nodup
  notNull : 0 ∉ addresses blocks

theorem Separate.size_lt {n : Nat} (separate : Separate (objects m p ++ [(packed, n)]))
    (allocated : n = (pathsAt m p).size % 2 ^ 64) : (pathsAt m p).size < 2 ^ 63 := by
  have count := length_lt_of_nodup separate.nodup separate.notNull
  rw [addresses_append, List.length_append, length_objects, addresses_cons, List.length_append,
    length_region] at count
  omega

theorem Separate.disjoint {n : Nat} (separate : Separate (objects m p ++ [(packed, n)])) :
    (addresses (objects m p)).Disjoint (region packed n) := by
  have nodup := separate.nodup
  rw [addresses_append, addresses_cons, List.nodup_append'] at nodup
  intro x first second
  exact nodup.2.2 first (List.mem_append_left _ second)

def WriteCalls.succeed : WriteCalls := ⟨true, true, true⟩

def ReadCalls.succeed : ReadCalls := ⟨true, true, true, true, true⟩

/-- A value that is packed, written, read back and linked is the same value; the packed block is as
long as it says, and the linked one consists of its parts in their order. -/
theorem roundTrip {malloc : UInt64 → Option UInt64} (few : (pathsStateMaps m p).toNat < 2 ^ 31)
    (allocated : ∀ size, lbrSizeofPaths m p = some size →
      malloc size = some packed ∧ Separate (objects m p ++ [(packed, size.toNat)])) :
    ∃ m₁ copies size file, lbrPackPaths malloc m p = some (m₁, packed) ∧
      pathsAt m₁ packed = pathsAt m p ∧
      lbrSizeofPaths m₁ packed = some size ∧ packBlocks packed m p = some (copies, size) ∧
      (∀ x ∉ region packed size.toNat, m₁ x = m x) ∧
      writePaths .succeed m₁ packed = some (0, some file) ∧ file.length = size.toNat ∧
      ∀ m₂ malloc₂ r, malloc₂ (UInt64.ofNat file.length) = some r →
        ∃ m₃, readPaths .succeed malloc₂ file m₂ = some (m₃, some r) ∧
          lbrLinkPaths (m₂.write r file) r = some m₃ ∧
          pathsAt m₃ r = pathsAt m p ∧
          addresses (objects m₃ r) = region r file.length ∧ (region r file.length).Nodup := by
  have few' : (pathsStateMaps m p).toNat ≤ intMax := by
    unfold intMax
    omega
  have measured := lbrSizeofPaths_eq m p few'
  obtain ⟨obtained, separate⟩ := allocated _ measured
  have small := separate.size_lt (UInt64.toNat_ofNat' ..)
  have exact' : (UInt64.ofNat (pathsAt m p).size).toNat = (pathsAt m p).size := by
    rw [UInt64.toNat_ofNat', Nat.mod_eq_of_lt (by omega)]
  rw [exact'] at separate
  have fresh := separate.disjoint
  have copies := packBlocks_eq fresh (by omega) few'
  have maps : (pathsAt m p).stateMap.length ≤ intMax := by rwa [length_stateMap]
  have laidOut : (pathsAt m p).LaidOut (copied m packed (objects m p)).1 packed :=
    laidOut_copied (by omega)
  obtain ⟨m₁, linked, laidOut₁, linked₁, frame⟩ := laidOut.link (by omega) maps
  have value := laidOut₁.pathsAt linked₁
  have measured₁ := lbrSizeofPaths_eq m₁ packed (by rw [laidOut₁.stateMaps]; exact maps)
  rw [value] at measured₁
  refine ⟨m₁, (copied m packed (objects m p)).1, UInt64.ofNat (pathsAt m p).size,
    m₁.read packed (pathsAt m p).size, ?_, value, measured₁, ?_, ?_, ?_, ?_, ?_⟩
  · rw [lbrPackPaths, measured]
    simp [obtained, copies, linked]
  · rw [copies, ← length_objects]
    rfl
  · intro x outside
    rw [exact'] at outside
    rw [frame x outside]
    apply Memory.write_of_notMem
    rwa [List.length_map, length_objects]
  · simp [writePaths, WriteCalls.succeed, measured₁, exact']
  · rw [Memory.length_read, exact']
  · intro m₂ malloc₂ r obtained₂
    rw [Memory.length_read] at obtained₂ ⊢
    have laidOut₂ := laidOut₁.write_read (by omega) m₂ r
    obtain ⟨m₃, linked', laidOut₃, linked₃, -⟩ := laidOut₂.link (by omega) maps
    refine ⟨m₃, ?_, linked', laidOut₃.pathsAt linked₃, addresses_objects laidOut₃ linked₃,
      region_nodup r (by omega)⟩
    simpa [readPaths, ReadCalls.succeed, obtained₂, linked'] using small

/-- One function, one address and one map with one state, each behind the other. -/
def oneOfEach : Memory :=
  Memory.write (fun _ => 0) 4096
    (toBytes 8 1 ++ toBytes 8 4144 ++ toBytes 8 1 ++ toBytes 8 4168 ++ toBytes 8 1 ++
      toBytes 8 4176 ++ toBytes 8 0x401000 ++ toBytes 16 0x65766365 ++ toBytes 8 0x402000 ++
      toBytes 8 0x401000 ++ toBytes 8 1 ++ toBytes 8 4200 ++ toBytes 272 0x400123)

theorem roundTrip_oneOfEach : ∃ m₁ file, (pathsAt oneOfEach 4096).stateMap.length = 1 ∧
    lbrPackPaths (fun _ => some 8192) oneOfEach 4096 = some (m₁, 8192) ∧
    pathsAt m₁ 8192 = pathsAt oneOfEach 4096 ∧
    writePaths .succeed m₁ 8192 = some (0, some file) ∧ file.length = 376 := by
  have measured : lbrSizeofPaths oneOfEach 4096 = some 376 := by decide +kernel
  have blocks : addresses (objects oneOfEach 4096) = region 4096 376 := by decide +kernel
  have apart : Separate (objects oneOfEach 4096 ++ [(8192, 376)]) := by
    constructor
    · rw [addresses_append, blocks, addresses_cons, addresses, List.flatMap_nil, List.append_nil]
      exact (region_nodup _ (by decide)).append (region_nodup _ (by decide))
        (disjoint_region (by decide) (by decide))
    · decide +kernel
  have filled : (packBlocks 8192 oneOfEach 4096).map Prod.snd = some 376 := by decide +kernel
  obtain ⟨m₁, copies, size, file, packs, value, -, packed, -, written, length, -⟩ :=
    @roundTrip oneOfEach 4096 8192 (fun _ => some 8192) (by decide +kernel) (by
      intro size isSize
      obtain rfl : 376 = size := Option.some.inj (measured.symm.trans isSize)
      exact ⟨rfl, apart⟩)
  rw [packed] at filled
  obtain rfl : size = 376 := Option.some.inj filled
  exact ⟨m₁, file, by decide +kernel, packs, value, written, length⟩

end RoundTrip

end PathArmor.StateFile

import Mathlib.Data.Fintype.Card
import Mathlib.Data.List.Basic
import Mathlib.Data.List.Range
import Mathlib.Tactic.Ring

/-!
# Byte memory

Memory with 64-bit addresses. Address arithmetic wraps, so a region is an arc of a ring and is
described by its first address and its length.
-/

namespace PathArmor.Library

abbrev Memory := UInt64 → UInt8

/-- The little-endian bytes of a number. -/
def toBytes : Nat → Nat → List UInt8
  | 0, _ => []
  | n + 1, x => UInt8.ofNat x :: toBytes n (x / 256)

def ofBytes : List UInt8 → Nat
  | [] => 0
  | byte :: bytes => byte.toNat + 256 * ofBytes bytes

@[simp] theorem length_toBytes (n x : Nat) : (toBytes n x).length = n := by
  induction n generalizing x with
  | zero => rfl
  | succ n ih => rw [toBytes, List.length_cons, ih]

theorem ofBytes_toBytes (n x : Nat) : ofBytes (toBytes n x) = x % 256 ^ n := by
  induction n generalizing x with
  | zero => rw [Nat.pow_zero, Nat.mod_one]; rfl
  | succ n ih =>
      have split : x % (256 * 256 ^ n) = x % 256 + 256 * (x / 256 % 256 ^ n) := Nat.mod_mul
      rw [toBytes, ofBytes, ih, UInt8.toNat_ofNat', pow_succ' 256, split]

/-- The addresses of `n` bytes from `a` on. -/
def region (a : UInt64) (n : Nat) : List UInt64 := (List.range n).map fun k => a + UInt64.ofNat k

variable {a b x : UInt64} {n k : Nat}

@[simp] theorem length_region (a : UInt64) (n : Nat) : (region a n).length = n := by simp [region]

theorem mem_region : x ∈ region a n ↔ ∃ k < n, x = a + UInt64.ofNat k := by
  simp only [region, List.mem_map, List.mem_range, eq_comm]

theorem offset_toNat (a : UInt64) (below : k < 2 ^ 64) : (a + UInt64.ofNat k - a).toNat = k := by
  rw [UInt64.add_comm, UInt64.add_sub_cancel, UInt64.toNat_ofNat', Nat.mod_eq_of_lt below]

theorem mem_region_of_lt (inside : (x - a).toNat < n) : x ∈ region a n := by
  refine mem_region.mpr ⟨(x - a).toNat, inside, ?_⟩
  rw [UInt64.ofNat_toNat, UInt64.add_comm, UInt64.sub_add_cancel]

theorem offset_offset (a : UInt64) (n k : Nat) :
    a + UInt64.ofNat n + UInt64.ofNat k = a + UInt64.ofNat (n + k) := by
  rw [UInt64.ofNat_add, UInt64.add_assoc]

theorem region_add (a : UInt64) (n k : Nat) :
    region a (n + k) = region a n ++ region (a + UInt64.ofNat n) k := by
  rw [region, List.range_add, List.map_append, List.map_map]
  congr 1
  apply List.map_congr_left
  intro i _
  exact (offset_offset a n i).symm

theorem region_subset (a : UInt64) (le : n ≤ k) : region a n ⊆ region a k := by
  obtain ⟨more, rfl⟩ := Nat.exists_eq_add_of_le le
  rw [region_add]
  exact List.subset_append_left _ _

theorem region_offset_subset (a : UInt64) {d : Nat} (inside : d + k ≤ n) :
    region (a + UInt64.ofNat d) k ⊆ region a n := by
  have tail : region (a + UInt64.ofNat d) k ⊆ region a (d + k) := by
    rw [region_add]
    exact List.subset_append_right _ _
  exact List.Subset.trans tail (region_subset a inside)

theorem region_nodup (a : UInt64) (bound : n ≤ 2 ^ 64) : (region a n).Nodup := by
  refine List.Nodup.map_on ?_ List.nodup_range
  intro i inside j inside' same
  rw [List.mem_range] at inside inside'
  have distance := congrArg (fun x => (x - a).toNat) same
  simpa only [offset_toNat a (show i < 2 ^ 64 by omega), offset_toNat a (show j < 2 ^ 64 by omega)]
    using distance

theorem offset_notMem {len : Nat} (below : k < 2 ^ 64) (bound : n + len ≤ 2 ^ 64)
    (outside : k < n ∨ n + len ≤ k) :
    a + UInt64.ofNat k ∉ region (a + UInt64.ofNat n) len := by
  intro member
  obtain ⟨j, inside, same⟩ := mem_region.mp member
  rw [offset_offset] at same
  have distance := congrArg (fun x => (x - a).toNat) same
  simp only [offset_toNat a below, offset_toNat a (show n + j < 2 ^ 64 by omega)] at distance
  omega

theorem offset_notMem_region (below : k < 2 ^ 64) (behind : n ≤ k) :
    a + UInt64.ofNat k ∉ region a n := by
  intro member
  obtain ⟨j, inside, same⟩ := mem_region.mp member
  have distance := congrArg (fun x => (x - a).toNat) same
  simp only [offset_toNat a below, offset_toNat a (show j < 2 ^ 64 by omega)] at distance
  omega

theorem region_offset_subset_iff {size : Nat} (start : k ≤ size) (bound : size < 2 ^ 64) :
    region (a + UInt64.ofNat k) n ⊆ region a size ↔ n = 0 ∨ k + n ≤ size := by
  constructor
  · intro inside
    by_contra crossing
    have last : a + UInt64.ofNat size ∈ region (a + UInt64.ofNat k) n := by
      refine mem_region.mpr ⟨size - k, by omega, ?_⟩
      rw [offset_offset, Nat.add_sub_cancel' start]
    exact offset_notMem_region bound le_rfl (inside last)
  · rintro (rfl | inside)
    · exact List.nil_subset _
    · exact region_offset_subset a inside

theorem end_le_of_subset {size : Nat} (inside : region (a + UInt64.ofNat k) n ⊆ region a size)
    (some : 0 < n) (bound : k + n ≤ 2 ^ 64) : k + n ≤ size := by
  have last : a + UInt64.ofNat (k + (n - 1)) ∈ region a size := by
    apply inside
    rw [← offset_offset]
    exact mem_region.mpr ⟨n - 1, by omega, rfl⟩
  by_contra beyond
  exact offset_notMem_region (by omega) (by omega) last

/-- Two regions are apart if the second one starts behind the first and ends before it. -/
theorem disjoint_region (behind : n ≤ (b - a).toNat) (before : (b - a).toNat + k ≤ 2 ^ 64) :
    (region a n).Disjoint (region b k) := by
  intro x first second
  obtain ⟨i, inside, rfl⟩ := mem_region.mp first
  obtain ⟨j, inside', same⟩ := mem_region.mp second
  have distance : UInt64.ofNat i = b - a + UInt64.ofNat j := by grind
  have numbers := congrArg UInt64.toNat distance
  rw [UInt64.toNat_ofNat', UInt64.toNat_add, UInt64.toNat_ofNat'] at numbers
  omega

/-- The addresses of blocks given by their first address and their length, one after the other. -/
def addresses (blocks : List (UInt64 × Nat)) : List UInt64 :=
  blocks.flatMap fun block => region block.1 block.2

theorem length_addresses (blocks : List (UInt64 × Nat)) :
    (addresses blocks).length = (blocks.map Prod.snd).sum := by
  simp [addresses, List.length_flatMap]

theorem addresses_append (blocks blocks' : List (UInt64 × Nat)) :
    addresses (blocks ++ blocks') = addresses blocks ++ addresses blocks' := List.flatMap_append

theorem addresses_cons (a : UInt64) (n : Nat) (blocks : List (UInt64 × Nat)) :
    addresses ((a, n) :: blocks) = region a n ++ addresses blocks := List.flatMap_cons

theorem mem_addresses {blocks : List (UInt64 × Nat)} (member : (a, n) ∈ blocks) (inside : k < n) :
    a + UInt64.ofNat k ∈ addresses blocks :=
  List.mem_flatMap.mpr ⟨(a, n), member, mem_region.mpr ⟨k, inside, rfl⟩⟩

theorem disjoint_of_nodup {blocks : List (UInt64 × Nat)} (nodup : (addresses blocks).Nodup) :
    blocks.Pairwise fun p q => (region p.1 p.2).Disjoint (region q.1 q.2) :=
  (List.nodup_flatMap.mp nodup).2

/-- Blocks that lie behind each other, round the ring, share no address. -/
theorem nodup_addresses {blocks : List (UInt64 × Nat)} (bound : ∀ p ∈ blocks, p.2 ≤ 2 ^ 64)
    (apart : blocks.Pairwise fun p q =>
      p.2 ≤ (q.1 - p.1).toNat ∧ (q.1 - p.1).toNat + q.2 ≤ 2 ^ 64) : (addresses blocks).Nodup := by
  apply List.nodup_flatMap.mpr
  constructor
  · intro p member
    exact region_nodup p.1 (bound p member)
  · apply apart.imp
    intro p q behind
    exact disjoint_region behind.1 behind.2

theorem getElem?_addresses {front back : List (UInt64 × Nat)} (inside : k < n) :
    (addresses (front ++ (a, n) :: back))[(addresses front).length + k]? =
      some (a + UInt64.ofNat k) := by
  have first : (region a n)[k]? = some (a + UInt64.ofNat k) := by simp [region, inside]
  rw [addresses_append, List.getElem?_append_right (Nat.le_add_right _ _), Nat.add_sub_cancel_left,
    addresses_cons, List.getElem?_append_left (by rwa [length_region]), first]

/-- There are only so many addresses. -/
theorem length_lt_of_nodup {l : List UInt64} (nodup : l.Nodup) (notNull : 0 ∉ l) :
    l.length < 2 ^ 64 := by
  have numbers : ((0 :: l).map UInt64.toNat).Nodup :=
    (List.nodup_cons.mpr ⟨notNull, nodup⟩).map fun _ _ => UInt64.toNat_inj.mp
  have below : (0 :: l).map UInt64.toNat ⊆ List.range (2 ^ 64) := by
    intro n member
    obtain ⟨x, -, rfl⟩ := List.mem_map.mp member
    exact List.mem_range.mpr x.toNat_lt
  have count := (List.subperm_of_subset numbers below).length_le
  rwa [List.length_map, List.length_cons, List.length_range] at count

namespace Memory
variable (m : Memory)

def read (a : UInt64) (n : Nat) : List UInt8 := (region a n).map m

def write (a : UInt64) (bytes : List UInt8) : Memory :=
  fun x => bytes[(x - a).toNat]?.getD (m x)

def load32 (a : UInt64) : UInt32 := UInt32.ofNat (ofBytes (m.read a 4))

def load64 (a : UInt64) : UInt64 := UInt64.ofNat (ofBytes (m.read a 8))

def store64 (a x : UInt64) : Memory := m.write a (toBytes 8 x.toNat)

def memcpy (dst src : UInt64) (n : Nat) : Memory := m.write dst (m.read src n)

variable {m} {m' : Memory} {bytes bytes' : List UInt8}

@[simp] theorem length_read (m : Memory) (a : UInt64) (n : Nat) : (m.read a n).length = n := by
  simp [read]

theorem take_read (m : Memory) (a : UInt64) (le : k ≤ n) : (m.read a n).take k = m.read a k := by
  rw [read, read, ← List.map_take, region, region, ← List.map_take, List.take_range,
    Nat.min_eq_left le]

theorem read_congr {a' : UInt64} (same : ∀ k < n, m (a + UInt64.ofNat k) = m' (a' + UInt64.ofNat k)) :
    m.read a n = m'.read a' n := by
  simp only [read, region, List.map_map]
  apply List.map_congr_left
  intro k below
  exact same k (List.mem_range.mp below)

theorem load32_congr {a' : UInt64}
    (same : ∀ k < 4, m (a + UInt64.ofNat k) = m' (a' + UInt64.ofNat k)) :
    m.load32 a = m'.load32 a' := by
  rw [load32, load32, read_congr same]

theorem load64_congr {a' : UInt64}
    (same : ∀ k < 8, m (a + UInt64.ofNat k) = m' (a' + UInt64.ofNat k)) :
    m.load64 a = m'.load64 a' := by
  rw [load64, load64, read_congr same]

theorem write_of_notMem (outside : x ∉ region a bytes.length) : m.write a bytes x = m x := by
  have none : bytes[(x - a).toNat]? = none := by
    rw [List.getElem?_eq_none_iff]
    exact not_lt.mp fun inside => outside (mem_region_of_lt inside)
  rw [write, none]
  rfl

theorem write_apply (bound : k < 2 ^ 64) (inside : k < bytes.length) :
    m.write a bytes (a + UInt64.ofNat k) = bytes[k] := by
  rw [write, offset_toNat a bound, List.getElem?_eq_getElem inside]
  rfl

theorem read_write_self (bound : bytes.length ≤ 2 ^ 64) :
    (m.write a bytes).read a bytes.length = bytes := by
  apply List.ext_getElem (length_read _ _ _)
  intro k _ inside
  simp only [read, region, List.getElem_map, List.getElem_range]
  exact write_apply (by omega) inside

theorem write_append (bound : bytes.length + bytes'.length ≤ 2 ^ 64) :
    (m.write a bytes).write (a + UInt64.ofNat bytes.length) bytes' = m.write a (bytes ++ bytes') := by
  funext x
  have distance : (x - (a + UInt64.ofNat bytes.length)).toNat =
      (2 ^ 64 - bytes.length % 2 ^ 64 + (x - a).toNat) % 2 ^ 64 := by
    have apart : x - (a + UInt64.ofNat bytes.length) = x - a - UInt64.ofNat bytes.length := by grind
    rw [apart, UInt64.toNat_sub, UInt64.toNat_ofNat']
  have below := (x - a).toNat_lt
  unfold write
  rw [distance]
  rcases Nat.lt_or_ge (x - a).toNat bytes.length with inside | beyond
  · have none : bytes'[(2 ^ 64 - bytes.length % 2 ^ 64 + (x - a).toNat) % 2 ^ 64]? = none := by
      rw [List.getElem?_eq_none_iff]
      omega
    rw [none, List.getElem?_append_left inside]
    rfl
  · have rest : (2 ^ 64 - bytes.length % 2 ^ 64 + (x - a).toNat) % 2 ^ 64 =
        (x - a).toNat - bytes.length := by omega
    rw [rest, List.getElem?_append_right beyond, List.getElem?_eq_none beyond]
    rfl

theorem write_comm (apart : (region a bytes.length).Disjoint (region b bytes'.length)) :
    (m.write a bytes).write b bytes' = (m.write b bytes').write a bytes := by
  funext x
  simp only [write]
  rcases Nat.lt_or_ge (x - a).toNat bytes.length with inside | beyond
  · have outside : bytes'.length ≤ (x - b).toNat :=
      not_lt.mp fun inside' => apart (mem_region_of_lt inside) (mem_region_of_lt inside')
    rw [List.getElem?_eq_none outside, List.getElem?_eq_getElem inside]
    rfl
  · rw [List.getElem?_eq_none beyond]
    rfl

theorem load64_of_read {v : UInt64} (stored : m.read a 8 = toBytes 8 v.toNat) : m.load64 a = v := by
  rw [load64, stored, ofBytes_toBytes, Nat.mod_eq_of_lt (by simpa using v.toNat_lt),
    UInt64.ofNat_toNat]

theorem load64_store64 (m : Memory) (a x : UInt64) : (m.store64 a x).load64 a = x := by
  have self : (m.write a (toBytes 8 x.toNat)).read a (toBytes 8 x.toNat).length = _ :=
    read_write_self (by simp)
  rw [length_toBytes] at self
  exact load64_of_read self

theorem store64_of_notMem {v : UInt64} (outside : x ∉ region a 8) : m.store64 a v x = m x := by
  apply write_of_notMem
  rwa [length_toBytes]

theorem load32_store64_of_apart {v : UInt64} (inside : k + 4 ≤ 2 ^ 64) (inside' : n + 8 ≤ 2 ^ 64)
    (apart : k + 4 ≤ n ∨ n + 8 ≤ k) :
    (m.store64 (a + UInt64.ofNat n) v).load32 (a + UInt64.ofNat k) =
      m.load32 (a + UInt64.ofNat k) := by
  apply load32_congr
  intro j below
  rw [offset_offset]
  apply store64_of_notMem
  apply offset_notMem (by omega) inside'
  omega

theorem load64_store64_of_disjoint {v : UInt64} (apart : (region a 8).Disjoint (region b 8)) :
    (m.store64 a v).load64 b = m.load64 b := by
  apply load64_congr
  intro k below
  exact store64_of_notMem fun inside => apart inside (mem_region.mpr ⟨k, below, rfl⟩)

theorem load64_store64_of_apart {v : UInt64} (inside : k + 8 ≤ 2 ^ 64) (inside' : n + 8 ≤ 2 ^ 64)
    (apart : k + 8 ≤ n ∨ n + 8 ≤ k) :
    (m.store64 (a + UInt64.ofNat n) v).load64 (a + UInt64.ofNat k) =
      m.load64 (a + UInt64.ofNat k) := by
  apply load64_congr
  intro j below
  rw [offset_offset]
  apply store64_of_notMem
  apply offset_notMem (by omega) inside'
  omega

/-! ## Stores at offsets of one address -/

/-- The bytes are stored one after the other, each at its offset from `a`. -/
def writeAll (m : Memory) (a : UInt64) (stores : List (Nat × List UInt8)) : Memory :=
  stores.foldl (fun m store => m.write (a + UInt64.ofNat store.1) store.2) m

/-- The byte at offset `k` is stored. -/
def Covers (stores : List (Nat × List UInt8)) (k : Nat) : Prop :=
  ∃ store ∈ stores, store.1 ≤ k ∧ k < store.1 + store.2.length

variable {stores : List (Nat × List UInt8)}

theorem writeAll_append (m : Memory) (a : UInt64) (stores stores' : List (Nat × List UInt8)) :
    m.writeAll a (stores ++ stores') = (m.writeAll a stores).writeAll a stores' :=
  List.foldl_append

theorem write_offset_of_notCovered {store : Nat × List UInt8} (below : k < 2 ^ 64)
    (bound : store.1 + store.2.length ≤ 2 ^ 64)
    (outside : k < store.1 ∨ store.1 + store.2.length ≤ k) :
    m.write (a + UInt64.ofNat store.1) store.2 (a + UInt64.ofNat k) = m (a + UInt64.ofNat k) :=
  write_of_notMem (offset_notMem below bound outside)

theorem writeAll_of_notCovers (below : k < 2 ^ 64)
    (bound : ∀ store ∈ stores, store.1 + store.2.length ≤ 2 ^ 64) (outside : ¬ Covers stores k) :
    m.writeAll a stores (a + UInt64.ofNat k) = m (a + UInt64.ofNat k) := by
  induction stores generalizing m with
  | nil => rfl
  | cons store rest ih =>
      obtain ⟨bound', bounds⟩ := List.forall_mem_cons.mp bound
      have here : k < store.1 ∨ store.1 + store.2.length ≤ k := by
        by_contra inside
        exact outside ⟨store, List.mem_cons_self, by omega, by omega⟩
      have later : ¬ Covers rest k := fun ⟨store', member, inside⟩ =>
        outside ⟨store', List.mem_cons_of_mem _ member, inside⟩
      rw [writeAll, List.foldl_cons, ← writeAll, ih bounds later,
        write_offset_of_notCovered below bound' here]

/-- What is stored does not depend on what was there. -/
theorem writeAll_of_covers (m m' : Memory) (below : k < 2 ^ 64)
    (bound : ∀ store ∈ stores, store.1 + store.2.length ≤ 2 ^ 64) (inside : Covers stores k) :
    m.writeAll a stores (a + UInt64.ofNat k) = m'.writeAll a stores (a + UInt64.ofNat k) := by
  induction stores generalizing m m' with
  | nil => simp [Covers] at inside
  | cons store rest ih =>
      obtain ⟨bound', bounds⟩ := List.forall_mem_cons.mp bound
      simp only [writeAll, List.foldl_cons]
      by_cases later : Covers rest k
      · exact ih _ _ bounds later
      · rw [← writeAll, ← writeAll, writeAll_of_notCovers below bounds later,
          writeAll_of_notCovers below bounds later]
        obtain ⟨store', member, start, stop⟩ := inside
        rcases List.mem_cons.mp member with rfl | later'
        · obtain ⟨j, rfl⟩ := Nat.exists_eq_add_of_le start
          rw [← offset_offset, write_apply (by omega) (by omega), write_apply (by omega) (by omega)]
        · exact absurd ⟨store', later', start, stop⟩ later

theorem read_writeAll {before after : List (Nat × List UInt8)} {bytes : List UInt8}
    (bound : k + bytes.length ≤ 2 ^ 64)
    (bounds : ∀ store ∈ after, store.1 + store.2.length ≤ 2 ^ 64)
    (apart : ∀ store ∈ after, k + bytes.length ≤ store.1 ∨ store.1 + store.2.length ≤ k) :
    (m.writeAll a (before ++ (k, bytes) :: after)).read (a + UInt64.ofNat k) bytes.length = bytes := by
  have frame (m : Memory) : (m.writeAll a after).read (a + UInt64.ofNat k) bytes.length =
      m.read (a + UInt64.ofNat k) bytes.length := by
    apply read_congr
    intro j inside
    rw [offset_offset]
    apply writeAll_of_notCovers (by omega) bounds
    rintro ⟨store, member, start, stop⟩
    have := apart store member
    omega
  rw [writeAll_append, writeAll, List.foldl_cons, ← writeAll, frame]
  exact read_write_self (show bytes.length ≤ 2 ^ 64 by omega)

end Memory

end PathArmor.Library

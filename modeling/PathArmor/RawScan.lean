import Mathlib.Data.List.Perm.Basic
import Mathlib.Data.UInt

/-!
# Scanning sections for code addresses

Two tools look for addresses of functions in the raw bytes of a section, at every offset: the script
`read_section.py` and the parser of address-taken functions in the analyzer. Both stop one offset
early, and the second one reports locations in steps of eight bytes.
-/

namespace PathArmor.RawScan
open scoped List

/-- The eight bytes from offset `i` on, the lowest first. -/
def word (bytes : List UInt8) (i : Nat) : UInt64 :=
  ((bytes.drop i).take 8).foldr (fun byte rest => byte.toUInt64 + 256 * rest) 0

/-- The offsets at which eight bytes are left. -/
def wordOffsets (bytes : List UInt8) : List Nat := List.range (bytes.length + 1 - 8)

/-! ## read_section.py -/

/-- Both ranges include their end. -/
structure CodeRanges where
  textStart : Nat
  textEnd : Nat
  pltStart : Nat
  pltEnd : Nat

structure SectionEntry where
  location : Nat
  value : UInt64
  label : String
  deriving DecidableEq

namespace CodeRanges
variable (r : CodeRanges)

def inText (val : UInt64) : Bool := r.textStart ≤ val.toNat && val.toNat ≤ r.textEnd

def inPlt (val : UInt64) : Bool := r.pltStart ≤ val.toNat && val.toNat ≤ r.pltEnd

def inCode (val : UInt64) : Bool := r.inText val || r.inPlt val

def label (sname : String) (val : UInt64) : String :=
  if r.inPlt val then ".plt" else if sname == ".rodata" then ".data" else sname

def readSection (sname : String) (s : Nat) (d : List UInt8) : List SectionEntry :=
  ((List.range (d.length - 8)).filter fun i => r.inCode (word d i)).map fun i =>
    { location := s + i, value := word d i, label := r.label sname (word d i) }

end CodeRanges

/-! ## The parser of address-taken functions -/

inductive RefType
  | abs | offset
  deriving DecidableEq

structure RefAt where
  location : UInt64
  value : UInt64
  type : RefType
  deriving DecidableEq

/-- The lists `_raw_CK` and `_raw_CC`. -/
structure RawRefs where
  ck : List RefAt := []
  cc : List RefAt := []

/-- What the assertions of `parseRaw` require. -/
structure TextSection where
  base : UInt64
  size : UInt64
  base_ne : base ≠ 0
  size_ne : size ≠ 0

/-- `ptrDiff i` is the difference of two pointers to words that are `i` bytes apart. It is defined
only if they are a multiple of eight bytes apart. -/
structure PtrDiff where
  ptrDiff : Nat → Nat
  exact : ∀ k, ptrDiff (8 * k) = k

section ParseRaw
variable (text : TextSection) (isFunctionStart : UInt64 → Bool) (diff : PtrDiff) (base : UInt64)
  (buf : List UInt8)

def isAbs (val : UInt64) : Bool :=
  text.base ≤ val && val < text.base + text.size && isFunctionStart val

def isOffset (val : UInt64) : Bool := val < text.size

def refLocation (i : Nat) : UInt64 := base + 8 * UInt64.ofNat (diff.ptrDiff i)

def parseWord (refs : RawRefs) (i : Nat) : RawRefs :=
  let val := word buf i
  let pos := refLocation diff base i
  { ck := if isAbs text isFunctionStart val then ⟨pos, val, .abs⟩ :: refs.ck else refs.ck
    cc := if isOffset text val then ⟨pos, val, .offset⟩ :: refs.cc else refs.cc }

def parseRaw (refs : RawRefs) : RawRefs :=
  (List.range (buf.length - 8)).foldl (parseWord text isFunctionStart diff base buf) refs

def absRef (location : Nat → UInt64) (i : Nat) : RefAt := ⟨location i, word buf i, .abs⟩

def offsetRef (location : Nat → UInt64) (i : Nat) : RefAt := ⟨location i, word buf i, .offset⟩

variable {text isFunctionStart diff base buf}

theorem foldl_parseWord (offsets : List Nat) (refs : RawRefs) :
    offsets.foldl (parseWord text isFunctionStart diff base buf) refs =
      { ck := ((offsets.filter fun i => isAbs text isFunctionStart (word buf i)).map
          (absRef buf (refLocation diff base))).reverse ++ refs.ck
        cc := ((offsets.filter fun i => isOffset text (word buf i)).map
          (offsetRef buf (refLocation diff base))).reverse ++ refs.cc } := by
  induction offsets generalizing refs with
  | nil => rfl
  | cons i offsets ih =>
      rw [List.foldl_cons, ih]
      simp only [List.filter_cons, parseWord]
      split_ifs <;> simp [absRef, offsetRef]

theorem refLocation_of_dvd {i : Nat} (aligned : 8 ∣ i) :
    refLocation diff base i = base + UInt64.ofNat i := by
  obtain ⟨k, rfl⟩ := aligned
  rw [refLocation, diff.exact, UInt64.ofNat_mul]
  rfl

theorem dvd_of_refLocation {i j : Nat} (same : refLocation diff base j = base + UInt64.ofNat i) :
    8 ∣ i := by
  have offsets : 8 * UInt64.ofNat (diff.ptrDiff j) = UInt64.ofNat i := add_left_cancel same
  have bytes := congrArg UInt64.toNat offsets
  rw [UInt64.toNat_mul, UInt64.toNat_ofNat', UInt64.toNat_ofNat'] at bytes
  change 8 * (diff.ptrDiff j % 2 ^ 64) % 2 ^ 64 = i % 2 ^ 64 at bytes
  omega

end ParseRaw

/-! ## What is missed -/

section Missed
variable {α : Type*} {n : Nat} {passes : Nat → Bool} {entry expected : Nat → α}

/-- A scan of the first `n` offsets finds what is to be found at one offset more. -/
theorem scan_perm_iff :
    ((List.range n).filter passes).map entry ~ ((List.range (n + 1)).filter passes).map expected ↔
      passes n = false ∧
        ((List.range n).filter passes).map entry ~ ((List.range n).filter passes).map expected := by
  rw [List.range_succ, List.filter_append, List.map_append]
  cases last : passes n with
  | false => simp [last]
  | true =>
      refine ⟨fun same => ?_, fun ⟨silent, _⟩ => nomatch silent⟩
      have lengths := same.length_eq
      simp [last] at lengths

theorem scan_perm_range_iff {bytes : List UInt8} :
    ((List.range (bytes.length - 8)).filter passes).map entry ~
        ((wordOffsets bytes).filter passes).map expected ↔
      (8 ≤ bytes.length → passes (bytes.length - 8) = false) ∧
        ((List.range (bytes.length - 8)).filter passes).map entry ~
          ((List.range (bytes.length - 8)).filter passes).map expected := by
  rcases Nat.lt_or_ge bytes.length 8 with short | long
  · have none : bytes.length - 8 = 0 := by omega
    have none' : bytes.length + 1 - 8 = 0 := by omega
    simp [wordOffsets, none, none', short]
  · have more : bytes.length + 1 - 8 = bytes.length - 8 + 1 := by omega
    simp [wordOffsets, more, scan_perm_iff, long]

end Missed

namespace CodeRanges
variable (r : CodeRanges) (sname : String) (s : Nat) (d : List UInt8)

/-- One entry for each offset at which an address of code is stored. -/
def ReadsAll : Prop :=
  (r.readSection sname s d).map (fun entry => (entry.location, entry.value)) ~
    ((wordOffsets d).filter fun i => r.inCode (word d i)).map fun i => (s + i, word d i)

theorem readsAll_iff :
    r.ReadsAll sname s d ↔ (8 ≤ d.length → r.inCode (word d (d.length - 8)) = false) := by
  unfold ReadsAll readSection
  rw [List.map_map]
  simp only [Function.comp_def]
  rw [scan_perm_range_iff, and_iff_left (List.Perm.refl _)]

end CodeRanges

section ParsesAll
variable (text : TextSection) (isFunctionStart : UInt64 → Bool) (diff : PtrDiff) (base : UInt64)
  (buf : List UInt8) (refs : RawRefs)

/-- One entry in each list for each offset that belongs there, in front of what the lists held
before. -/
def ParsesAll : Prop :=
  (parseRaw text isFunctionStart diff base buf refs).ck ~
      ((wordOffsets buf).filter fun i => isAbs text isFunctionStart (word buf i)).map
        (absRef buf fun i => base + UInt64.ofNat i) ++ refs.ck ∧
    (parseRaw text isFunctionStart diff base buf refs).cc ~
      ((wordOffsets buf).filter fun i => isOffset text (word buf i)).map
        (offsetRef buf fun i => base + UInt64.ofNat i) ++ refs.cc

/-- Locations are right if all of them are a multiple of eight bytes from the start. -/
theorem located_iff {passes : Nat → Bool} {offsets : List Nat} {ref : (Nat → UInt64) → Nat → RefAt}
    (location : ∀ f i, (ref f i).location = f i)
    (congr : ∀ f g i, f i = g i → ref f i = ref g i) :
    (offsets.filter passes).map (ref (refLocation diff base)) ~
        (offsets.filter passes).map (ref fun i => base + UInt64.ofNat i) ↔
      ∀ i ∈ offsets, passes i → 8 ∣ i := by
  constructor
  · intro same i inside passing
    have expected : ref (fun i => base + UInt64.ofNat i) i ∈
        (offsets.filter passes).map (ref fun i => base + UInt64.ofNat i) :=
      List.mem_map_of_mem (List.mem_filter.mpr ⟨inside, passing⟩)
    obtain ⟨j, -, reported⟩ := List.mem_map.mp (same.mem_iff.mpr expected)
    have locations := congrArg RefAt.location reported
    rw [location, location] at locations
    exact dvd_of_refLocation locations
  · intro aligned
    apply List.Perm.of_eq
    apply List.map_congr_left
    intro i member
    obtain ⟨inside, passing⟩ := List.mem_filter.mp member
    exact congr _ _ i (refLocation_of_dvd (aligned i inside passing))

theorem parsed_perm_iff {passes : Nat → Bool} {ref : (Nat → UInt64) → Nat → RefAt}
    (location : ∀ f i, (ref f i).location = f i) (congr : ∀ f g i, f i = g i → ref f i = ref g i)
    (before : List RefAt) :
    (((List.range (buf.length - 8)).filter passes).map (ref (refLocation diff base))).reverse ++
        before ~ ((wordOffsets buf).filter passes).map (ref fun i => base + UInt64.ofNat i) ++ before ↔
      ∀ i, i + 8 ≤ buf.length → passes i → 8 ∣ i ∧ i + 8 < buf.length := by
  rw [List.perm_append_right_iff, List.reverse_perm', scan_perm_range_iff,
    located_iff diff base location congr]
  constructor
  · rintro ⟨last, aligned⟩ i inside passing
    have notLast : i ≠ buf.length - 8 := by
      rintro rfl
      simp [last (by omega)] at passing
    exact ⟨aligned i (List.mem_range.mpr (by omega)) passing, by omega⟩
  · intro found
    refine ⟨fun long => ?_, fun i inside passing => ?_⟩
    · by_contra passing
      have room := (found (buf.length - 8) (by omega) (by simpa using passing)).2
      omega
    · have below := List.mem_range.mp inside
      exact (found i (by omega) passing).1

theorem parsesAll_iff :
    ParsesAll text isFunctionStart diff base buf refs ↔
      ∀ i, i + 8 ≤ buf.length →
        isAbs text isFunctionStart (word buf i) ∨ isOffset text (word buf i) →
        8 ∣ i ∧ i + 8 < buf.length := by
  unfold ParsesAll parseRaw
  rw [foldl_parseWord, parsed_perm_iff diff base buf (fun _ _ => rfl)
      (fun f g i same => by simp [absRef, same]),
    parsed_perm_iff diff base buf (fun _ _ => rfl) (fun f g i same => by simp [offsetRef, same])]
  constructor
  · rintro ⟨abs, offset⟩ i inside (passing | passing)
    · exact abs i inside passing
    · exact offset i inside passing
  · intro found
    exact ⟨fun i inside passing => found i inside (.inl passing),
      fun i inside passing => found i inside (.inr passing)⟩

end ParsesAll

def smallText : TextSection := ⟨0x400000, 0x1000, by decide, by decide⟩

def smallRanges : CodeRanges := ⟨0x400000, 0x401000, 0x3ff000, 0x3fffff⟩

/-- The quotient rounded down. -/
def truncated : PtrDiff := ⟨(· / 8), fun k => by simp⟩

end PathArmor.RawScan

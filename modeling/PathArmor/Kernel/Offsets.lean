import PathArmor.Library.Memory

/-!
# The offsets of the target

`ARMOR_IOC_GET_OFFSETS` tells the analyzer where the executable mappings of the target are. It fills
a `struct offsets_t` in memory that `kmalloc` returns as it is, without ever reading it, and copies
all of it to user space. So a call is described by the list of its stores.
-/

namespace PathArmor.Kernel
open PathArmor.Library

def maxLibs : Nat := 32
def maxLibnameLength : Nat := 128
def vmExec : UInt64 := 4

/-! ## The structure -/

/-- What is assigned in a `struct offsets_t`. -/
inductive OffsetsField
  | name (i : Nat) | start (i : Nat) | stop (i : Nat)
  | libs | indirectCallSource | loadFrom | armorLibEnter | armorLibReturn
  | pthreadCreate | pthreadCreateReturn
  deriving DecidableEq

namespace OffsetsField

def offset : OffsetsField → Nat
  | name i => 128 * i
  | start i => 4096 + 8 * i
  | stop i => 4352 + 8 * i
  | libs => 4608
  | indirectCallSource => 4616
  | loadFrom => 4624
  | armorLibEnter => 4632
  | armorLibReturn => 4640
  | pthreadCreate => 4648
  | pthreadCreateReturn => 4656

/-- The index, if the field is an element of an array. -/
def index? : OffsetsField → Option Nat
  | name i | start i | stop i => some i
  | _ => none

@[simp] theorem index?_name (i : Nat) : (name i).index? = some i := rfl

@[simp] theorem index?_start (i : Nat) : (start i).index? = some i := rfl

@[simp] theorem index?_stop (i : Nat) : (stop i).index? = some i := rfl

end OffsetsField

def sizeofOffsets : Nat := 4664

abbrev Store := OffsetsField × List UInt8

def wordStore (field : OffsetsField) (x : UInt64) : Store := (field, toBytes 8 x.toNat)

/-! ## The request -/

/-- `struct lbr_paths_kernel_copy` without the paths. -/
structure LbrPathsKernelCopy where
  indirectCallSource : UInt64
  loadFrom : UInt64
  armorLibEnter : UInt64
  armorLibReturn : UInt64
  pthreadCreate : UInt64
  pthreadCreateReturn : UInt64

/-- What is found out about the file of a mapping: `__get_free_page` or `d_path` may fail, the latter
with a negative number. -/
inductive VmFile
  | noPage
  | noPath (code : Nat)
  | path (pathname : List UInt8)

structure VmArea where
  vmStart : UInt64
  vmEnd : UInt64
  vmFlags : UInt64
  vmFile : Option VmFile

/-- `"<unknown>"` -/
def unknownName : List UInt8 := [60, 117, 110, 107, 110, 111, 119, 110, 62]

def strncpy (src : List UInt8) (n : Nat) : List UInt8 :=
  (src.takeWhile (· ≠ 0) ++ List.replicate n 0).take n

namespace VmArea
variable (vma : VmArea)

def isExec : Bool := vma.vmFlags &&& vmExec ≠ 0

/-- The bytes that are stored as the name, or the result of the call. -/
def nameBytes : Except Int (List UInt8) :=
  match vma.vmFile with
  | none => .ok (unknownName ++ [0])
  | some .noPage => .error (-12)
  | some (.noPath code) => .error (Int.negSucc code)
  | some (.path pathname) => .ok (strncpy pathname (maxLibnameLength - 1))

end VmArea

/-- The loop over the mappings with the number of entries so far: its stores, and the number of
entries at the end or the result of the call. -/
def scanMappings : List VmArea → Nat → List Store × Except Int Nat
  | [], i => ([], .ok i)
  | vma :: rest, i =>
      if !vma.isExec then scanMappings rest i
      else
        let range := [wordStore (.start i) vma.vmStart, wordStore (.stop i) vma.vmEnd]
        match vma.nameBytes with
        | .error code => (range, .error code)
        | .ok bytes =>
            let (stores, result) := scanMappings rest (i + 1)
            (range ++ (.name i, bytes) :: stores, result)

/-- What the kernel's own functions return; `uncopied` is the result of `copy_to_user`. -/
structure OffsetsCalls where
  down : Bool
  kmalloc : Bool
  mainTask : Bool
  activeMm : Bool
  uncopied : Nat

/-- The first `copied` bytes of the structure reach user space. -/
structure OffsetsRun where
  result : Int
  stores : List Store := []
  copied : Nat := 0

def tocopyStores (tocopy : LbrPathsKernelCopy) : List Store :=
  [wordStore .indirectCallSource tocopy.indirectCallSource, wordStore .loadFrom tocopy.loadFrom,
    wordStore .armorLibEnter tocopy.armorLibEnter, wordStore .armorLibReturn tocopy.armorLibReturn,
    wordStore .pthreadCreate tocopy.pthreadCreate,
    wordStore .pthreadCreateReturn tocopy.pthreadCreateReturn]

def armorIoctlGetOffsets (calls : OffsetsCalls) (tocopy : LbrPathsKernelCopy) (mmap : List VmArea) :
    OffsetsRun :=
  if !calls.down then { result := -512 }
  else if !calls.kmalloc then { result := -12 }
  else if !calls.mainTask || !calls.activeMm || mmap.isEmpty then
    { result := -22, stores := tocopyStores tocopy }
  else match scanMappings mmap 0 with
    | (stores, .error code) => { result := code, stores := tocopyStores tocopy ++ stores }
    | (stores, .ok libs) =>
        { result := if calls.uncopied = 0 then 0 else 1
          stores := tocopyStores tocopy ++ stores ++ [wordStore .libs (UInt64.ofNat libs)]
          copied := sizeofOffsets - calls.uncopied }

namespace OffsetsRun
variable (run : OffsetsRun)

/-- The memory after the stores into the structure at `offsets`. -/
def memory (m : Memory) (offsets : UInt64) : Memory :=
  m.writeAll offsets (run.stores.map fun store => (store.1.offset, store.2))

def copiedBytes (m : Memory) (offsets : UInt64) : List UInt8 :=
  (run.memory m offsets).read offsets run.copied

end OffsetsRun

/-! ## What is reported -/

/-- The name to report; it is known if the loop does not fail. -/
def VmArea.reportedName (vma : VmArea) : List UInt8 :=
  match vma.vmFile with
  | some (.path pathname) => pathname.takeWhile (· ≠ 0)
  | _ => unknownName

/-- The entry `i` of the structure at `offsets`, its name ended by a `NUL` and cut off if need be. -/
structure Reports (mem : Memory) (offsets : UInt64) (i : Nat) (vma : VmArea) : Prop where
  start : mem.load64 (offsets + UInt64.ofNat (OffsetsField.start i).offset) = vma.vmStart
  stop : mem.load64 (offsets + UInt64.ofNat (OffsetsField.stop i).offset) = vma.vmEnd
  name : ∃ shown, shown = vma.reportedName.take (maxLibnameLength - 1) ∧
    mem.read (offsets + UInt64.ofNat (OffsetsField.name i).offset) (shown.length + 1) = shown ++ [0]

/-- No array is overrun. -/
def InBounds (stores : List Store) : Prop :=
  ∀ store ∈ stores, ∀ i, store.1.index? = some i → i < maxLibs

def executable (mmap : List VmArea) : List VmArea := mmap.filter VmArea.isExec

/-- The arrays are not overrun, a successful call reports the executable mappings, and what is
copied does not depend on what the memory of the structure held before. -/
structure OffsetsRun.Exact (run : OffsetsRun) (mmap : List VmArea) : Prop where
  inBounds : InBounds run.stores
  entries : run.result = 0 → ∀ m offsets,
    (run.memory m offsets).load64 (offsets + UInt64.ofNat OffsetsField.libs.offset) =
      UInt64.ofNat (executable mmap).length ∧
    ∀ i vma, (executable mmap)[i]? = some vma → Reports (run.memory m offsets) offsets i vma
  determined : ∀ offsets m m', run.copiedBytes m offsets = run.copiedBytes m' offsets

/-! ## The loop -/

/-- How many entries are begun: the loop ends at the first name that cannot be found out. -/
def begun : List VmArea → Nat
  | [] => 0
  | vma :: rest =>
      if !vma.isExec then begun rest
      else match vma.nameBytes with
        | .error _ => 1
        | .ok _ => begun rest + 1

/-- How many bytes of the first entry's name are stored. -/
def cleanPrefix (mmap : List VmArea) : Nat :=
  match (executable mmap).head? with
  | none => 0
  | some vma => match vma.nameBytes with
    | .error _ => 0
    | .ok bytes => bytes.length

section Scan
variable {mmap rest : List VmArea} {vma : VmArea} {bytes : List UInt8} {code : Int} {i k libs : Nat}

theorem scanMappings_skip (skipped : vma.isExec = false) :
    scanMappings (vma :: rest) i = scanMappings rest i := by
  simp [scanMappings, skipped]

theorem scanMappings_fail (exec : vma.isExec = true) (failed : vma.nameBytes = .error code) :
    scanMappings (vma :: rest) i =
      ([wordStore (.start i) vma.vmStart, wordStore (.stop i) vma.vmEnd], .error code) := by
  simp [scanMappings, exec, failed]

theorem scanMappings_entry (exec : vma.isExec = true) (named : vma.nameBytes = .ok bytes) :
    scanMappings (vma :: rest) i =
      (wordStore (.start i) vma.vmStart :: wordStore (.stop i) vma.vmEnd :: (.name i, bytes) ::
        (scanMappings rest (i + 1)).1, (scanMappings rest (i + 1)).2) := by
  simp [scanMappings, exec, named]

/-- The entries are numbered without a gap. -/
theorem scanMappings_index {j : Nat} :
    (∃ store ∈ (scanMappings mmap i).1, store.1.index? = some j) ↔
      i ≤ j ∧ j < i + begun mmap := by
  induction mmap generalizing i with
  | nil => simp [scanMappings, begun]
  | cons vma rest ih =>
      cases exec : vma.isExec with
      | false => simp only [scanMappings_skip exec, ih, begun, exec, Bool.not_false, if_true]
      | true =>
          cases name : vma.nameBytes with
          | error code =>
              rw [scanMappings_fail exec name]
              simp only [begun, exec, name, wordStore, List.exists_mem_cons_iff, List.not_mem_nil,
                OffsetsField.index?_start, OffsetsField.index?_stop, Option.some.injEq, false_and,
                exists_false, or_false, Bool.not_true, Bool.false_eq_true, if_false]
              omega
          | ok bytes =>
              rw [scanMappings_entry exec name]
              simp only [begun, exec, name, wordStore, List.exists_mem_cons_iff, ih,
                OffsetsField.index?_start, OffsetsField.index?_stop, OffsetsField.index?_name,
                Option.some.injEq, Bool.not_true, Bool.false_eq_true, if_false]
              omega

theorem executable_cons_skip {vma : VmArea} {rest : List VmArea} (exec : vma.isExec = false) :
    executable (vma :: rest) = executable rest := by
  simp [executable, exec]

theorem executable_cons_entry {vma : VmArea} {rest : List VmArea} (exec : vma.isExec = true) :
    executable (vma :: rest) = vma :: executable rest := by
  simp [executable, exec]

theorem scanMappings_ok_iff : (scanMappings mmap i).2 = .ok libs ↔
    libs = i + (executable mmap).length ∧ ∀ vma ∈ executable mmap, ∃ bytes, vma.nameBytes = .ok bytes := by
  induction mmap generalizing i with
  | nil => simp [scanMappings, executable, eq_comm]
  | cons vma rest ih =>
      cases exec : vma.isExec with
      | false => rw [scanMappings_skip exec, executable_cons_skip exec, ih]
      | true =>
          rw [executable_cons_entry exec, List.forall_mem_cons, List.length_cons]
          cases name : vma.nameBytes with
          | error code => simp [scanMappings_fail exec name]
          | ok bytes =>
              rw [scanMappings_entry exec name, ih]
              simp [Nat.add_assoc, Nat.add_comm 1]

theorem scanMappings_error (failed : (scanMappings mmap i).2 = .error code) : code < 0 := by
  induction mmap generalizing i with
  | nil => cases failed
  | cons vma rest ih =>
      cases exec : vma.isExec with
      | false => exact ih (scanMappings_skip exec ▸ failed)
      | true =>
          cases name : vma.nameBytes with
          | error code' =>
              rw [scanMappings_fail exec name] at failed
              cases failed
              unfold VmArea.nameBytes at name
              split at name <;> cases name
              · decide
              · exact Int.negSucc_lt_zero _
          | ok bytes =>
              rw [scanMappings_entry exec name] at failed
              exact ih failed

theorem mem_scanMappings_name : (.name i, bytes) ∈ (scanMappings mmap i).1 ↔
    ∃ vma, (executable mmap).head? = some vma ∧ vma.nameBytes = .ok bytes := by
  induction mmap with
  | nil => simp [scanMappings, executable]
  | cons vma rest ih =>
      cases exec : vma.isExec with
      | false => rw [scanMappings_skip exec, executable_cons_skip exec, ih]
      | true =>
          rw [executable_cons_entry exec]
          cases name : vma.nameBytes with
          | error code => simp [scanMappings_fail exec name, name, wordStore]
          | ok bytes' =>
              have later : (.name i, bytes) ∉ (scanMappings rest (i + 1)).1 := by
                intro member
                have := (scanMappings_index.mp ⟨_, member, OffsetsField.index?_name i⟩).1
                omega
              simp [scanMappings_entry exec name, name, wordStore, later, eq_comm]

theorem length_strncpy (src : List UInt8) (n : Nat) : (strncpy src n).length = n := by
  simp [strncpy]

theorem length_nameBytes (named : vma.nameBytes = .ok bytes) : bytes.length < maxLibnameLength := by
  unfold VmArea.nameBytes at named
  split at named
  · cases named
    decide
  · cases named
  · cases named
  · cases named
    rw [length_strncpy]
    decide

/-- A word, or a name that leaves the last byte of its array. -/
def Store.Fits (store : Store) : Prop :=
  match store.1 with
  | .name _ => store.2.length < maxLibnameLength
  | _ => store.2.length = 8

/-- Every store of the loop is one of three. -/
theorem forall_scanMappings {P : Store → Prop} (start : ∀ i x, P (wordStore (.start i) x))
    (stop : ∀ i x, P (wordStore (.stop i) x))
    (name : ∀ i vma bytes, VmArea.nameBytes vma = .ok bytes → P (.name i, bytes)) :
    ∀ store ∈ (scanMappings mmap i).1, P store := by
  induction mmap generalizing i with
  | nil => exact List.forall_mem_nil _
  | cons vma rest ih =>
      cases exec : vma.isExec with
      | false =>
          rw [scanMappings_skip exec]
          exact ih
      | true =>
          cases named : vma.nameBytes with
          | error code =>
              rw [scanMappings_fail exec named]
              exact List.forall_mem_cons.mpr ⟨start _ _, List.forall_mem_singleton.mpr (stop _ _)⟩
          | ok bytes =>
              rw [scanMappings_entry exec named]
              refine List.forall_mem_cons.mpr ⟨start _ _, List.forall_mem_cons.mpr ⟨stop _ _, ?_⟩⟩
              exact List.forall_mem_cons.mpr ⟨name i vma bytes named, ih⟩

theorem scanMappings_fits : ∀ store ∈ (scanMappings mmap i).1, Store.Fits store :=
  forall_scanMappings (fun _ _ => length_toBytes _ _) (fun _ _ => length_toBytes _ _)
    fun _ _ _ named => length_nameBytes named

theorem scanMappings_indexed : ∀ store ∈ (scanMappings mmap i).1, store.1.index? ≠ none :=
  forall_scanMappings (fun i _ => Option.some_ne_none i) (fun i _ => Option.some_ne_none i)
    fun i _ _ _ => Option.some_ne_none i

end Scan

/-! ## The stores of a call -/

section Call
variable {calls : OffsetsCalls} {tocopy : LbrPathsKernelCopy} {mmap : List VmArea} {run : OffsetsRun}
  {k : Nat}

/-- The call gets to the mappings. -/
def OffsetsCalls.Scan (calls : OffsetsCalls) (mmap : List VmArea) : Prop :=
  calls.down ∧ calls.kmalloc ∧ calls.mainTask ∧ calls.activeMm ∧ mmap ≠ []

theorem index?_tocopyStores : ∀ store ∈ tocopyStores tocopy, store.1.index? = none := by
  simp [tocopyStores, wordStore, OffsetsField.index?]

theorem fits_tocopyStores : ∀ store ∈ tocopyStores tocopy, Store.Fits store := by
  simp [tocopyStores, wordStore, Store.Fits, length_toBytes]

theorem run_of_not_scan (tocopy : LbrPathsKernelCopy) (notScan : ¬ calls.Scan mmap) :
    (armorIoctlGetOffsets calls tocopy mmap).result ≠ 0 ∧
      (armorIoctlGetOffsets calls tocopy mmap).copied = 0 ∧
      (armorIoctlGetOffsets calls tocopy mmap).stores ⊆ tocopyStores tocopy := by
  unfold armorIoctlGetOffsets
  split
  · simp
  split
  · simp
  split
  · simp
  · refine absurd ?_ notScan
    simp_all [OffsetsCalls.Scan]

/-- The stores of a call that gets to the end of the mappings. -/
def filledStores (tocopy : LbrPathsKernelCopy) (mmap : List VmArea) : List Store :=
  tocopyStores tocopy ++ (scanMappings mmap 0).1 ++
    [wordStore .libs (UInt64.ofNat (executable mmap).length)]

def filledRun (calls : OffsetsCalls) (tocopy : LbrPathsKernelCopy) (mmap : List VmArea) :
    OffsetsRun where
  result := if calls.uncopied = 0 then 0 else 1
  stores := filledStores tocopy mmap
  copied := sizeofOffsets - calls.uncopied

def Named (mmap : List VmArea) : Prop := ∀ vma ∈ executable mmap, ∃ bytes, vma.nameBytes = .ok bytes

theorem run_of_scan (scan : calls.Scan mmap) : armorIoctlGetOffsets calls tocopy mmap =
    match scanMappings mmap 0 with
    | (stores, .error code) => { result := code, stores := tocopyStores tocopy ++ stores }
    | (stores, .ok libs) =>
        { result := if calls.uncopied = 0 then 0 else 1
          stores := tocopyStores tocopy ++ stores ++ [wordStore .libs (UInt64.ofNat libs)]
          copied := sizeofOffsets - calls.uncopied } := by
  obtain ⟨down, kmalloc, mainTask, activeMm, notEmpty⟩ := scan
  have notNull : mmap.isEmpty = false := List.isEmpty_eq_false_iff.mpr notEmpty
  simp only [armorIoctlGetOffsets, down, kmalloc, mainTask, activeMm, notNull, Bool.not_true,
    Bool.or_false, Bool.false_eq_true, if_false]

theorem run_of_named (scan : calls.Scan mmap) (named : Named mmap) :
    armorIoctlGetOffsets calls tocopy mmap = filledRun calls tocopy mmap := by
  have scanned : scanMappings mmap 0 =
      ((scanMappings mmap 0).1, .ok (executable mmap).length) :=
    Prod.ext rfl (scanMappings_ok_iff.mpr ⟨(Nat.zero_add _).symm, named⟩)
  rw [run_of_scan scan, scanned]
  rfl

theorem run_of_not_named (tocopy : LbrPathsKernelCopy) (scan : calls.Scan mmap) (notNamed : ¬ Named mmap) :
    ∃ code < 0, armorIoctlGetOffsets calls tocopy mmap =
      { result := code, stores := tocopyStores tocopy ++ (scanMappings mmap 0).1 } := by
  cases result : (scanMappings mmap 0).2 with
  | ok libs => exact absurd (scanMappings_ok_iff.mp result).2 notNamed
  | error code =>
      have scanned : scanMappings mmap 0 = ((scanMappings mmap 0).1, .error code) :=
        Prod.ext rfl result
      refine ⟨code, scanMappings_error result, ?_⟩
      rw [run_of_scan scan, scanned]

theorem inBounds_tocopyStores : InBounds (tocopyStores tocopy) := by
  intro store member i index
  rw [index?_tocopyStores store member] at index
  cases index

theorem inBounds_scan_iff (tocopy : LbrPathsKernelCopy) (mmap : List VmArea) :
    InBounds (tocopyStores tocopy ++ (scanMappings mmap 0).1) ↔ begun mmap ≤ maxLibs := by
  constructor
  · intro inBounds
    by_contra many
    obtain ⟨store, member, index⟩ := scanMappings_index.mpr
      (⟨Nat.zero_le maxLibs, by omega⟩ : 0 ≤ maxLibs ∧ maxLibs < 0 + begun mmap)
    exact Nat.lt_irrefl _ (inBounds store (List.mem_append_right _ member) maxLibs index)
  · intro few
    refine List.forall_mem_append.mpr ⟨inBounds_tocopyStores, fun store member i index => ?_⟩
    have := (scanMappings_index.mp ⟨store, member, index⟩).2
    omega

theorem inBounds_filled_iff (tocopy : LbrPathsKernelCopy) (mmap : List VmArea) :
    InBounds (filledStores tocopy mmap) ↔ begun mmap ≤ maxLibs := by
  rw [← inBounds_scan_iff tocopy]
  refine List.forall_mem_append.trans (and_iff_left ?_)
  simp [wordStore, OffsetsField.index?]

theorem fits_filledStores : ∀ store ∈ filledStores tocopy mmap, Store.Fits store := by
  refine List.forall_mem_append.mpr ⟨List.forall_mem_append.mpr ⟨fits_tocopyStores,
    scanMappings_fits⟩, ?_⟩
  exact List.forall_mem_singleton.mpr (length_toBytes _ _)

theorem Store.Fits.end_le {store : Store} (fits : store.Fits)
    (inBounds : ∀ i, store.1.index? = some i → i < maxLibs) :
    store.1.offset + store.2.length ≤ sizeofOffsets := by
  obtain ⟨field, bytes⟩ := store
  cases field <;> simp [Store.Fits, OffsetsField.offset, sizeofOffsets, maxLibs, maxLibnameLength,
    OffsetsField.index?] at fits inBounds ⊢ <;> omega

theorem cleanPrefix_lt : cleanPrefix mmap < maxLibnameLength := by
  unfold cleanPrefix
  split
  · decide
  · split
    · decide
    · rename_i named
      exact length_nameBytes named

theorem lt_cleanPrefix_iff : k < cleanPrefix mmap ↔
    ∃ bytes, (.name 0, bytes) ∈ (scanMappings mmap 0).1 ∧ k < bytes.length := by
  simp only [mem_scanMappings_name, cleanPrefix]
  cases (executable mmap).head? with
  | none => simp
  | some vma => cases name : vma.nameBytes <;> simp [name]

theorem OffsetsField.eq_name_zero {field : OffsetsField} (below : field.offset < maxLibnameLength) :
    field = name 0 := by
  cases field with
  | name i =>
      obtain rfl : i = 0 := by
        simp only [offset, maxLibnameLength] at below
        omega
      rfl
  | _ =>
      simp only [offset, maxLibnameLength] at below
      omega

/-- Within the first name, the stores cover what the first entry's name has stored. -/
theorem covers_name (below : k < maxLibnameLength) :
    Memory.Covers ((filledStores tocopy mmap).map fun store => (store.1.offset, store.2)) k ↔
      k < cleanPrefix mmap := by
  rw [lt_cleanPrefix_iff]
  constructor
  · rintro ⟨_, mapped, start, stop⟩
    obtain ⟨⟨field, bytes⟩, member, rfl⟩ := List.mem_map.mp mapped
    have first : field.offset ≤ k := start
    obtain rfl : field = .name 0 := OffsetsField.eq_name_zero (by omega)
    have noIndex : ((.name 0, bytes) : Store) ∉ tocopyStores tocopy := fun listed =>
      Option.some_ne_none _ (index?_tocopyStores _ listed)
    refine ⟨bytes, ?_, by simpa [OffsetsField.offset] using stop⟩
    simpa [filledStores, noIndex, wordStore] using member
  · rintro ⟨bytes, member, inside⟩
    refine ⟨(0, bytes), List.mem_map.mpr ⟨(.name 0, bytes), ?_, rfl⟩, Nat.zero_le k, ?_⟩
    · simp [filledStores, member]
    · simpa using inside

theorem OffsetsRun.determined_iff (run : OffsetsRun)
    (bounds : ∀ store ∈ run.stores, store.1.offset + store.2.length ≤ sizeofOffsets)
    (copied : run.copied ≤ sizeofOffsets) :
    (∀ offsets m m', run.copiedBytes m offsets = run.copiedBytes m' offsets) ↔
      ∀ k < run.copied,
        Memory.Covers (run.stores.map fun store => (store.1.offset, store.2)) k := by
  have small : sizeofOffsets ≤ 2 ^ 64 := by decide
  have bounds' : ∀ store ∈ run.stores.map fun store => (store.1.offset, store.2),
      store.1 + store.2.length ≤ 2 ^ 64 :=
    List.forall_mem_map.mpr fun store member => (bounds store member).trans small
  constructor
  · intro determined k below
    by_contra stale
    -- Two memories that differ everywhere still differ in the byte that no store covers.
    have byte (m : Memory) : (run.copiedBytes m 0)[k]? = some (m (0 + UInt64.ofNat k)) := by
      have kept : run.memory m 0 (0 + UInt64.ofNat k) = m (0 + UInt64.ofNat k) :=
        Memory.writeAll_of_notCovers (by omega) bounds' stale
      rw [← kept]
      simp [copiedBytes, Memory.read, region, below]
    have same := (byte fun _ => 0).symm.trans ((congrArg (·[k]?) (determined 0 _ _)).trans (byte fun _ => 1))
    simp at same
  · intro covered offsets m m'
    apply Memory.read_congr
    intro k below
    exact Memory.writeAll_of_covers m m' (by omega) bounds' (covered k below)

theorem OffsetsRun.copiedBytes_of_none {run : OffsetsRun} (nothing : run.copied = 0) {m : Memory}
    {offsets : UInt64} : run.copiedBytes m offsets = [] := by
  simp [copiedBytes, nothing, Memory.read, region]

theorem exact_of_not_scan (notScan : ¬ calls.Scan mmap) :
    (armorIoctlGetOffsets calls tocopy mmap).Exact mmap := by
  obtain ⟨failed, copied, stores⟩ := run_of_not_scan tocopy notScan
  refine ⟨?_, fun result => absurd result failed, ?_⟩
  · intro store member i index
    rw [index?_tocopyStores store (stores member)] at index
    cases index
  · intro offsets m m'
    rw [OffsetsRun.copiedBytes_of_none copied, OffsetsRun.copiedBytes_of_none copied]

theorem exact_failed_iff {code : Int} (negative : code < 0) :
    OffsetsRun.Exact { result := code, stores := tocopyStores tocopy ++ (scanMappings mmap 0).1 }
      mmap ↔ begun mmap ≤ maxLibs := by
  rw [← inBounds_scan_iff tocopy]
  exact ⟨fun exact => exact.inBounds, fun inBounds =>
    ⟨inBounds, fun success => absurd success negative.ne, fun _ _ _ => by
      rw [OffsetsRun.copiedBytes_of_none rfl, OffsetsRun.copiedBytes_of_none rfl]⟩⟩

theorem exact_filled_iff : (filledRun calls tocopy mmap).Exact mmap ↔
    begun mmap ≤ maxLibs ∧ sizeofOffsets - calls.uncopied ≤ cleanPrefix mmap := by
  have clean : cleanPrefix mmap < maxLibnameLength := cleanPrefix_lt
  have ends (inBounds : InBounds (filledStores tocopy mmap)) : ∀ store ∈ filledStores tocopy mmap,
      store.1.offset + store.2.length ≤ sizeofOffsets := fun store member =>
    (fits_filledStores store member).end_le (inBounds store member)
  have determined (inBounds : InBounds (filledStores tocopy mmap)) :=
    OffsetsRun.determined_iff (filledRun calls tocopy mmap) (ends inBounds) (Nat.sub_le _ _)
  constructor
  · intro exact
    refine ⟨(inBounds_filled_iff tocopy mmap).mp exact.inBounds, ?_⟩
    by_contra beyond
    have covered := (determined exact.inBounds).mp exact.determined (cleanPrefix mmap)
      (Nat.lt_of_not_le beyond)
    exact Nat.lt_irrefl _ ((covers_name clean).mp covered)
  · rintro ⟨few, short⟩
    have inBounds := (inBounds_filled_iff tocopy mmap).mpr few
    refine ⟨inBounds, ?_, (determined inBounds).mpr fun k below => ?_⟩
    · -- A complete copy is longer than any name.
      intro success
      have complete : calls.uncopied = 0 := by
        by_contra partly
        simp [filledRun, partly] at success
      simp only [complete, sizeofOffsets, maxLibnameLength] at short clean
      omega
    · have inside : k < cleanPrefix mmap := lt_of_lt_of_le below short
      exact (covers_name (inside.trans clean)).mpr inside

/-! ## What does hold -/

theorem mem_scanMappings_entry {i j : Nat} {vma : VmArea} (named : Named mmap)
    (listed : (executable mmap)[j]? = some vma) :
    wordStore (.start (i + j)) vma.vmStart ∈ (scanMappings mmap i).1 ∧
      wordStore (.stop (i + j)) vma.vmEnd ∈ (scanMappings mmap i).1 ∧
      ∀ bytes, vma.nameBytes = .ok bytes → (.name (i + j), bytes) ∈ (scanMappings mmap i).1 := by
  induction mmap generalizing i j with
  | nil => simp [executable] at listed
  | cons first rest ih =>
      cases exec : first.isExec with
      | false =>
          rw [Named, executable_cons_skip exec] at named
          rw [executable_cons_skip exec] at listed
          rw [scanMappings_skip exec]
          exact ih named listed
      | true =>
          rw [Named, executable_cons_entry exec] at named
          rw [executable_cons_entry exec] at listed
          obtain ⟨⟨bytes, name⟩, named'⟩ := List.forall_mem_cons.mp named
          rw [scanMappings_entry exec name]
          cases j with
          | zero =>
              cases listed
              simp [name, eq_comm]
          | succ j =>
              have later := ih (i := i + 1) named' (by simpa using listed)
              rw [Nat.add_assoc, Nat.add_comm 1] at later
              simp only [List.mem_cons]
              exact ⟨.inr (.inr (.inr later.1)), .inr (.inr (.inr later.2.1)),
                fun bytes' name' => .inr (.inr (.inr (later.2.2 bytes' name')))⟩

theorem nodup_scanMappings (i : Nat) : ((scanMappings mmap i).1.map Prod.fst).Nodup := by
  induction mmap generalizing i with
  | nil => exact List.nodup_nil
  | cons vma rest ih =>
      cases exec : vma.isExec with
      | false =>
          rw [scanMappings_skip exec]
          exact ih i
      | true =>
          cases name : vma.nameBytes with
          | error code => simp [scanMappings_fail exec name, wordStore]
          | ok bytes =>
              have later (field : OffsetsField) (index : field.index? = some i) :
                  field ∉ (scanMappings rest (i + 1)).1.map Prod.fst := by
                intro member
                obtain ⟨store, listed, rfl⟩ := List.mem_map.mp member
                have := (scanMappings_index.mp ⟨store, listed, index⟩).1
                omega
              have start := later (.start i) rfl
              have stop := later (.stop i) rfl
              have name' := later (.name i) rfl
              rw [scanMappings_entry exec name]
              simp only [List.map_cons, List.nodup_cons, wordStore, List.mem_cons, not_or]
              exact ⟨⟨by simp, by simp, start⟩, ⟨by simp, stop⟩, name', ih (i + 1)⟩

/-- The field that starts at an offset. -/
def fieldAt (k : Nat) : OffsetsField :=
  if k < 4096 then .name (k / 128)
  else if k < 4352 then .start ((k - 4096) / 8)
  else if k < 4608 then .stop ((k - 4352) / 8)
  else if k = 4608 then .libs
  else if k = 4616 then .indirectCallSource
  else if k = 4624 then .loadFrom
  else if k = 4632 then .armorLibEnter
  else if k = 4640 then .armorLibReturn
  else if k = 4648 then .pthreadCreate
  else .pthreadCreateReturn

theorem fieldAt_offset {field : OffsetsField} (inBounds : ∀ i, field.index? = some i → i < maxLibs) :
    fieldAt field.offset = field := by
  cases field with
  | name i | start i | stop i =>
      have below : i < 32 := inBounds i rfl
      unfold OffsetsField.offset fieldAt
      grind
  | _ => rfl

/-- Names are in the first part, a multiple of their size apart, and words in the second. -/
theorem Store.Fits.place {store : Store} (fits : store.Fits)
    (inBounds : ∀ i, store.1.index? = some i → i < maxLibs) :
    (128 ∣ store.1.offset ∧ store.1.offset + 128 ≤ 4096 ∧ store.2.length ≤ 128) ∨
      (8 ∣ store.1.offset ∧ 4096 ≤ store.1.offset ∧ store.2.length = 8) := by
  obtain ⟨field, bytes⟩ := store
  cases field <;> simp [Store.Fits, OffsetsField.offset, maxLibs, maxLibnameLength,
    OffsetsField.index?] at fits inBounds ⊢ <;> omega

theorem Store.Fits.apart {store store' : Store} (fits : store.Fits) (fits' : store'.Fits)
    (inBounds : ∀ i, store.1.index? = some i → i < maxLibs)
    (inBounds' : ∀ i, store'.1.index? = some i → i < maxLibs) (ne : store.1 ≠ store'.1) :
    store.1.offset + store.2.length ≤ store'.1.offset ∨
      store'.1.offset + store'.2.length ≤ store.1.offset := by
  have offsets : store.1.offset ≠ store'.1.offset := by
    intro same
    apply ne
    rw [← fieldAt_offset inBounds, ← fieldAt_offset inBounds', same]
  have place := fits.place inBounds
  have place' := fits'.place inBounds'
  omega

theorem nodup_filledStores : ((filledStores tocopy mmap).map Prod.fst).Nodup := by
  have indexed : ∀ field ∈ (scanMappings mmap 0).1.map Prod.fst, field.index? ≠ none :=
    List.forall_mem_map.mpr scanMappings_indexed
  have unindexed : ∀ field ∈ (tocopyStores tocopy).map Prod.fst, field.index? = none :=
    List.forall_mem_map.mpr index?_tocopyStores
  have tocopyNodup : ((tocopyStores tocopy).map Prod.fst).Nodup := by simp [tocopyStores, wordStore]
  rw [filledStores, List.map_append, List.map_append]
  refine (tocopyNodup.append (nodup_scanMappings 0) ?_).append (List.nodup_singleton _) ?_
  · exact fun field first second => indexed field second (unindexed field first)
  · intro field listed libs
    obtain rfl : field = .libs := List.mem_singleton.mp libs
    rcases List.mem_append.mp listed with first | second
    · simp [tocopyStores, wordStore] at first
    · exact indexed _ second rfl

theorem read_filledStores (calls : OffsetsCalls) {store : Store} (few : begun mmap ≤ maxLibs)
    (member : store ∈ filledStores tocopy mmap) (m : Memory) (offsets : UInt64) :
    ((filledRun calls tocopy mmap).memory m offsets).read (offsets + UInt64.ofNat store.1.offset)
      store.2.length = store.2 := by
  have inBounds := (inBounds_filled_iff tocopy mmap).mpr few
  have fits : ∀ store ∈ filledStores tocopy mmap, Store.Fits store := fits_filledStores
  have small : sizeofOffsets ≤ 2 ^ 64 := by decide
  have ends (store : Store) (member : store ∈ filledStores tocopy mmap) :
      store.1.offset + store.2.length ≤ 2 ^ 64 :=
    ((fits store member).end_le (inBounds store member)).trans small
  have nodup : ((filledStores tocopy mmap).map Prod.fst).Nodup := nodup_filledStores
  change (m.writeAll offsets ((filledStores tocopy mmap).map _)).read _ _ = _
  obtain ⟨before, after, split⟩ := List.append_of_mem member
  rw [split] at nodup fits ends inBounds ⊢
  have later (store' : Store) (member' : store' ∈ after) :
      store' ∈ before ++ store :: after :=
    List.mem_append_right _ (List.mem_cons_of_mem _ member')
  rw [List.map_append, List.map_cons]
  refine Memory.read_writeAll (ends store (split ▸ member)) ?_ ?_
  · exact List.forall_mem_map.mpr fun store' member' => ends store' (later store' member')
  · refine List.forall_mem_map.mpr fun store' member' => ?_
    have ne : store.1 ≠ store'.1 := by
      rw [List.map_append, List.map_cons] at nodup
      have behind := (List.nodup_cons.mp (List.nodup_append.mp nodup).2.1).1
      exact fun same => behind (List.mem_map.mpr ⟨store', member', same.symm⟩)
    exact (fits store (split ▸ member)).apart (fits store' (later store' member'))
      (inBounds store (split ▸ member)) (inBounds store' (later store' member')) ne

theorem take_strncpy {src : List UInt8} {n : Nat} (short : (src.takeWhile (· ≠ 0)).length < n) :
    (strncpy src n).take ((src.takeWhile (· ≠ 0)).length + 1) = src.takeWhile (· ≠ 0) ++ [0] := by
  unfold strncpy
  generalize src.takeWhile (· ≠ 0) = string at short ⊢
  have first : (List.replicate n (0 : UInt8)).take 1 = [0] := by
    rw [List.take_replicate, Nat.min_eq_left (by omega)]
    rfl
  rw [List.take_take, Nat.min_eq_left (by omega), List.take_append, List.take_of_length_le (by omega),
    Nat.add_sub_cancel_left, first]

theorem take_nameBytes {vma : VmArea} {bytes : List UInt8} (named : vma.nameBytes = .ok bytes)
    (short : vma.reportedName.length < maxLibnameLength - 1) :
    vma.reportedName.length + 1 ≤ bytes.length ∧
      bytes.take (vma.reportedName.length + 1) = vma.reportedName ++ [0] := by
  unfold VmArea.nameBytes at named
  unfold VmArea.reportedName at short ⊢
  split at named <;> cases named
  · rename_i anonymous
    simp [anonymous]
  · rename_i pathname path
    simp only [path] at short ⊢
    rw [length_strncpy]
    exact ⟨short, take_strncpy short⟩

/-- With room for all mappings, the ranges and their number are right, and so are the names that
leave room for a `NUL`. -/
theorem reports_of_few (scan : calls.Scan mmap) (named : Named mmap) (few : begun mmap ≤ maxLibs)
    (m : Memory) (offsets : UInt64) :
    let mem := (armorIoctlGetOffsets calls tocopy mmap).memory m offsets
    mem.load64 (offsets + UInt64.ofNat OffsetsField.libs.offset) =
        UInt64.ofNat (executable mmap).length ∧
      ∀ i vma, (executable mmap)[i]? = some vma →
        mem.load64 (offsets + UInt64.ofNat (OffsetsField.start i).offset) = vma.vmStart ∧
        mem.load64 (offsets + UInt64.ofNat (OffsetsField.stop i).offset) = vma.vmEnd ∧
        (vma.reportedName.length < maxLibnameLength - 1 → Reports mem offsets i vma) := by
  have word {field : OffsetsField} {x : UInt64}
      (member : wordStore field x ∈ filledStores tocopy mmap) :
      ((filledRun calls tocopy mmap).memory m offsets).load64 (offsets + UInt64.ofNat field.offset) =
        x := by
    apply Memory.load64_of_read
    have stored := read_filledStores calls few member m offsets
    rwa [show (wordStore field x).2.length = 8 from length_toBytes _ _] at stored
  rw [run_of_named scan named]
  refine ⟨word (by simp [filledStores]), fun i vma listed => ?_⟩
  have entry := mem_scanMappings_entry (i := 0) named listed
  rw [Nat.zero_add] at entry
  have scanned {store : Store} (member : store ∈ (scanMappings mmap 0).1) :
      store ∈ filledStores tocopy mmap := by
    simp [filledStores, member]
  have start := word (scanned entry.1)
  have stop := word (scanned entry.2.1)
  refine ⟨start, stop, fun short => ⟨start, stop, _, rfl, ?_⟩⟩
  obtain ⟨bytes, name⟩ := named vma (List.mem_of_getElem? listed)
  obtain ⟨long, shown⟩ := take_nameBytes name short
  have stored := read_filledStores calls few (scanned (entry.2.2 bytes name)) m offsets
  rw [List.take_of_length_le (by omega), ← shown, ← Memory.take_read _ _ long, stored]

/-- No successful call is exact: the last byte of the first name is never stored. -/
theorem getOffsets_exact_iff (calls : OffsetsCalls) (tocopy : LbrPathsKernelCopy)
    (mmap : List VmArea) :
    (armorIoctlGetOffsets calls tocopy mmap).Exact mmap ↔
      (calls.Scan mmap → begun mmap ≤ maxLibs ∧
        (Named mmap → sizeofOffsets - calls.uncopied ≤ cleanPrefix mmap)) := by
  by_cases scan : calls.Scan mmap
  · by_cases named : Named mmap
    · rw [run_of_named scan named, exact_filled_iff]
      simp only [scan, named, true_imp_iff]
    · obtain ⟨code, negative, run⟩ := run_of_not_named tocopy scan named
      rw [run, exact_failed_iff negative]
      simp only [scan, named, true_imp_iff, false_imp_iff, and_true]
  · exact iff_of_true (exact_of_not_scan scan) fun scan' => absurd scan' scan

end Call

/-- One executable mapping is enough for a byte of the old memory to be copied, and a thirty-third
one overwrites the first element of the next array. -/
theorem getOffsets_inexact :
    let calls : OffsetsCalls := ⟨true, true, true, true, 0⟩
    let tocopy : LbrPathsKernelCopy := ⟨0, 0, 0, 0, 0, 0⟩
    let vma : VmArea := ⟨0x400000, 0x401000, vmExec, none⟩
    let one := armorIoctlGetOffsets calls tocopy [vma]
    let many := armorIoctlGetOffsets calls tocopy (List.replicate 33 vma)
    (one.result = 0 ∧ one.memory (fun _ => 0) 0 127 = 0 ∧ one.memory (fun _ => 1) 0 127 = 1 ∧
      ¬ one.Exact [vma]) ∧
    many.result = 0 ∧ wordStore (.start 32) 0x400000 ∈ many.stores ∧
      ¬ many.Exact (List.replicate 33 vma) := by
  refine ⟨⟨by decide +kernel, by decide +kernel, by decide +kernel, ?_⟩, by decide +kernel,
    by decide +kernel, ?_⟩
  · intro exact
    have same := congrArg (·[127]?) (exact.determined 0 (fun _ => 0) fun _ => 1)
    revert same
    decide +kernel
  · intro exact
    have overrun := exact.inBounds (wordStore (.start 32) 0x400000) (by decide +kernel) 32 rfl
    revert overrun
    decide

end PathArmor.Kernel

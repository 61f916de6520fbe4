import PathArmor.LbrState
import PathArmor.Library.Memory

/-!
# The state file

`struct lbr_paths` and what hangs on it is packed into one block of memory, written to a file, read
back and linked, by the analyzer or by the kernel. `none` stands for an execution that does not come
back: `my_malloc` exits, and the loops count with an `int`, which must not overflow.
-/

namespace PathArmor.StateFile
open Library

structure LbrFunction where
  fptr : UInt64
  fname : List UInt8

structure HashedState extends LbrValidState where
  hash : List UInt8

structure LbrValidStateMap where
  toAddr : UInt64
  state : List HashedState

/-- What a `struct lbr_paths` stands for. -/
structure LbrPaths where
  func : List LbrFunction
  addressTaken : List UInt64
  stateMap : List LbrValidStateMap

/-! ## Structures in memory -/

section Layout
variable (m : Memory) (paths : UInt64)

def pathsFuncs : UInt32 := m.load32 paths
def pathsFunc : UInt64 := m.load64 (paths + UInt64.ofNat 8)
def pathsAts : UInt32 := m.load32 (paths + UInt64.ofNat 16)
def pathsAddressTaken : UInt64 := m.load64 (paths + UInt64.ofNat 24)
def pathsStateMaps : UInt32 := m.load32 (paths + UInt64.ofNat 32)
def pathsStateMap : UInt64 := m.load64 (paths + UInt64.ofNat 40)

/-- The address of `paths->state_map[i]`. -/
def mapEntry (i : Nat) : UInt64 := pathsStateMap m paths + UInt64.ofNat (24 * i)

def mapTo (entry : UInt64) : UInt64 := m.load64 entry
def mapStates (entry : UInt64) : UInt32 := m.load32 (entry + UInt64.ofNat 8)
def mapState (entry : UInt64) : UInt64 := m.load64 (entry + UInt64.ofNat 16)

def functionAt (a : UInt64) : LbrFunction where
  fptr := m.load64 a
  fname := m.read (a + UInt64.ofNat 8) 16

def stateAt (a : UInt64) : HashedState where
  fromAddr k := m.load64 (a + UInt64.ofNat (8 * k.val))
  toAddr k := m.load64 (a + UInt64.ofNat (128 + 8 * k.val))
  hash := m.read (a + UInt64.ofNat 256) 16

def stateMapAt (entry : UInt64) : LbrValidStateMap where
  toAddr := mapTo m entry
  state := (List.range (mapStates m entry).toNat).map fun j =>
    stateAt m (mapState m entry + UInt64.ofNat (272 * j))

/-- The value that a `struct lbr_paths` in memory has. -/
def pathsAt : LbrPaths where
  func := (List.range (pathsFuncs m paths).toNat).map fun i =>
    functionAt m (pathsFunc m paths + UInt64.ofNat (24 * i))
  addressTaken := (List.range (pathsAts m paths).toNat).map fun i =>
    m.load64 (pathsAddressTaken m paths + UInt64.ofNat (8 * i))
  stateMap := (List.range (pathsStateMaps m paths).toNat).map fun i =>
    stateMapAt m (mapEntry m paths i)

def headBlocks : List (UInt64 × Nat) :=
  [(paths, 48), (pathsFunc m paths, 24 * (pathsFuncs m paths).toNat),
    (pathsAddressTaken m paths, 8 * (pathsAts m paths).toNat),
    (pathsStateMap m paths, 24 * (pathsStateMaps m paths).toNat)]

def mapBlock (i : Nat) : UInt64 × Nat :=
  (mapState m (mapEntry m paths i), 272 * (mapStates m (mapEntry m paths i)).toNat)

/-- The blocks of memory that the value occupies, with their lengths. -/
def objects : List (UInt64 × Nat) :=
  headBlocks m paths ++ (List.range (pathsStateMaps m paths).toNat).map (mapBlock m paths)

end Layout

/-! ## The functions -/

def intMax : Nat := 2147483647

/-- A loop that counts with an `int` up to a number that is read again in every round. -/
def forInt {σ : Type} (count : σ → Nat) (body : Nat → σ → σ) : Nat → Nat → σ → Option σ
  | 0, i, s => if i < count s then none else some s
  | fuel + 1, i, s => if i < count s then forInt count body fuel (i + 1) (body i s) else some s

def lbrSizeofPaths (m : Memory) (paths : UInt64) : Option UInt64 :=
  let size := UInt64.ofNat 48
  let size := size + (pathsFuncs m paths).toUInt64 * UInt64.ofNat 24
  let size := size + (pathsAts m paths).toUInt64 * UInt64.ofNat 8
  let size := size + (pathsStateMaps m paths).toUInt64 * UInt64.ofNat 24
  forInt (fun _ => (pathsStateMaps m paths).toNat)
    (fun i size => size + (mapStates m (mapEntry m paths i)).toUInt64 * UInt64.ofNat 272) intMax 0 size

def linkMap (paths : UInt64) (i : Nat) : Memory × UInt64 → Memory × UInt64
  | (m, p) =>
      let m := m.store64 (mapEntry m paths i + UInt64.ofNat 16) p
      (m, p + (mapStates m (mapEntry m paths i)).toUInt64 * UInt64.ofNat 272)

def lbrLinkPaths (m : Memory) (paths : UInt64) : Option Memory :=
  let p := paths + UInt64.ofNat 48
  let m := m.store64 (paths + UInt64.ofNat 8) p
  let p := p + (pathsFuncs m paths).toUInt64 * UInt64.ofNat 24
  let m := m.store64 (paths + UInt64.ofNat 24) p
  let p := p + (pathsAts m paths).toUInt64 * UInt64.ofNat 8
  let m := m.store64 (paths + UInt64.ofNat 40) p
  let p := p + (pathsStateMaps m paths).toUInt64 * UInt64.ofNat 24
  (forInt (fun s => (pathsStateMaps s.1 paths).toNat) (linkMap paths) intMax 0 (m, p)).map Prod.fst

/-- One `memcpy` of `lbr_pack_paths` and the step of `offset` after it. -/
def packBlock (packed src length : UInt64) : Memory × UInt64 → Memory × UInt64
  | (m, offset) => (m.memcpy (packed + offset) src length.toNat, offset + length)

def packMap (packed paths : UInt64) (i : Nat) : Memory × UInt64 → Memory × UInt64
  | (m, offset) => packBlock packed (mapState m (mapEntry m paths i))
      ((mapStates m (mapEntry m paths i)).toUInt64 * UInt64.ofNat 272) (m, offset)

/-- The `memcpy`s of `lbr_pack_paths`; the second result is the number of bytes filled. -/
def packBlocks (packed : UInt64) (m : Memory) (paths : UInt64) : Option (Memory × UInt64) :=
  let s := packBlock packed paths (UInt64.ofNat 48) (m, UInt64.ofNat 0)
  let s := packBlock packed (pathsFunc s.1 paths) ((pathsFuncs s.1 paths).toUInt64 * UInt64.ofNat 24) s
  let s := packBlock packed (pathsAddressTaken s.1 paths) ((pathsAts s.1 paths).toUInt64 * UInt64.ofNat 8) s
  let s := packBlock packed (pathsStateMap s.1 paths) ((pathsStateMaps s.1 paths).toUInt64 * UInt64.ofNat 24) s
  forInt (fun s => (pathsStateMaps s.1 paths).toNat) (packMap packed paths) intMax 0 s

/-- `malloc` is given the size and may fail. -/
def lbrPackPaths (malloc : UInt64 → Option UInt64) (m : Memory) (paths : UInt64) :
    Option (Memory × UInt64) := do
  let size ← lbrSizeofPaths m paths
  let packed ← malloc size
  let (m, _) ← packBlocks packed m paths
  let m ← lbrLinkPaths m packed
  return (m, packed)

/-- What the calls of `stdio` return. -/
structure WriteCalls where
  fopen : Bool
  fwrite : Bool
  fclose : Bool

/-- The result and, after a successful `fwrite`, the contents of the file. -/
def writePaths (calls : WriteCalls) (m : Memory) (paths : UInt64) :
    Option (Nat × Option (List UInt8)) :=
  if !calls.fopen then some (1, none)
  else do
    let size ← lbrSizeofPaths m paths
    if !calls.fwrite then return (1, none)
    else if !calls.fclose then return (1, some (m.read paths size.toNat))
    else return (0, some (m.read paths size.toNat))

structure ReadCalls where
  fopen : Bool
  seekEnd : Bool
  seekSet : Bool
  fread : Bool
  fclose : Bool

/-- The second result is the address that is returned, or `none` for `NULL`. `ftell` fails if the
length of the file is no `long`. -/
def readPaths (calls : ReadCalls) (malloc : UInt64 → Option UInt64) (file : List UInt8)
    (m : Memory) : Option (Memory × Option UInt64) :=
  if !calls.fopen || !calls.seekEnd || 2 ^ 63 ≤ file.length || !calls.seekSet then some (m, none)
  else do
    let paths ← malloc (UInt64.ofNat file.length)
    if !calls.fread then return (m, none)
    let m := m.write paths file
    if !calls.fclose then return (m, none)
    let m ← lbrLinkPaths m paths
    return (m, some paths)

end PathArmor.StateFile

import Mathlib.Algebra.Order.Ring.Nat
import Mathlib.Data.List.Basic
import Mathlib.Data.List.FinRange

/-!
# LBR states and their digests

`struct lbr_t` is shared by the kernel module and the analyzer. Both address its two arrays as a
ring; `tos` is the index of the newest entry. The digest functions themselves are outside the
sources: what is modelled here is the byte stream they are fed.
-/

namespace PathArmor

abbrev lbrEntries : Nat := 16

instance : NeZero lbrEntries := ⟨Nat.succ_ne_zero 15⟩

abbrev Task := Nat

structure Lbr where
  debug : UInt64
  select : UInt64
  tos : UInt64
  fromAddr : Fin lbrEntries → UInt64
  toAddr : Fin lbrEntries → UInt64
  task : Option Task := none

def Lbr.zero : Lbr where
  debug := 0
  select := 0
  tos := 0
  fromAddr _ := 0
  toAddr _ := 0

def Lbr.ofEntries (entries : List (UInt64 × UInt64)) : Lbr :=
  { Lbr.zero with
    tos := UInt64.ofNat (entries.length - 1)
    fromAddr := fun k => (entries[k.val]?.getD (0, 0)).1
    toAddr := fun k => (entries[k.val]?.getD (0, 0)).2 }

structure LbrValidState where
  fromAddr : Fin lbrEntries → UInt64
  toAddr : Fin lbrEntries → UInt64

/-- Index arithmetic on the ring is done in 64 bits and wraps there. -/
def ringIndex (n : UInt64) : Fin lbrEntries :=
  ⟨(n % 16).toNat, by
    rw [UInt64.toNat_mod]
    exact Nat.mod_lt _ (by decide)⟩

def Lbr.entry (lbr : Lbr) (k : Fin lbrEntries) : UInt64 × UInt64 := (lbr.fromAddr k, lbr.toAddr k)

def Lbr.newestFirst (lbr : Lbr) : List (UInt64 × UInt64) :=
  (List.range lbrEntries).map fun i => lbr.entry (ringIndex (lbr.tos - UInt64.ofNat i))

def wordBytes (x : UInt64) : List UInt8 :=
  (List.range 8).map fun k => (x >>> UInt64.ofNat (8 * k)).toUInt8

def pairBytes (pair : UInt64 × UInt64) : List UInt8 := wordBytes pair.1 ++ wordBytes pair.2

/-- What `hash_lbr` feeds to the digest. -/
def hashLbrStream (lbr : Lbr) : List UInt8 :=
  (List.range lbrEntries).flatMap fun i =>
    wordBytes (lbr.fromAddr (ringIndex (lbr.tos - UInt64.ofNat i))) ++
      wordBytes (lbr.toAddr (ringIndex (lbr.tos - UInt64.ofNat i)))

/-- What `hash_paths` feeds to the digest for one state. -/
def hashPathsStream (state : LbrValidState) : List UInt8 :=
  (List.finRange lbrEntries).flatMap fun k =>
    wordBytes (state.fromAddr k) ++ wordBytes (state.toAddr k)

theorem length_pairBytes (pair : UInt64 × UInt64) : (pairBytes pair).length = 16 := by
  simp [pairBytes, wordBytes]

theorem eq_of_digits {base x y : Nat} (n : Nat) (boundX : x < base ^ n) (boundY : y < base ^ n)
    (digits : ∀ k < n, x / base ^ k % base = y / base ^ k % base) : x = y := by
  induction n generalizing x y with
  | zero => simp_all
  | succ n ih =>
      rw [Nat.pow_succ'] at boundX boundY
      have last : x % base = y % base := by simpa using digits 0 n.succ_pos
      have rest : x / base = y / base := by
        apply ih (Nat.div_lt_of_lt_mul boundX) (Nat.div_lt_of_lt_mul boundY)
        intro k below
        rw [Nat.div_div_eq_div_mul, Nat.div_div_eq_div_mul, ← Nat.pow_succ']
        exact digits (k + 1) (Nat.succ_lt_succ below)
      rw [← Nat.div_add_mod x base, ← Nat.div_add_mod y base, last, rest]

theorem wordBytes_getElem? (x : UInt64) {k : Nat} (below : k < 8) :
    (wordBytes x)[k]?.map UInt8.toNat = some (x.toNat / 256 ^ k % 256) := by
  have shift : 8 * k % 2 ^ 64 % 64 = 8 * k := by omega
  rw [wordBytes, List.getElem?_map, List.getElem?_range below, Option.map_some, Option.map_some,
    UInt64.toNat_toUInt8, UInt64.toNat_shiftRight, UInt64.toNat_ofNat', shift,
    Nat.shiftRight_eq_div_pow, Nat.pow_mul]

theorem wordBytes_injective {x y : UInt64} (same : wordBytes x = wordBytes y) : x = y := by
  rw [← UInt64.toNat_inj]
  apply @eq_of_digits 256 _ _ 8 x.toNat_lt y.toNat_lt
  intro k below
  rw [← Option.some_inj, ← wordBytes_getElem? x below, ← wordBytes_getElem? y below, same]

theorem pairBytes_injective {p q : UInt64 × UInt64} (same : pairBytes p = pairBytes q) : p = q := by
  obtain ⟨first, second⟩ := List.append_inj same (by simp [wordBytes])
  exact Prod.ext (wordBytes_injective first) (wordBytes_injective second)

theorem hashLbrStream_eq (lbr : Lbr) : hashLbrStream lbr = lbr.newestFirst.flatMap pairBytes := by
  rw [Lbr.newestFirst, List.flatMap_map]
  rfl

theorem flatMap_injective {α β : Type*} {f : α → List β} {n : Nat} (length : ∀ a, (f a).length = n)
    (injective : ∀ a b, f a = f b → a = b) {l l' : List α} (sameLength : l.length = l'.length)
    (same : l.flatMap f = l'.flatMap f) : l = l' := by
  induction l generalizing l' with
  | nil => exact (List.length_eq_zero_iff.mp sameLength.symm).symm
  | cons a rest ih =>
      cases l' with
      | nil => simp at sameLength
      | cons b rest' =>
          simp only [List.flatMap_cons] at same
          obtain ⟨head, tail⟩ := List.append_inj same ((length a).trans (length b).symm)
          rw [injective a b head, ih (by simpa using sameLength) tail]

theorem hashLbrStream_inj {lbr lbr' : Lbr} :
    hashLbrStream lbr = hashLbrStream lbr' ↔ lbr.newestFirst = lbr'.newestFirst := by
  rw [hashLbrStream_eq, hashLbrStream_eq]
  refine ⟨flatMap_injective length_pairBytes (fun _ _ => pairBytes_injective) ?_,
    congrArg (List.flatMap pairBytes)⟩
  simp [Lbr.newestFirst]

theorem hashPathsStream_eq {state : LbrValidState} {lbr : Lbr}
    (same : lbr.newestFirst = List.ofFn fun k => (state.fromAddr k, state.toAddr k)) :
    hashPathsStream state = hashLbrStream lbr := by
  rw [hashLbrStream_eq, same, List.ofFn_eq_map, List.flatMap_map]
  rfl

end PathArmor

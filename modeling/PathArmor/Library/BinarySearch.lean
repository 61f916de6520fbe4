import Mathlib.Data.List.Basic
import Mathlib.Data.List.Sort

/-!
# Ordered sets and binary search

A set that is kept as a list in increasing order, and the search of the C library in it.
-/

namespace PathArmor.Library

section
variable {α : Type*} [LT α] [DecidableLT α]

/-- The set with one more element, in its place. -/
def insertOrdered (x : α) : List α → List α
  | [] => [x]
  | y :: rest =>
      if x < y then x :: y :: rest
      else if y < x then y :: insertOrdered x rest
      else y :: rest

end

section
variable {α : Type*} [LT α] [LE α] [DecidableLT α] [Std.IsLinearOrder α] [Std.LawfulOrderLT α]

theorem mem_insertOrdered {x z : α} {l : List α} : z ∈ insertOrdered x l ↔ z = x ∨ z ∈ l := by
  induction l with
  | nil => simp [insertOrdered]
  | cons y rest ih =>
      rw [insertOrdered]
      split_ifs with before behind
      · rw [List.mem_cons]
      · rw [List.mem_cons, ih, List.mem_cons, or_left_comm]
      · obtain rfl : x = y := Std.le_antisymm (Std.not_lt.mp behind) (Std.not_lt.mp before)
        rw [List.mem_cons, or_self_left]

theorem pairwise_insertOrdered (x : α) {l : List α} (sorted : l.Pairwise (· < ·)) :
    (insertOrdered x l).Pairwise (· < ·) := by
  induction l with
  | nil => simp [insertOrdered]
  | cons y rest ih =>
      obtain ⟨first, sorted⟩ := List.pairwise_cons.mp sorted
      rw [insertOrdered]
      split_ifs with before behind
      · refine List.pairwise_cons.mpr ⟨?_, List.pairwise_cons.mpr ⟨first, sorted⟩⟩
        intro z member
        rcases List.mem_cons.mp member with rfl | later
        · exact before
        · exact Std.lt_trans before (first z later)
      · refine List.pairwise_cons.mpr ⟨?_, ih sorted⟩
        intro z member
        rcases mem_insertOrdered.mp member with rfl | later
        · exact behind
        · exact first z later
      · exact List.pairwise_cons.mpr ⟨first, sorted⟩

theorem mem_foldl_insertOrdered {xs l : List α} {z : α} :
    z ∈ xs.foldl (fun set x => insertOrdered x set) l ↔ z ∈ l ∨ z ∈ xs := by
  induction xs generalizing l with
  | nil => simp
  | cons x xs ih => rw [List.foldl_cons, ih, mem_insertOrdered, List.mem_cons, or_assoc, or_left_comm]

end

/-! ## Binary search -/

section
variable {α : Type*}

/-- `compare` compares the key with an element. The search goes on between `l` and `u`. -/
def bsearchIn (compare : α → Int) (base : List α) : Nat → Nat → Nat → Option α
  | 0, _, _ => none
  | fuel + 1, l, u =>
      if l < u then
        match base[(l + u) / 2]? with
        | none => none
        | some x =>
            if compare x < 0 then bsearchIn compare base fuel l ((l + u) / 2)
            else if 0 < compare x then bsearchIn compare base fuel ((l + u) / 2 + 1) u
            else some x
      else none

def bsearch (compare : α → Int) (base : List α) : Option α :=
  bsearchIn compare base (base.length + 1) 0 base.length

/-- What comes before an element below the key is below it too, and likewise above. -/
def Ordered (compare : α → Int) (base : List α) : Prop :=
  base.Pairwise fun x y => (compare x < 0 → compare y < 0) ∧ (0 < compare y → 0 < compare x)

variable {compare : α → Int} {base : List α}

theorem bsearchIn_sound {fuel l u : Nat} {x : α} (found : bsearchIn compare base fuel l u = some x) :
    x ∈ base ∧ compare x = 0 := by
  induction fuel generalizing l u with
  | zero => cases found
  | succ fuel ih =>
      rw [bsearchIn] at found
      split_ifs at found
      cases entry : base[(l + u) / 2]? with
      | none => simp [entry] at found
      | some y =>
          simp only [entry] at found
          split_ifs at found with below above
          · exact ih found
          · exact ih found
          · obtain rfl := Option.some.inj found
            exact ⟨List.mem_of_getElem? entry, by omega⟩

theorem Ordered.getElem? (ordered : Ordered compare base) {i j : Nat} (before : i < j) {x y : α}
    (first : base[i]? = some x) (second : base[j]? = some y) :
    (compare x < 0 → compare y < 0) ∧ (0 < compare y → 0 < compare x) := by
  obtain ⟨inside, rfl⟩ := List.getElem?_eq_some_iff.mp first
  obtain ⟨inside', rfl⟩ := List.getElem?_eq_some_iff.mp second
  exact List.pairwise_iff_getElem.mp ordered i j inside inside' before

/-- The matching element stays between `l` and `u`. -/
theorem bsearchIn_complete (ordered : Ordered compare base) {fuel l u i : Nat} {x : α}
    (entry : base[i]? = some x) (equal : compare x = 0) (lower : l ≤ i) (upper : i < u)
    (bound : u ≤ base.length) (enough : u - l < fuel) :
    (bsearchIn compare base fuel l u).isSome := by
  induction fuel generalizing l u with
  | zero => omega
  | succ fuel ih =>
      have inside : (l + u) / 2 < base.length := by omega
      rw [bsearchIn, if_pos (by omega), List.getElem?_eq_getElem inside]
      have middle : base[(l + u) / 2]? = some base[(l + u) / 2] := List.getElem?_eq_getElem inside
      dsimp only
      split_ifs with below above
      · have earlier : i < (l + u) / 2 := by
          by_contra later
          rcases Nat.lt_or_eq_of_le (not_lt.mp later) with behind | same
          · have := (ordered.getElem? behind middle entry).1 below
            omega
          · rw [← same, middle, Option.some.injEq] at entry
            rw [← entry] at equal
            omega
        exact ih lower earlier (by omega) (by omega)
      · have later : (l + u) / 2 + 1 ≤ i := by
          by_contra earlier
          rcases Nat.lt_or_eq_of_le (Nat.lt_succ_iff.mp (not_le.mp earlier)) with before | same
          · have := (ordered.getElem? before entry middle).2 above
            omega
          · rw [same, middle, Option.some.injEq] at entry
            rw [← entry] at equal
            omega
        exact ih later upper bound (by omega)
      · rfl

theorem bsearch_isSome_iff (ordered : Ordered compare base) :
    (bsearch compare base).isSome ↔ ∃ x ∈ base, compare x = 0 := by
  constructor
  · intro found
    obtain ⟨x, result⟩ := Option.isSome_iff_exists.mp found
    exact ⟨x, bsearchIn_sound result⟩
  · rintro ⟨x, member, equal⟩
    obtain ⟨i, entry⟩ := List.mem_iff_getElem?.mp member
    have inside := (List.getElem?_eq_some_iff.mp entry).1
    exact bsearchIn_complete ordered entry equal (Nat.zero_le i) inside le_rfl (by omega)

end

end PathArmor.Library

import Mathlib.Algebra.Order.Ring.Nat
import Mathlib.Algebra.Group.Fin.Basic
import Mathlib.Data.List.Count
import Mathlib.Data.List.FinRange
import Mathlib.Data.List.OfFn

/-!
# Circular arrays

A circular array is read as a list from some position on. Elements are taken out of it in place:
those before one that is taken out move up by one, and the gap in front is filled.
-/

namespace PathArmor.Library.Ring
variable {α : Type*}

/-! ## Taking elements out of a list -/

section
variable (p : α → Bool) (zero : α)

/-- The rest in its order, filled up in front to the old length. -/
def compact (l : List α) : List α := List.replicate (l.countP p) zero ++ l.filter (!p ·)

def sift : List α → List α → List α
  | done, [] => done
  | done, x :: rest => if p x then sift (zero :: done) rest else sift (done ++ [x]) rest

variable {p zero}

theorem sift_eq (done rest : List α) :
    sift p zero done rest =
      List.replicate (rest.countP p) zero ++ done ++ rest.filter (!p ·) := by
  induction rest generalizing done with
  | nil => simp [sift]
  | cons x rest ih =>
      by_cases out : p x
      · simp [sift, out, ih, List.replicate_succ', List.append_assoc]
      · simp [sift, out, ih, List.append_assoc]

theorem sift_nil (l : List α) : sift p zero [] l = compact p zero l := by
  simp [sift_eq, compact]

theorem compact_sift (first second : List α) :
    compact p zero (sift p zero [] first ++ second) = compact p zero (first ++ second) := by
  rw [sift_nil]
  by_cases out : p zero
  · simp [compact, out, List.countP_append, List.filter_append, List.countP_replicate,
      List.countP_filter, ← List.append_assoc]
  · simp [compact, out, List.countP_append, List.filter_append, List.countP_replicate,
      List.countP_filter, ← List.append_assoc, List.replicate_append_replicate,
      Nat.add_comm]

end

/-! ## The same in place -/

variable {n : Nat}

def unroll (start : Fin n) (x : Fin n → α) : List α := List.ofFn fun p => x (start + p)

theorem getElem?_unroll (start : Fin n) (x : Fin n → α) {m : Nat} (below : m < n) :
    (unroll start x)[m]? = some (x (start + ⟨m, below⟩)) := by
  simp [unroll, below]

theorem add_val_of_lt {start q : Fin n} (inside : start.val + q.val < n) :
    (start + q).val = start.val + q.val := by
  rw [Fin.val_add, Nat.mod_eq_of_lt inside]

theorem add_val_of_le {start q : Fin n} (outside : n ≤ start.val + q.val) :
    (start + q).val = start.val + q.val - n := by
  have := start.isLt
  have := q.isLt
  rw [Fin.val_add, Nat.mod_eq_sub_mod outside, Nat.mod_eq_of_lt (by omega)]

variable [NeZero n]

/-- Moves `[start, index)` up by one, with `zero` in front. -/
def shiftIn (zero : α) (start index : Fin n) (x : Fin n → α) : Fin n → α := fun j =>
  if j = start then zero else if start < j ∧ j ≤ index then x (j - 1) else x j

theorem unroll_shiftIn (zero : α) {start index : Fin n} (x : Fin n → α) (le : start ≤ index) :
    unroll start (shiftIn zero start index x) =
      zero :: (unroll start x).eraseIdx (index.val - start.val) := by
  have bound := index.isLt
  have length : (unroll start x).length = n := by simp [unroll]
  refine List.ext_getElem? fun k => ?_
  cases Nat.lt_or_ge k n with
  | inl below =>
      rw [getElem?_unroll start _ below]
      cases k with
      | zero => simp [shiftIn]
      | succ m =>
          have before : m < n := by omega
          rw [List.getElem?_cons_succ, List.getElem?_eraseIdx]
          by_cases early : m < index.val - start.val
          · have value : (start + ⟨m + 1, below⟩).val = start.val + (m + 1) :=
              add_val_of_lt (by simp; omega)
            have previous : start + ⟨m + 1, below⟩ - 1 = start + ⟨m, before⟩ := by
              have several : 1 < n := by omega
              have one : (1 : Fin n).val = 1 := by rw [Fin.val_one', Nat.mod_eq_of_lt several]
              have value' : (start + ⟨m, before⟩).val = start.val + m :=
                add_val_of_lt (by simp; omega)
              have sum : n - 1 + (start.val + (m + 1)) = start.val + m + n := by omega
              rw [Fin.ext_iff, Fin.sub_def, value']
              simp only [value, one, sum]
              rw [Nat.add_mod_right, Nat.mod_eq_of_lt (by omega)]
            have moved : start + ⟨m + 1, below⟩ ≠ start ∧
                start < start + ⟨m + 1, below⟩ ∧ start + ⟨m + 1, below⟩ ≤ index := by
              simp only [ne_eq, Fin.ext_iff, Fin.lt_def, Fin.le_def, value]
              omega
            rw [if_pos early, getElem?_unroll start x before, shiftIn, if_neg moved.1,
              if_pos moved.2, previous]
          · have kept : start + ⟨m + 1, below⟩ ≠ start ∧
                ¬ (start < start + ⟨m + 1, below⟩ ∧ start + ⟨m + 1, below⟩ ≤ index) := by
              simp only [ne_eq, Fin.ext_iff, Fin.lt_def, Fin.le_def]
              cases Nat.lt_or_ge (start.val + (m + 1)) n with
              | inl inside =>
                  rw [add_val_of_lt (q := ⟨m + 1, below⟩) inside]
                  simp only
                  omega
              | inr outside =>
                  rw [add_val_of_le (q := ⟨m + 1, below⟩) outside]
                  simp only
                  omega
            rw [if_neg early, getElem?_unroll start x below, shiftIn, if_neg kept.1, if_neg kept.2]
  | inr beyond =>
      rw [List.getElem?_eq_none (by simpa [unroll] using beyond), List.getElem?_eq_none]
      rw [List.length_cons, List.length_eraseIdx, length]
      split_ifs <;> omega

/-- One pass over the positions of a circular array. It stops, with a `false`, at an element to be
taken out that lies beyond the end of the array. -/
def siftRing (p : α → Bool) (zero : α) (start : Fin n) :
    List (Fin n) → (Fin n → α) → (Fin n → α) × Bool
  | [], x => (x, true)
  | q :: rest, x =>
      if p (x (start + q)) then
        if start + q < start then (x, false)
        else siftRing p zero start rest (shiftIn zero start (start + q) x)
      else siftRing p zero start rest x

variable {p : α → Bool} {zero : α} {start : Fin n}

omit [NeZero n] in
theorem lt_of_lt_add {q : Fin n} (inside : ¬ start + q < start) : start.val + q.val < n := by
  by_contra outside
  refine inside (Fin.lt_def.mpr ?_)
  rw [add_val_of_le (by omega)]
  have := q.isLt
  omega

theorem siftRing_unroll (p : α → Bool) (zero : α) {done rest : List α} {x : Fin n → α}
    (view : unroll start x = done ++ rest) :
    ∃ first second, rest = first ++ second ∧
      unroll start (siftRing p zero start ((List.finRange n).drop done.length) x).1 =
        sift p zero done first ++ second ∧
      ((siftRing p zero start ((List.finRange n).drop done.length) x).2 = true → second = []) := by
  induction rest generalizing done x with
  | nil =>
      have all : n = done.length := by simpa [unroll] using congrArg List.length view
      have finished : (List.finRange n).drop done.length = [] := by simp [← all]
      exact ⟨[], [], rfl, by simp [finished, siftRing, view, sift], fun _ => rfl⟩
  | cons a rest ih =>
      have below : done.length < n := by
        have := congrArg List.length view
        simp only [unroll, List.length_ofFn, List.length_append, List.length_cons] at this
        omega
      have here : x (start + ⟨done.length, below⟩) = a := by
        have entry := getElem?_unroll start x below
        simpa [view] using entry.symm
      have next : (List.finRange n).drop done.length =
          ⟨done.length, below⟩ :: (List.finRange n).drop (done.length + 1) := by
        rw [List.drop_eq_getElem_cons (by simpa using below)]
        simp
      rw [next]
      simp only [siftRing, here]
      by_cases out : p a
      · by_cases wraps : start + ⟨done.length, below⟩ < start
        · exact ⟨[], a :: rest, rfl, by simp [out, wraps, sift, view], by simp [out, wraps]⟩
        · have inside := lt_of_lt_add wraps
          have shifted : unroll start (shiftIn zero start (start + ⟨done.length, below⟩) x) =
              (zero :: done) ++ rest := by
            rw [unroll_shiftIn zero x (not_lt.mp wraps), add_val_of_lt inside, view]
            simp [List.eraseIdx_append_of_length_le]
          obtain ⟨first, second, split, left, all⟩ := ih shifted
          refine ⟨a :: first, second, by rw [split, List.cons_append], ?_, ?_⟩
          · simpa [out, wraps, sift] using left
          · simpa [out, wraps] using all
      · have kept : unroll start x = (done ++ [a]) ++ rest := by simp [view]
        obtain ⟨first, second, split, left, all⟩ := ih kept
        refine ⟨a :: first, second, by rw [split, List.cons_append], ?_, ?_⟩
        · simpa [out, sift] using left
        · simpa [out] using all

theorem siftRing_zero (positions : List (Fin n)) (x : Fin n → α) :
    (siftRing p zero 0 positions x).2 = true := by
  induction positions generalizing x with
  | nil => rfl
  | cons q rest ih =>
      simp only [siftRing, Fin.not_lt_zero, if_false]
      split_ifs <;> exact ih _

omit [NeZero n] in
theorem foldl_update_apply {start : Fin n} {copy : Fin n → α} (positions : List (Fin n))
    (x : Fin n → α) (q : Fin n) :
    positions.foldl (fun x q => Function.update x (start + q) (copy q)) x (start + q) =
      if q ∈ positions then copy q else x (start + q) := by
  induction positions generalizing x with
  | nil => simp
  | cons r rest ih =>
      rw [List.foldl_cons, ih]
      by_cases later : q ∈ rest
      · simp [later]
      · rcases eq_or_ne q r with rfl | other
        · simp [later]
        · have elsewhere : start + q ≠ start + r := fun same => other (add_left_cancel same)
          simp [later, other, elsewhere]

end PathArmor.Library.Ring

import PathArmor.LbrState
import PathArmor.Library.Ring

/-!
# Removing library entries from the LBR

`remove_lib_enter_edges` works in the ring as long as it does not wrap around, and on a linear
copy otherwise. Read from the oldest entry on, both are the same stable filter.
-/

namespace PathArmor.Analyzer
open PathArmor.Library

/-- Where the `i`-th oldest entry is. -/
def lbrIndex (lbr : Lbr) (i : Nat) : Fin lbrEntries := ringIndex (lbr.tos + UInt64.ofNat i + 1)

def moveblocksLoop (target : UInt64) (start : Fin lbrEntries) :
    List (Fin lbrEntries) → Lbr → Lbr × Bool
  | [], lbr => (lbr, true)
  | i :: rest, lbr =>
      if lbr.toAddr (lbrIndex lbr i) = target then
        if lbrIndex lbr i < start then (lbr, false)
        else moveblocksLoop target start rest
          { lbr with
            fromAddr := Ring.shiftIn 0 start (lbrIndex lbr i) lbr.fromAddr
            toAddr := Ring.shiftIn 0 start (lbrIndex lbr i) lbr.toAddr }
      else moveblocksLoop target start rest lbr

/-- The flag says that the entries could be moved within the arrays. -/
def moveblocks (lbr : Lbr) (target : UInt64) : Lbr × Bool :=
  moveblocksLoop target (lbrIndex lbr 0) (List.finRange lbrEntries) lbr

/-- The `copy` is not circular: its oldest entry comes first. -/
def linearCopy (lbr : Lbr) : Lbr :=
  { lbr with
    tos := 15
    fromAddr := fun i => lbr.fromAddr (lbrIndex lbr i)
    toAddr := fun i => lbr.toAddr (lbrIndex lbr i) }

def writeBack (lbr : Lbr) (copy array : Fin lbrEntries → UInt64) : Fin lbrEntries → UInt64 :=
  (List.finRange lbrEntries).foldl
    (fun array (i : Fin lbrEntries) => Function.update array (lbrIndex lbr i) (copy i)) array

def removeLibEnterEdges (lbr : Lbr) (target : UInt64) : Lbr × Bool :=
  let moved := moveblocks lbr target
  if moved.2 then moved
  else
    let lbr := moved.1
    let copy := moveblocks (linearCopy lbr) target
    if copy.2 then
      ({ lbr with
         fromAddr := writeBack lbr copy.1.fromAddr lbr.fromAddr
         toAddr := writeBack lbr copy.1.toAddr lbr.toAddr }, true)
    else (lbr, false) -- this should never happen

/-! ## The order of the entries -/

def oldestFirst (lbr : Lbr) : List (UInt64 × UInt64) := Ring.unroll (lbrIndex lbr 0) lbr.entry

theorem lbrIndex_eq (lbr : Lbr) (i : Fin lbrEntries) : lbrIndex lbr i = lbrIndex lbr 0 + i := by
  rw [Fin.ext_iff, Fin.val_add]
  have bound : i.val < 16 := i.isLt
  simp only [lbrIndex, ringIndex, lbrEntries, UInt64.toNat_mod, UInt64.toNat_add,
    UInt64.toNat_ofNat', UInt64.reduceToNat]
  omega

def matchesTarget (target : UInt64) (entry : UInt64 × UInt64) : Bool := entry.2 == target

def setEntries (lbr : Lbr) (entries : Fin lbrEntries → UInt64 × UInt64) : Lbr :=
  { lbr with fromAddr := fun k => (entries k).1, toAddr := fun k => (entries k).2 }

theorem oldestFirst_setEntries (lbr : Lbr) (entries : Fin lbrEntries → UInt64 × UInt64) :
    oldestFirst (setEntries lbr entries) = Ring.unroll (lbrIndex lbr 0) entries := rfl

theorem shiftIn_entries (start index : Fin lbrEntries) (lbr : Lbr) :
    ({ lbr with
       fromAddr := Ring.shiftIn 0 start index lbr.fromAddr
       toAddr := Ring.shiftIn 0 start index lbr.toAddr } : Lbr) =
      setEntries lbr (Ring.shiftIn (0, 0) start index lbr.entry) := by
  have first : Ring.shiftIn 0 start index lbr.fromAddr =
      fun k => (Ring.shiftIn (0, 0) start index lbr.entry k).1 := by
    funext k
    simp only [Ring.shiftIn]
    split_ifs <;> rfl
  have second : Ring.shiftIn 0 start index lbr.toAddr =
      fun k => (Ring.shiftIn (0, 0) start index lbr.entry k).2 := by
    funext k
    simp only [Ring.shiftIn]
    split_ifs <;> rfl
  rw [setEntries, first, second]

theorem moveblocksLoop_eq (target : UInt64) (positions : List (Fin lbrEntries)) (lbr : Lbr) :
    moveblocksLoop target (lbrIndex lbr 0) positions lbr =
      (setEntries lbr
          (Ring.siftRing (matchesTarget target) (0, 0) (lbrIndex lbr 0) positions lbr.entry).1,
        (Ring.siftRing (matchesTarget target) (0, 0) (lbrIndex lbr 0) positions lbr.entry).2) := by
  induction positions generalizing lbr with
  | nil => rfl
  | cons i rest ih =>
      simp only [moveblocksLoop, Ring.siftRing, matchesTarget, beq_iff_eq, lbrIndex_eq lbr i]
      by_cases out : lbr.toAddr (lbrIndex lbr 0 + i) = target
      · have out' : (lbr.entry (lbrIndex lbr 0 + i)).2 = target := out
        by_cases wraps : lbrIndex lbr 0 + i < lbrIndex lbr 0
        · simp only [out, out', wraps, if_true]
          rfl
        · simp only [out, out', wraps, if_true, if_false]
          rw [shiftIn_entries]
          exact ih (setEntries lbr _)
      · have kept : ¬ (lbr.entry (lbrIndex lbr 0 + i)).2 = target := out
        simp only [out, kept, if_false]
        exact ih lbr

theorem moveblocks_oldestFirst (lbr : Lbr) (target : UInt64) :
    ∃ first second, oldestFirst lbr = first ++ second ∧
      oldestFirst (moveblocks lbr target).1 =
        Ring.sift (matchesTarget target) (0, 0) [] first ++ second ∧
      ((moveblocks lbr target).2 = true → second = []) := by
  have view : Ring.unroll (lbrIndex lbr 0) lbr.entry = [] ++ oldestFirst lbr := rfl
  obtain ⟨first, second, split, left, all⟩ :=
    Ring.siftRing_unroll (matchesTarget target) (0, 0) view
  rw [List.length_nil, List.drop_zero] at left all
  refine ⟨first, second, split, ?_, ?_⟩
  · rw [moveblocks, moveblocksLoop_eq, oldestFirst_setEntries, left]
  · rw [moveblocks, moveblocksLoop_eq]
    exact all

theorem moveblocks_tos (lbr : Lbr) (target : UInt64) : (moveblocks lbr target).1.tos = lbr.tos := by
  rw [moveblocks, moveblocksLoop_eq]
  rfl

theorem oldestFirst_eq (lbr : Lbr) :
    oldestFirst lbr = List.ofFn fun i : Fin lbrEntries => lbr.entry (lbrIndex lbr i) := by
  simp only [oldestFirst, Ring.unroll, lbrIndex_eq]

theorem oldestFirst_arrays (lbr : Lbr) (fromAddr toAddr : Fin lbrEntries → UInt64) :
    oldestFirst { lbr with fromAddr, toAddr } =
      List.ofFn fun i : Fin lbrEntries => (fromAddr (lbrIndex lbr i), toAddr (lbrIndex lbr i)) :=
  oldestFirst_eq _

theorem lbrIndex_linearCopy (lbr : Lbr) : lbrIndex (linearCopy lbr) 0 = 0 := by
  have first : ringIndex ((15 : UInt64) + UInt64.ofNat 0 + 1) = 0 := by decide
  exact first

theorem oldestFirst_linearCopy (lbr : Lbr) : oldestFirst (linearCopy lbr) = oldestFirst lbr := by
  rw [oldestFirst_eq lbr, oldestFirst, lbrIndex_linearCopy]
  simp only [Ring.unroll, zero_add]
  rfl

theorem writeBack_apply (lbr : Lbr) (copy array : Fin lbrEntries → UInt64) (i : Fin lbrEntries) :
    writeBack lbr copy array (lbrIndex lbr i) = copy i := by
  simp [writeBack, lbrIndex_eq, Ring.foldl_update_apply]

theorem moveblocks_linearCopy (lbr : Lbr) (target : UInt64) :
    (moveblocks (linearCopy lbr) target).2 = true ∧
      List.ofFn (moveblocks (linearCopy lbr) target).1.entry =
        Ring.compact (matchesTarget target) (0, 0) (oldestFirst lbr) := by
  have finished : (moveblocks (linearCopy lbr) target).2 = true := by
    rw [moveblocks, moveblocksLoop_eq, lbrIndex_linearCopy]
    exact Ring.siftRing_zero _ _
  obtain ⟨first, second, split, left, all⟩ := moveblocks_oldestFirst (linearCopy lbr) target
  rw [all finished, List.append_nil] at split left
  have start : lbrIndex (moveblocks (linearCopy lbr) target).1 0 = 0 := by
    rw [lbrIndex, moveblocks_tos, ← lbrIndex, lbrIndex_linearCopy]
  refine ⟨finished, ?_⟩
  rw [← oldestFirst_linearCopy, split, ← Ring.sift_nil, ← left, oldestFirst, start]
  simp [Ring.unroll]

/-- Whichever way is taken, the matching entries are gone and empty ones come first. -/
theorem removeLibEnterEdges_oldestFirst (lbr : Lbr) (target : UInt64) :
    oldestFirst (removeLibEnterEdges lbr target).1 =
      Ring.compact (matchesTarget target) (0, 0) (oldestFirst lbr) := by
  obtain ⟨first, second, split, left, all⟩ := moveblocks_oldestFirst lbr target
  obtain ⟨finished, compacted⟩ := moveblocks_linearCopy (moveblocks lbr target).1 target
  by_cases done : (moveblocks lbr target).2 = true
  · rw [all done, List.append_nil] at split left
    simp only [removeLibEnterEdges, done, if_true]
    rw [left, Ring.sift_nil, split]
  · simp only [removeLibEnterEdges, done, finished, if_true, Bool.false_eq_true, if_false]
    rw [split, ← Ring.compact_sift, ← left, ← compacted, oldestFirst_arrays]
    simp only [writeBack_apply]
    rfl

theorem removeLibEnterEdges_finished (lbr : Lbr) (target : UInt64) :
    (removeLibEnterEdges lbr target).2 = true ∧ (removeLibEnterEdges lbr target).1.tos = lbr.tos := by
  have copied := (moveblocks_linearCopy (moveblocks lbr target).1 target).1
  have tos := moveblocks_tos lbr target
  by_cases done : (moveblocks lbr target).2 = true
  · simp [removeLibEnterEdges, done, tos]
  · simp [removeLibEnterEdges, done, copied, tos]

/-! ## The moves within the arrays

The same functions with every `memmove` spelled out. They give `none` if one of them leaves its
array. -/

namespace Bounded

def memmove (dst src len : Nat) (array : Fin lbrEntries → UInt64) :
    Option (Fin lbrEntries → UInt64) :=
  if dst + len ≤ lbrEntries ∧ src + len ≤ lbrEntries then
    some fun j =>
      if dst ≤ j.val ∧ j.val < dst + len then array (Fin.ofNat lbrEntries (src + (j.val - dst)))
      else array j
  else none

def moveblocksLoop (target : UInt64) (start : Fin lbrEntries) :
    List (Fin lbrEntries) → Lbr → Option (Lbr × Bool)
  | [], lbr => some (lbr, true)
  | i :: rest, lbr =>
      let index := lbrIndex lbr i
      if lbr.toAddr index = target then
        if start > index then some (lbr, false) -- we can now no longer use memmove
        else do
          let len := index.val - start.val
          let fromAddr ← memmove (start + 1) (start + 0) len lbr.fromAddr
          let toAddr ← memmove (start + 1) (start + 0) len lbr.toAddr
          moveblocksLoop target start rest
            { lbr with
              fromAddr := Function.update fromAddr start 0
              toAddr := Function.update toAddr start 0 }
      else moveblocksLoop target start rest lbr

def moveblocks (lbr : Lbr) (target : UInt64) : Option (Lbr × Bool) :=
  moveblocksLoop target (lbrIndex lbr 0) (List.finRange lbrEntries) lbr

def removeLibEnterEdges (lbr : Lbr) (target : UInt64) : Option (Lbr × Bool) := do
  let (lbr, done) ← moveblocks lbr target
  if done then return (lbr, true)
  let (copy, done) ← moveblocks (linearCopy lbr) target
  if !done then return (lbr, false)
  return ({ lbr with
    fromAddr := writeBack lbr copy.fromAddr lbr.fromAddr
    toAddr := writeBack lbr copy.toAddr lbr.toAddr }, true)

theorem memmove_shiftIn {start index : Fin lbrEntries} (le : start ≤ index)
    (array : Fin lbrEntries → UInt64) :
    ∃ moved, memmove (start + 1) (start + 0) (index.val - start.val) array = some moved ∧
      Function.update moved start 0 = Ring.shiftIn 0 start index array := by
  have bound : index.val < lbrEntries := index.isLt
  have order : start.val ≤ index.val := le
  refine ⟨_, if_pos ⟨by omega, by omega⟩, ?_⟩
  funext j
  rcases eq_or_ne j start with rfl | other
  · simp [Ring.shiftIn]
  have differs : j.val ≠ start.val := Fin.val_ne_of_ne other
  have inside : (start.val + 1 ≤ j.val ∧ j.val < start.val + 1 + (index.val - start.val)) ↔
      (start < j ∧ j ≤ index) := by
    rw [Fin.lt_def, Fin.le_def]
    omega
  rw [Function.update_of_ne other, Ring.shiftIn, if_neg other]
  simp only [inside]
  by_cases moves : start < j ∧ j ≤ index
  · have positive : start.val < j.val := moves.1
    have previous : Fin.ofNat lbrEntries (start.val + 0 + (j.val - (start.val + 1))) = j - 1 := by
      have one : (1 : Fin lbrEntries).val = 1 := rfl
      have size : j.val < 16 := j.isLt
      rw [Fin.ext_iff, Fin.sub_def, one]
      simp only [Fin.ofNat, lbrEntries]
      omega
    rw [if_pos moves, if_pos moves, previous]
  · rw [if_neg moves, if_neg moves]

theorem moveblocksLoop_eq (target : UInt64) (start : Fin lbrEntries)
    (positions : List (Fin lbrEntries)) (lbr : Lbr) :
    moveblocksLoop target start positions lbr =
      some (Analyzer.moveblocksLoop target start positions lbr) := by
  induction positions generalizing lbr with
  | nil => rfl
  | cons i rest ih =>
      simp only [moveblocksLoop, Analyzer.moveblocksLoop, gt_iff_lt]
      by_cases out : lbr.toAddr (lbrIndex lbr i) = target
      · by_cases wraps : lbrIndex lbr i < start
        · simp [out, wraps]
        · obtain ⟨fromAddr, movedFrom, shiftedFrom⟩ := memmove_shiftIn (not_lt.mp wraps) lbr.fromAddr
          obtain ⟨toAddr, movedTo, shiftedTo⟩ := memmove_shiftIn (not_lt.mp wraps) lbr.toAddr
          simp only [out, wraps, if_true, if_false, movedFrom, movedTo, Option.bind_eq_bind,
            Option.bind_some]
          rw [shiftedFrom, shiftedTo]
          exact ih _
      · simp only [out, if_false]
        exact ih lbr

theorem moveblocks_eq (lbr : Lbr) (target : UInt64) :
    moveblocks lbr target = some (Analyzer.moveblocks lbr target) := moveblocksLoop_eq _ _ _ _

theorem removeLibEnterEdges_eq (lbr : Lbr) (target : UInt64) :
    removeLibEnterEdges lbr target = some (Analyzer.removeLibEnterEdges lbr target) := by
  rw [removeLibEnterEdges, moveblocks_eq]
  cases first : Analyzer.moveblocks lbr target with
  | mk moved done =>
      cases done with
      | true => simp [Analyzer.removeLibEnterEdges, first]
      | false =>
          cases second : Analyzer.moveblocks (linearCopy moved) target with
          | mk copy done =>
              simp only [Analyzer.removeLibEnterEdges, first, moveblocks_eq, second,
                Option.bind_eq_bind, Option.bind_some]
              cases done <;> rfl

/-- The matching entries are gone, empty ones come first instead, the others keep their order, and
no move leaves the arrays. -/
theorem removeLibEnterEdges_filters (lbr : Lbr) (target : UInt64) :
    ∃ lbr', removeLibEnterEdges lbr target = some (lbr', true) ∧ lbr'.tos = lbr.tos ∧
      oldestFirst lbr' =
        List.replicate ((oldestFirst lbr).countP fun entry => entry.2 == target) (0, 0) ++
          (oldestFirst lbr).filter fun entry => entry.2 != target := by
  obtain ⟨finished, tos⟩ := removeLibEnterEdges_finished lbr target
  refine ⟨(Analyzer.removeLibEnterEdges lbr target).1, ?_, tos, ?_⟩
  · rw [removeLibEnterEdges_eq, ← finished]
  · exact removeLibEnterEdges_oldestFirst lbr target

end Bounded

end PathArmor.Analyzer

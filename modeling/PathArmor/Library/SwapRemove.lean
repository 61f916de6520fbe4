import Mathlib.Data.List.Perm.Basic

/-!
# Removal by moving the last element

Unordered vectors give up an element by storing the last one in its place and dropping the end.
-/

namespace PathArmor.Library
open scoped List
variable {α : Type*} {l : List α} {i : Nat} {p : α → Bool}

def swapRemove (l : List α) (i : Nat) : List α :=
  match l.getLast? with
  | none => l
  | some last => (if 1 < l.length then l.set i last else l).dropLast

/-- The first element with the property is removed, if there is one. -/
def swapRemoveFirst (l : List α) (p : α → Bool) : List α :=
  match l.findIdx? p with
  | none => l
  | some j => swapRemove l j

theorem swapRemove_concat (l : List α) (last : α) (i : Nat) :
    swapRemove (l ++ [last]) i = l.set i last := by
  rcases Nat.lt_or_ge i l.length with inside | outside
  · have several : 1 < (l ++ [last]).length := by
      rw [List.length_append, List.length_singleton]
      omega
    simp only [swapRemove, several, List.getLast?_concat, if_true,
      List.set_append_left _ _ inside, List.dropLast_concat]
  · rw [List.set_eq_of_length_le outside]
    rcases eq_or_ne l [] with rfl | notEmpty
    · simp [swapRemove]
    · have several : 1 < (l ++ [last]).length := by
        simpa using List.length_pos_iff.mpr notEmpty
      simp only [swapRemove, several, List.getLast?_concat, if_true,
        List.set_append_right _ _ outside]
      cases i - l.length <;> simp

theorem length_swapRemove (l : List α) (i : Nat) : (swapRemove l i).length = l.length - 1 := by
  rcases List.eq_nil_or_concat l with rfl | ⟨init, last, rfl⟩
  · rfl
  · simp [List.concat_eq_append, swapRemove_concat]

theorem perm_swapRemove (inside : i < l.length) : l.Perm (l[i] :: swapRemove l i) := by
  obtain rfl | ⟨init, last, rfl⟩ := List.eq_nil_or_concat l
  · exact absurd inside (Nat.not_lt_zero i)
  simp only [List.concat_eq_append] at inside ⊢
  rw [swapRemove_concat]
  rcases Nat.lt_or_ge i init.length with early | late
  · rw [List.getElem_append_left early]
    calc init ++ [last] ~ last :: init := List.perm_append_singleton last init
      _ ~ last :: init[i] :: init.eraseIdx i := ((List.getElem_cons_eraseIdx_perm early).symm).cons _
      _ ~ init[i] :: last :: init.eraseIdx i := List.Perm.swap _ _ _
      _ ~ init[i] :: init.set i last := ((List.set_perm_cons_eraseIdx early last).symm).cons _
  · obtain rfl : i = init.length := by
      rw [List.length_append, List.length_singleton] at inside
      omega
    rw [List.set_eq_of_length_le late, List.getElem_concat_length rfl]
    exact List.perm_append_singleton last init

theorem mem_of_mem_swapRemove {x : α} (inside : i < l.length) (member : x ∈ swapRemove l i) :
    x ∈ l := (perm_swapRemove inside).mem_iff.mpr (List.mem_cons_of_mem _ member)

theorem perm_swapRemoveFirst {x : α} (member : x ∈ l) (only : ∀ y ∈ l, p y = true ↔ y = x) :
    l.Perm (x :: swapRemoveFirst l p) := by
  obtain ⟨j, found⟩ : ∃ j, l.findIdx? p = some j := by
    cases found : l.findIdx? p with
    | none => exact absurd ((only x member).mpr rfl) (by simp [List.findIdx?_eq_none_iff.mp found x member])
    | some j => exact ⟨j, rfl⟩
  obtain ⟨inside, holds, -⟩ := List.findIdx?_eq_some_iff_getElem.mp found
  have here : l[j] = x := (only _ (List.getElem_mem inside)).mp holds
  unfold swapRemoveFirst
  rw [found, ← here]
  exact perm_swapRemove inside

end PathArmor.Library

import Mathlib.Data.List.Induction
import Mathlib.Data.List.Nodup
import Mathlib.Data.List.Perm.Basic

/-!
# Grouping by a key

A map from keys to vectors, in the order of the keys and filled element by element. An element is
left out if another one with the same identity came before.
-/

namespace PathArmor.Library
open scoped List
variable {κ α δ : Type*} [LT κ]

section PushAt
variable [DecidableLT κ] [DecidableEq κ]

/-- `map[k].push_back(a)` -/
def pushAt (k : κ) (a : α) : List (κ × List α) → List (κ × List α)
  | [] => [(k, [a])]
  | (k', group) :: rest =>
      if k < k' then (k, [a]) :: (k', group) :: rest
      else if k = k' then (k', group ++ [a]) :: rest
      else (k', group) :: pushAt k a rest

variable {k : κ} {a : α} {groups : List (κ × List α)}

theorem perm_pushAt (k : κ) (a : α) (groups : List (κ × List α)) :
    (pushAt k a groups).flatMap Prod.snd ~ a :: groups.flatMap Prod.snd := by
  induction groups with
  | nil => exact List.Perm.refl _
  | cons group rest ih =>
      obtain ⟨k', group⟩ := group
      unfold pushAt
      split_ifs
      · exact List.Perm.refl _
      · simp only [List.flatMap_cons, List.append_assoc, List.singleton_append]
        exact List.perm_middle
      · simp only [List.flatMap_cons]
        exact (ih.append_left group).trans List.perm_middle

theorem keyed_pushAt {key : α → κ}
    (keyed : ∀ group ∈ groups, group.2 ≠ [] ∧ ∀ a ∈ group.2, key a = group.1) :
    ∀ group ∈ pushAt (key a) a groups, group.2 ≠ [] ∧ ∀ a ∈ group.2, key a = group.1 := by
  induction groups with
  | nil => simp [pushAt]
  | cons group rest ih =>
      obtain ⟨k', group⟩ := group
      obtain ⟨first, others⟩ := List.forall_mem_cons.mp keyed
      unfold pushAt
      split_ifs with before same
      · simpa using keyed
      · subst same
        refine List.forall_mem_cons.mpr ⟨⟨by simp, ?_⟩, others⟩
        intro b member
        rcases List.mem_append.mp member with old | new
        · exact first.2 b old
        · rw [List.mem_singleton.mp new]
      · exact List.forall_mem_cons.mpr ⟨first, ih others⟩

theorem key_mem_pushAt {group : κ × List α} (member : group ∈ pushAt k a groups) :
    group.1 = k ∨ ∃ old ∈ groups, old.1 = group.1 := by
  induction groups with
  | nil => simp_all [pushAt]
  | cons first rest ih =>
      obtain ⟨k', first⟩ := first
      unfold pushAt at member
      grind

variable [LE κ] [Std.IsLinearOrder κ] [Std.LawfulOrderLT κ]

theorem sorted_pushAt (sorted : groups.Pairwise (·.1 < ·.1)) :
    (pushAt k a groups).Pairwise (·.1 < ·.1) := by
  induction groups with
  | nil => exact List.pairwise_singleton _ _
  | cons group rest ih =>
      obtain ⟨k', group⟩ := group
      obtain ⟨behind, sorted'⟩ := List.pairwise_cons.mp sorted
      unfold pushAt
      split_ifs with before same
      · refine List.pairwise_cons.mpr ⟨List.forall_mem_cons.mpr ⟨before, ?_⟩, sorted⟩
        intro later member
        exact Std.lt_trans before (behind later member)
      · exact List.pairwise_cons.mpr ⟨behind, sorted'⟩
      · refine List.pairwise_cons.mpr ⟨?_, ih sorted'⟩
        intro later member
        rcases key_mem_pushAt member with here | ⟨old, member', here⟩
        · rw [here]
          exact Std.lt_of_le_of_ne (Std.not_lt.mp before) (Ne.symm same)
        · rw [← here]
          exact behind old member'

end PushAt

structure Grouping (κ α δ : Type*) where
  groups : List (κ × List α) := []
  seen : List δ := []

namespace Grouping

def members (x : Grouping κ α δ) : List α := x.groups.flatMap Prod.snd

/-- The first element of each identity, at its key. -/
structure Of (key : α → κ) (ident : α → δ) (l : List α) (x : Grouping κ α δ) : Prop where
  sorted : x.groups.Pairwise (·.1 < ·.1)
  keyed : ∀ group ∈ x.groups, group.2 ≠ [] ∧ ∀ a ∈ group.2, key a = group.1
  seen : x.seen ~ x.members.map ident
  distinct : x.seen.Nodup
  members_subset : x.members ⊆ l
  complete : ∀ a ∈ l, ident a ∈ x.seen

variable {key : α → κ} {ident : α → δ} {l : List α} {x : Grouping κ α δ} {a : α}

theorem of_empty : Of key ident [] ({} : Grouping κ α δ) where
  sorted := List.Pairwise.nil
  keyed := List.forall_mem_nil _
  seen := List.Perm.refl _
  distinct := List.nodup_nil
  members_subset := List.Subset.refl _
  complete := List.forall_mem_nil _

theorem Of.nodup_keys [LE κ] [Std.LawfulOrderLT κ] (of : Of key ident l x) : (x.groups.map Prod.fst).Nodup := by
  refine List.pairwise_map.mpr (of.sorted.imp ?_)
  intro group later before same
  rw [same] at before
  exact Std.lt_irrefl before

theorem Of.exists_member (of : Of key ident l x) (member : a ∈ l) :
    ∃ b ∈ x.members, ident b = ident a :=
  List.mem_map.mp (of.seen.subset (of.complete a member))

theorem Of.eq_of_ident (of : Of key ident l x) {b : α} (first : a ∈ x.members)
    (second : b ∈ x.members) (same : ident a = ident b) : a = b :=
  List.inj_on_of_nodup_map (of.seen.nodup_iff.mp of.distinct) first second same

theorem Of.key_mem (of : Of key ident l x) (member : a ∈ x.members) :
    ∃ group ∈ x.groups, a ∈ group.2 ∧ group.1 = key a := by
  obtain ⟨group, listed, inside⟩ := List.mem_flatMap.mp member
  exact ⟨group, listed, inside, ((of.keyed group listed).2 a inside).symm⟩

section Add
variable [DecidableLT κ] [DecidableEq κ] [DecidableEq δ]

def add (key : α → κ) (ident : α → δ) (x : Grouping κ α δ) (a : α) : Grouping κ α δ :=
  if ident a ∈ x.seen then x
  else { groups := pushAt (key a) a x.groups, seen := ident a :: x.seen }

variable [LE κ] [Std.IsLinearOrder κ] [Std.LawfulOrderLT κ]

theorem Of.add (of : Of key ident l x) (a : α) :
    Of key ident (l ++ [a]) (x.add key ident a) := by
  unfold Grouping.add
  split_ifs with already
  · refine ⟨of.sorted, of.keyed, of.seen, of.distinct, ?_, ?_⟩
    · exact fun b member => List.mem_append_left _ (of.members_subset member)
    · exact List.forall_mem_append.mpr ⟨of.complete, by simpa using already⟩
  · have pushed := perm_pushAt (key a) a x.groups
    refine ⟨sorted_pushAt of.sorted, keyed_pushAt of.keyed, ?_, ?_, ?_, ?_⟩
    · exact (of.seen.cons _).trans (pushed.map ident).symm
    · exact List.nodup_cons.mpr ⟨already, of.distinct⟩
    · intro b member
      rcases List.mem_cons.mp (pushed.subset member) with rfl | old
      · exact List.mem_append_right _ (List.mem_singleton_self b)
      · exact List.mem_append_left _ (of.members_subset old)
    · refine List.forall_mem_append.mpr ⟨?_, by simp⟩
      exact fun b member => List.mem_cons_of_mem _ (of.complete b member)

theorem of_foldl (l : List α) : Of key ident l (l.foldl (Grouping.add key ident) {}) := by
  induction l using List.reverseRecOn with
  | nil => exact of_empty
  | append_singleton l a ih =>
      rw [List.foldl_append]
      exact ih.add a

end Add

end Grouping

end PathArmor.Library

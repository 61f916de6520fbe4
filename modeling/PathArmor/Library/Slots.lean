import Mathlib.Data.List.FinRange
import Mathlib.Data.Set.Card

/-!
# Arrays of owned slots

A table of a fixed number of slots, claimed first fit and given back by their owners. `Holds` says
that such an array stores a function of the owners: one slot for each owner that has something
stored, and none for the others.
-/

namespace PathArmor.Library

/-- How a slot is read: to whom it belongs and what it stores. -/
structure Layout (σ κ β : Type*) where
  owner : σ → Option κ
  view : σ → β
  empty : β

namespace Layout
variable {σ κ β : Type*} [DecidableEq κ] (L : Layout σ κ β) {n : Nat}

/-- The first slot of `o`; the first free one for `none`. -/
def find (slots : Fin n → σ) (o : Option κ) : Option (Fin n) :=
  (List.finRange n).find? fun i => L.owner (slots i) = o

structure Holds (slots : Fin n → σ) (contents : κ → β) : Prop where
  exclusive : ∀ {i j k}, L.owner (slots i) = some k → L.owner (slots j) = some k → i = j
  held : ∀ {i k}, L.owner (slots i) = some k →
    L.view (slots i) = contents k ∧ contents k ≠ L.empty
  owned : ∀ {k}, contents k ≠ L.empty → ∃ i, L.owner (slots i) = some k
  free : ∀ {i}, L.owner (slots i) = none → L.view (slots i) = L.empty

/-- At most one slot belongs to `k`, and one exactly if `stored`. -/
def OwnsIff (slots : Fin n → σ) (k : κ) (stored : Prop) : Prop :=
  (∀ i j, L.owner (slots i) = some k → L.owner (slots j) = some k → i = j) ∧
    ((∃ i, L.owner (slots i) = some k) ↔ stored)

variable {L} {slots : Fin n → σ} {contents : κ → β}

theorem owner_of_find {o : Option κ} {i : Fin n} (found : L.find slots o = some i) :
    L.owner (slots i) = o := by
  simpa using List.find?_some found

theorem find_eq_none {o : Option κ} : L.find slots o = none ↔ ∀ i, L.owner (slots i) ≠ o := by
  simp [find, List.find?_eq_none]

namespace Holds

theorem find_eq_some (holds : L.Holds slots contents) {k : κ} {i : Fin n} :
    L.find slots (some k) = some i ↔ L.owner (slots i) = some k := by
  refine ⟨owner_of_find, fun owner => ?_⟩
  cases found : L.find slots (some k) with
  | none => exact absurd owner (find_eq_none.mp found i)
  | some j => rw [holds.exclusive owner (owner_of_find found)]

omit [DecidableEq κ] in
theorem owner_iff (holds : L.Holds slots contents) {k : κ} :
    (∃ i, L.owner (slots i) = some k) ↔ contents k ≠ L.empty :=
  ⟨fun ⟨_, owner⟩ => (holds.held owner).2, holds.owned⟩

omit [DecidableEq κ] in
theorem ownsIff (holds : L.Holds slots contents) (k : κ) :
    L.OwnsIff slots k (contents k ≠ L.empty) :=
  ⟨fun _ _ => holds.exclusive, holds.owner_iff⟩

theorem find_none_iff (holds : L.Holds slots contents) {k : κ} :
    L.find slots (some k) = none ↔ contents k = L.empty := by
  rw [find_eq_none, ← not_exists, holds.owner_iff, not_not]

theorem put (holds : L.Holds slots contents) {i : Fin n} {k : κ} {slot : σ}
    (mine : L.owner (slots i) = some k ∨ L.owner (slots i) = none ∧ contents k = L.empty)
    (owner : L.owner slot = none ↔ L.view slot = L.empty)
    (owner' : L.owner slot = none ∨ L.owner slot = some k) :
    L.Holds (Function.update slots i slot) (Function.update contents k (L.view slot)) := by
  have others {j : Fin n} {k' : κ} (differs : j ≠ i) (owns : L.owner (slots j) = some k') :
      k' ≠ k := by
    rintro rfl
    rcases mine with same | ⟨-, nothing⟩
    · exact differs (holds.exclusive owns same)
    · exact (holds.held owns).2 nothing
  have elsewhere {j : Fin n} {k' : κ} (other : k' ≠ k) (owns : L.owner (slots j) = some k') :
      j ≠ i := by
    rintro rfl
    rcases mine with same | ⟨nobody, -⟩
    · exact other (Option.some.inj (owns.symm.trans same))
    · simp [owns] at nobody
  have here {k' : κ} (owns : L.owner slot = some k') : k' = k := by
    cases owner' with
    | inl nobody => simp [owns] at nobody
    | inr own => exact Option.some.inj (owns.symm.trans own)
  constructor
  case exclusive =>
    intro j j' k' first second
    rcases eq_or_ne i j with rfl | differs <;> rcases eq_or_ne i j' with rfl | differs'
    · rfl
    · rw [Function.update_self] at first
      rw [Function.update_of_ne differs'.symm] at second
      exact absurd (here first) (others differs'.symm second)
    · rw [Function.update_of_ne differs.symm] at first
      rw [Function.update_self] at second
      exact absurd (here second) (others differs.symm first)
    · rw [Function.update_of_ne differs.symm] at first
      rw [Function.update_of_ne differs'.symm] at second
      exact holds.exclusive first second
  case held =>
    intro j k' owns
    rcases eq_or_ne j i with rfl | differs
    · rw [Function.update_self] at owns
      obtain rfl := here owns
      simp [← owner, owns]
    · rw [Function.update_of_ne differs] at owns
      simpa [differs, others differs owns] using holds.held owns
  case owned =>
    intro k' stored
    rcases eq_or_ne k' k with rfl | other
    · refine ⟨i, ?_⟩
      rw [Function.update_self, ne_eq, ← owner] at stored
      rw [Function.update_self]
      exact owner'.resolve_left stored
    · rw [Function.update_of_ne other] at stored
      obtain ⟨j, owns⟩ := holds.owned stored
      exact ⟨j, by rwa [Function.update_of_ne (elsewhere other owns)]⟩
  case free =>
    intro j nobody
    rcases eq_or_ne j i with rfl | differs
    · simpa [owner] using nobody
    · rw [Function.update_of_ne differs] at nobody ⊢
      exact holds.free nobody

theorem find_free (holds : L.Holds slots contents) {k : κ} (nothing : contents k = L.empty)
    (room : (insert k {k' | contents k' ≠ L.empty}).encard ≤ n) :
    ∃ i, L.find slots none = some i := by
  cases found : L.find slots none with
  | some i => exact ⟨i, rfl⟩
  | none =>
      exfalso
      have taken (i : Fin n) : ∃ k', L.owner (slots i) = some k' :=
        Option.ne_none_iff_exists'.mp (find_eq_none.mp found i)
      choose key owner using taken
      have injective : Function.Injective key := fun i j same =>
        holds.exclusive (owner i) (same ▸ owner j)
      have absent : k ∉ Set.range key := by
        rintro ⟨i, rfl⟩
        exact (holds.held (owner i)).2 nothing
      have inside : insert k (Set.range key) ⊆ insert k {k' | contents k' ≠ L.empty} := by
        apply Set.insert_subset_insert
        rintro _ ⟨i, rfl⟩
        exact (holds.held (owner i)).2
      have count := (Set.encard_le_encard inside).trans room
      rw [Set.encard_insert_of_notMem absent, ← Set.image_univ, injective.encard_image,
        Set.encard_univ, ENat.card_eq_coe_fintype_card, Fintype.card_fin] at count
      exact absurd (by exact_mod_cast count) (Nat.not_succ_le_self n)

end Holds

/-! ## Without a bound on the owners -/

variable (L) in
def Owns (slots : Fin n → σ) (k : κ) : Prop := ∃ i, L.owner (slots i) = some k

variable (L) in
def Exclusive (slots : Fin n → σ) : Prop :=
  ∀ {i j k}, L.owner (slots i) = some k → L.owner (slots j) = some k → i = j

variable (L) in
/-- At most one slot is written. It is given back, kept by its owner, or taken by `k`, who had
none. -/
def Moves (k : κ) (slots slots' : Fin n → σ) : Prop :=
  slots' = slots ∨ ∃ i slot, slots' = Function.update slots i slot ∧
    (L.owner slot = none ∨ L.owner slot = L.owner (slots i) ∨
      L.owner slot = some k ∧ ¬ L.Owns slots k)

variable (L) in
/-- A slot of `k` is given back, if there is one. -/
def Releases (k : κ) (slots slots' : Fin n → σ) : Prop :=
  ¬ L.Owns slots k ∧ slots' = slots ∨ ∃ i slot, L.owner (slots i) = some k ∧
    L.owner slot = none ∧ slots' = Function.update slots i slot

section
variable {slots' : Fin n → σ} {k u : κ}

omit [DecidableEq κ] in
theorem Moves.owns (moves : L.Moves k slots slots') (owns : L.Owns slots' u) :
    L.Owns slots u ∨ u = k := by
  obtain ⟨j, owner⟩ := owns
  cases moves with
  | inl same =>
      rw [same] at owner
      exact .inl ⟨j, owner⟩
  | inr written =>
      obtain ⟨i, slot, rfl, owner'⟩ := written
      rcases eq_or_ne j i with rfl | other
      · rw [Function.update_self] at owner
        rcases owner' with nobody | same | ⟨mine, -⟩
        · simp [owner] at nobody
        · exact .inl ⟨j, same ▸ owner⟩
        · exact .inr (Option.some.inj (owner.symm.trans mine))
      · rw [Function.update_of_ne other] at owner
        exact .inl ⟨j, owner⟩

omit [DecidableEq κ] in
theorem Moves.exclusive (moves : L.Moves k slots slots') (exclusive : L.Exclusive slots) :
    L.Exclusive slots' := by
  cases moves with
  | inl same => rwa [same]
  | inr written =>
      obtain ⟨i, slot, rfl, owner'⟩ := written
      have here {j : Fin n} {u : κ} (other : j ≠ i) (written : L.owner slot = some u)
          (owner : L.owner (slots j) = some u) : False := by
        rcases owner' with nobody | same | ⟨mine, absent⟩
        · simp [written] at nobody
        · exact other (exclusive owner (same ▸ written))
        · obtain rfl := Option.some.inj (written.symm.trans mine)
          exact absent ⟨j, owner⟩
      intro j j' u first second
      rcases eq_or_ne j i with rfl | other <;> rcases eq_or_ne j' j with rfl | other'
      · rfl
      · rw [Function.update_self] at first
        rw [Function.update_of_ne other'] at second
        exact (here other' first second).elim
      · rfl
      · rw [Function.update_of_ne other] at first
        rcases eq_or_ne j' i with rfl | elsewhere
        · rw [Function.update_self] at second
          exact (here other second first).elim
        · rw [Function.update_of_ne elsewhere] at second
          exact exclusive first second

omit [DecidableEq κ] in
theorem Releases.moves (releases : L.Releases k slots slots') : L.Moves k slots slots' := by
  rcases releases with ⟨-, same⟩ | ⟨i, slot, -, released, written⟩
  · exact .inl same
  · exact .inr ⟨i, slot, written, .inl released⟩

omit [DecidableEq κ] in
theorem Releases.not_owns (releases : L.Releases k slots slots') (exclusive : L.Exclusive slots) :
    ¬ L.Owns slots' k := by
  rcases releases with ⟨absent, rfl⟩ | ⟨i, slot, owner, released, rfl⟩
  · exact absent
  · rintro ⟨j, still⟩
    rcases eq_or_ne j i with rfl | other
    · rw [Function.update_self, released] at still
      cases still
    · rw [Function.update_of_ne other] at still
      exact other (exclusive still owner)

end

end Layout

theorem encard_le_of_covers {κ : Type*} {P : κ → Prop} {n : Nat} (few : Finset κ)
    (small : few.card ≤ n) (covers : ∀ k, P k → k ∈ few) : {k | P k}.encard ≤ n :=
  calc {k | P k}.encard ≤ (few : Set κ).encard := Set.encard_le_encard fun k => covers k
    _ = few.card := Set.encard_coe_eq_coe_finsetCard few
    _ ≤ n := by exact_mod_cast small

end PathArmor.Library

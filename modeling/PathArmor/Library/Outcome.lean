import Mathlib.Data.Option.Basic

/-!
# Steps that may fail

`Returns o fails post` is what a computation with the outcome `o` guarantees: a result that satisfies
`post`, or a failure, and then `fails`. The failure is carried through a run as one proposition
about where it started, and is discharged once at the end.
-/

namespace PathArmor.Library

def Returns {α : Type*} (o : Option α) (fails : Prop) (post : α → Prop) : Prop :=
  o.elim fails post

namespace Returns
variable {α β : Type*} {fails : Prop} {o : Option α} {post : α → Prop}

theorem of_some {a : α} (holds : post a) : Returns (some a) fails post := holds

theorem of_none (failed : fails) : Returns none fails post := failed

theorem elim_some (returns : Returns o fails post) {a : α} (out : o = some a) : post a := by
  subst out
  exact returns

theorem exists_some (returns : Returns o fails post) (succeeds : ¬ fails) : ∃ a, o = some a ∧ post a := by
  cases o with
  | none => exact absurd returns succeeds
  | some a => exact ⟨a, rfl, returns⟩

theorem imp {failed : Prop} {weaker : α → Prop} (returns : Returns o fails post) (fail : fails → failed)
    (weaken : ∀ a, post a → weaker a) : Returns o failed weaker := by
  cases o with
  | none => exact fail returns
  | some a => exact weaken a returns

theorem and {also : α → Prop} (returns : Returns o fails post) (second : Returns o fails also) :
    Returns o fails fun a => post a ∧ also a := by
  cases o with
  | none => exact returns
  | some a => exact ⟨returns, second⟩

theorem bind {f : α → Option β} {last : β → Prop} (returns : Returns o fails post)
    (next : ∀ a, post a → Returns (f a) fails last) : Returns (o.bind f) fails last := by
  cases o with
  | none => exact returns
  | some a => exact next a returns

theorem map {f : α → β} {last : β → Prop} (returns : Returns o fails post)
    (next : ∀ a, post a → last (f a)) : Returns (o.map f) fails last := by
  cases o with
  | none => exact returns
  | some a => exact next a returns

/-- A loop that settles each of its elements for good. -/
theorem foldlM {f : α → β → Option α} (invariant : α → Prop) (settled : β → α → Prop)
    {xs : List β} (step : ∀ x ∈ xs, ∀ a, invariant a → Returns (f a x) fails fun a' =>
      invariant a' ∧ settled x a' ∧ ∀ y, settled y a → settled y a')
    {a : α} (holds : invariant a) : Returns (xs.foldlM f a) fails fun a' =>
      invariant a' ∧ (∀ x ∈ xs, settled x a') ∧ ∀ y, settled y a → settled y a' := by
  induction xs generalizing a with
  | nil => exact of_some ⟨holds, by simp, fun _ => id⟩
  | cons x rest ih =>
      rw [List.foldlM_cons]
      refine (step x List.mem_cons_self a holds).bind fun a₁ ⟨holds₁, settledX, kept₁⟩ => ?_
      refine (ih (fun y member => step y (List.mem_cons_of_mem _ member)) holds₁).imp id ?_
      intro a' ⟨holds', settledRest, kept⟩
      refine ⟨holds', fun y member => ?_, fun y before => kept y (kept₁ y before)⟩
      rcases List.mem_cons.mp member with rfl | member
      · exact kept y settledX
      · exact settledRest y member

theorem foldlM_invariant {f : α → β → Option α} {invariant : α → Prop} {xs : List β}
    (step : ∀ x ∈ xs, ∀ a, invariant a → Returns (f a x) fails invariant) {a : α}
    (holds : invariant a) : Returns (xs.foldlM f a) fails invariant :=
  (foldlM invariant (fun _ _ => True) (fun x member a holds => (step x member a holds).imp id
    fun _ kept => ⟨kept, trivial, fun _ _ => trivial⟩) holds).imp id fun _ kept => kept.1

end Returns

end PathArmor.Library

import Mathlib.Data.Finset.Card
import PathArmor.Library.Outcome

namespace PathArmor.Library

/-- The queue of a breadth first search and what was ever put on it. -/
structure Worklist (α : Type*) where
  queue : List α
  seen : α → Bool

namespace Worklist
variable {α σ : Type*}

section
variable [DecidableEq α]

def start (a : α) : Worklist α where
  queue := [a]
  seen x := x == a

def schedule (w : Worklist α) (x : α) : Worklist α :=
  if w.seen x then w
  else { queue := w.queue ++ [x], seen := Function.update w.seen x true }

end

/-- Pop and visit until the queue is empty. A visit may fail, and it may schedule more. -/
def search (visit : α → σ × Worklist α → Option (σ × Worklist α)) :
    Nat → σ × Worklist α → Option (σ × Worklist α)
  | 0, _ => none
  | fuel + 1, (s, w) =>
      match w.queue with
      | [] => some (s, w)
      | x :: rest => (visit x (s, { w with queue := rest })).bind (search visit fuel)

structure Extends (w w' : Worklist α) : Prop where
  seen : ∀ x, w.seen x → w'.seen x
  queue : ∀ x ∈ w.queue, x ∈ w'.queue
  fresh : ∀ x, w'.seen x → w.seen x ∨ x ∈ w'.queue
  queued : ∀ x ∈ w'.queue, x ∈ w.queue ∨ w'.seen x

def cost (nodes : Finset α) (w : Worklist α) : Nat :=
  {x ∈ nodes | w.seen x = false}.card + w.queue.length

theorem Extends.refl (w : Worklist α) : w.Extends w :=
  ⟨fun _ => id, fun _ => id, fun _ => .inl, fun _ => .inl⟩

theorem Extends.trans {a b c : Worklist α} (first : a.Extends b) (second : b.Extends c) :
    a.Extends c where
  seen x seen := second.seen x (first.seen x seen)
  queue x queued := second.queue x (first.queue x queued)
  fresh x seen := by
    cases second.fresh x seen with
    | inl seen => exact (first.fresh x seen).imp_right (second.queue x)
    | inr queued => exact .inr queued
  queued x member := by
    cases second.queued x member with
    | inl member => exact (first.queued x member).imp_right (second.seen x)
    | inr seen => exact .inr seen

variable [DecidableEq α]

theorem schedule_seen (w : Worklist α) (x : α) : (w.schedule x).seen x := by
  unfold schedule
  split_ifs with seen
  · exact seen
  · simp

theorem seen_schedule {w : Worklist α} {x y : α} (seen : (w.schedule x).seen y) :
    y = x ∨ w.seen y := by
  unfold schedule at seen
  split_ifs at seen
  · exact .inr seen
  · cases eq_or_ne y x with
    | inl same => exact .inl same
    | inr other => exact .inr (by simpa [other] using seen)

theorem extends_schedule (w : Worklist α) (x : α) : w.Extends (w.schedule x) := by
  refine ⟨fun y seen => ?_, fun y queued => ?_, fun y seen => ?_, fun y queued => ?_⟩
  · unfold schedule
    split_ifs
    · exact seen
    · rcases eq_or_ne y x with rfl | other
      · simp
      · simpa [other] using seen
  · unfold schedule
    split_ifs
    · exact queued
    · exact List.mem_append_left _ queued
  · rcases seen_schedule seen with rfl | seen
    · unfold schedule
      split_ifs with before
      · exact .inl before
      · exact .inr (by simp)
    · exact .inl seen
  · unfold schedule at queued ⊢
    split_ifs at queued ⊢
    · exact .inl queued
    · cases List.mem_append.mp queued with
      | inl old => exact .inl old
      | inr new => exact .inr (by simp [List.mem_singleton.mp new])

theorem cost_schedule_le {nodes : Finset α} (w : Worklist α) {x : α} (member : x ∈ nodes) :
    (w.schedule x).cost nodes ≤ w.cost nodes := by
  unfold schedule
  split_ifs with seen
  · exact le_rfl
  · have fewer : {y ∈ nodes | Function.update w.seen x true y = false} =
        {y ∈ nodes | w.seen y = false}.erase x := by
      ext y
      rcases eq_or_ne y x with rfl | other
      · simp
      · simp [other]
    have unseen : x ∈ {y ∈ nodes | w.seen y = false} := by simpa [member] using seen
    have := Finset.card_erase_lt_of_mem unseen
    simp only [cost, fewer, List.length_append, List.length_singleton]
    omega

theorem cost_start_le {nodes : Finset α} {a : α} (member : a ∈ nodes) :
    (start a).cost nodes ≤ nodes.card := by
  have unseen : {x ∈ nodes | (start a).seen x = false} ⊆ nodes.erase a := by
    intro x
    simp only [start, Finset.mem_filter, beq_eq_false_iff_ne, Finset.mem_erase]
    exact fun ⟨inside, other⟩ => ⟨other, inside⟩
  have := Finset.card_le_card unseen
  have := Finset.card_erase_lt_of_mem member
  simp only [cost, start, List.length_singleton] at *
  omega

omit [DecidableEq α] in
theorem search_invariant {visit : α → σ × Worklist α → Option (σ × Worklist α)} {invariant : σ → Prop}
    (keeps : ∀ x s w, invariant s → Returns (visit x (s, w)) True fun state => invariant state.1)
    {fuel : Nat} {s : σ} {w : Worklist α} (holds : invariant s) :
    Returns (search visit fuel (s, w)) True fun state => invariant state.1 := by
  induction fuel generalizing s w with
  | zero => exact .of_none trivial
  | succ fuel ih =>
      obtain ⟨queue, seen⟩ := w
      cases queue with
      | nil => exact .of_some holds
      | cons x rest => exact (keeps x s ⟨rest, seen⟩ holds).bind fun _ kept => ih kept

omit [DecidableEq α] in
/-- An invariant that also speaks about what is on the queue. -/
theorem search_within {visit : α → σ × Worklist α → Option (σ × Worklist α)} {invariant : σ → Prop}
    {inside : α → Prop}
    (keeps : ∀ x s w, inside x → invariant s → (∀ y ∈ w.queue, inside y) →
      Returns (visit x (s, w)) True fun state => invariant state.1 ∧ ∀ y ∈ state.2.queue, inside y)
    {fuel : Nat} {s : σ} {w : Worklist α} (holds : invariant s) (queued : ∀ y ∈ w.queue, inside y) :
    Returns (search visit fuel (s, w)) True fun state => invariant state.1 := by
  induction fuel generalizing s w with
  | zero => exact .of_none trivial
  | succ fuel ih =>
      obtain ⟨queue, seen⟩ := w
      cases queue with
      | nil => exact .of_some holds
      | cons x rest =>
          have later : ∀ y ∈ rest, inside y := fun y member => queued y (List.mem_cons_of_mem x member)
          refine (keeps x s ⟨rest, seen⟩ (queued x List.mem_cons_self) holds later).bind ?_
          exact fun _ kept => ih kept.1 kept.2

omit [DecidableEq α] in
/-- If every visit that succeeds settles its element for good and keeps to `nodes`, then the search
ends with everything it saw settled, unless a visit fails. -/
theorem search_settles {nodes : Finset α} {fails : Prop}
    {visit : α → σ × Worklist α → Option (σ × Worklist α)}
    (invariant : σ → (α → Bool) → Prop) (settled : α → σ → (α → Bool) → Prop)
    (visit_spec : ∀ x s w, w.seen x → invariant s w.seen →
      Returns (visit x (s, w)) fails fun (s', w') => invariant s' w'.seen ∧ w.Extends w' ∧
        w'.cost nodes ≤ w.cost nodes ∧ settled x s' w'.seen ∧
        ∀ y, settled y s w.seen → settled y s' w'.seen)
    {fuel : Nat} {s : σ} {w : Worklist α} (holds : invariant s w.seen)
    (queued_seen : ∀ x ∈ w.queue, w.seen x)
    (waiting : ∀ x, w.seen x → x ∈ w.queue ∨ settled x s w.seen)
    (enough : w.cost nodes < fuel) :
    Returns (search visit fuel (s, w)) fails fun (s', w') => invariant s' w'.seen ∧
      (∀ x, w.seen x → w'.seen x) ∧ ∀ x, w'.seen x → settled x s' w'.seen := by
  induction fuel generalizing s w with
  | zero => omega
  | succ fuel ih =>
      obtain ⟨queue, seen⟩ := w
      cases queue with
      | nil => exact .of_some ⟨holds, fun _ => id, fun x seen => by simpa using waiting x seen⟩
      | cons x rest =>
          refine (visit_spec x s ⟨rest, seen⟩ (queued_seen x List.mem_cons_self) holds).bind ?_
          intro (s₁, w₁) ⟨holds₁, extends₁, cheaper, settledX, kept⟩
          have queued_seen₁ : ∀ y ∈ w₁.queue, w₁.seen y := by
            intro y member
            cases extends₁.queued y member with
            | inl old => exact extends₁.seen y (queued_seen y (List.mem_cons_of_mem _ old))
            | inr seenY => exact seenY
          have waiting₁ : ∀ y, w₁.seen y → y ∈ w₁.queue ∨ settled y s₁ w₁.seen := by
            intro y seenY
            cases extends₁.fresh y seenY with
            | inl old =>
                cases waiting y old with
                | inl queued =>
                    rcases List.mem_cons.mp queued with rfl | queued
                    · exact .inr settledX
                    · exact .inl (extends₁.queue y queued)
                | inr done => exact .inr (kept y done)
            | inr queued => exact .inl queued
          have enough₁ : w₁.cost nodes < fuel := by
            simp only [cost, List.length_cons] at enough cheaper ⊢
            omega
          refine (ih holds₁ queued_seen₁ waiting₁ enough₁).imp id ?_
          intro (s', w') ⟨holds', seen', settled'⟩
          exact ⟨holds', fun y seenY => seen' y (extends₁.seen y seenY), settled'⟩

end Worklist

end PathArmor.Library

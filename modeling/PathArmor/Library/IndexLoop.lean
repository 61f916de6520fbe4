import Mathlib.Data.Finset.Card
import Mathlib.Data.Finset.Lattice.Fold
import Mathlib.Data.List.Sort

/-!
# Loops by index over a growing set

The loop reads its ordered set again in every round. A round may put an element in, and an element
that goes in before the index moves the current one on, so that it is visited again. The loop still
visits all that was there, and it ends if what goes in puts nothing in itself: there are only
finitely many places before the elements that do.
-/

namespace PathArmor.Library.IndexLoop
variable {σ ι : Type*}

def loop (items : σ → List ι) (body : σ → ι → Option σ) : Nat → Nat → σ → Option σ
  | 0, _, _ => none
  | fuel + 1, i, s =>
      match (items s)[i]? with
      | none => some s
      | some x => (body s x).bind (loop items body fuel (i + 1))

/-- All runs with enough fuel end in the same state. -/
def Converges (run : Nat → Option σ) (post : σ → Prop) : Prop :=
  ∃ s, post s ∧ ∃ enough, ∀ fuel ≥ enough, run fuel = some s

namespace Converges
variable {run : Nat → Option σ} {post : σ → Prop}

theorem of_some {s : σ} (holds : post s) : Converges (fun _ => some s) post :=
  ⟨s, holds, 0, fun _ _ => rfl⟩

theorem map {f : σ → σ} {last : σ → Prop} (converges : Converges run post)
    (next : ∀ s, post s → last (f s)) : Converges (fun fuel => (run fuel).map f) last := by
  obtain ⟨s, holds, enough, ran⟩ := converges
  refine ⟨f s, next s holds, enough, fun fuel above => ?_⟩
  simp only [ran fuel above, Option.map_some]

theorem imp {last : σ → Prop} (converges : Converges run post) (next : ∀ s, post s → last s) :
    Converges run last := by
  obtain ⟨s, holds, ran⟩ := converges
  exact ⟨s, next s holds, ran⟩

end Converges

section Total
variable {items : σ → List ι} {body : Nat → σ → ι → Option σ} (invariant : Nat → σ → Prop)
  (variant : Nat → σ → Nat)

-- The rounds share the fuel of the loop, which itself spends its own.
theorem loop_converges_of_lt (step : ∀ i s x, invariant i s → (items s)[i]? = some x →
      Converges (body · s x) fun s' => invariant (i + 1) s' ∧ variant (i + 1) s' < variant i s)
    {n i : Nat} {s : σ} (holds : invariant i s) (below : variant i s < n) :
    ∃ s', (∃ j, invariant j s' ∧ (items s')[j]? = none) ∧ ∃ enough, ∀ inner ≥ enough,
      ∀ fuel ≥ enough, loop items (body inner) fuel i s = some s' := by
  induction n generalizing i s with
  | zero => exact absurd below (Nat.not_lt_zero _)
  | succ n ih =>
      cases here : (items s)[i]? with
      | none =>
          refine ⟨s, ⟨i, holds, here⟩, 1, fun inner _ fuel above => ?_⟩
          obtain ⟨fuel, rfl⟩ := Nat.exists_eq_add_of_le' above
          simp [loop, here]
      | some x =>
          obtain ⟨s₁, ⟨holds₁, less⟩, enough₁, round⟩ := step i s x holds here
          obtain ⟨s', post, enough, rest⟩ := ih holds₁ (by omega)
          refine ⟨s', post, max enough₁ enough + 1, fun inner innerAbove fuel above => ?_⟩
          obtain ⟨fuel, rfl⟩ := Nat.exists_eq_add_of_le' ((Nat.le_add_left 1 _).trans above)
          have ran : body inner s x = some s₁ := round inner (by omega)
          simp only [loop, here, ran, Option.bind_some]
          exact rest inner (by omega) fuel (by omega)

theorem loop_converges (step : ∀ i s x, invariant i s → (items s)[i]? = some x →
      Converges (body · s x) fun s' => invariant (i + 1) s' ∧ variant (i + 1) s' < variant i s)
    {i : Nat} {s : σ} (holds : invariant i s) :
    Converges (fun fuel => loop items (body fuel) fuel i s)
      fun s' => ∃ j, invariant j s' ∧ (items s')[j]? = none := by
  obtain ⟨s', post, enough, ran⟩ :=
    loop_converges_of_lt invariant variant step holds (Nat.lt_succ_self _)
  exact ⟨s', post, enough, fun fuel above => ran fuel above fuel above⟩

end Total

/-! ## Growing sets -/

/-- Numbers are handed out in order, and `key` is the place of a number in the sets. -/
structure OrderedSet (σ : Type*) where
  items : σ → List Nat
  next : σ → Nat
  key : Nat → Nat
  injective : Function.Injective key

namespace OrderedSet
variable (o : OrderedSet σ)

def put (x : Nat) (xs : List Nat) : List Nat := xs.orderedInsert (fun x y => o.key x ≤ o.key y) x

/-- The round for `x` leaves the set as it is, or puts the next number in. Only numbers before
`start` put others in. -/
inductive Round (start x : Nat) (s s' : σ) : Prop
  | keeps (same : o.items s' = o.items s) (later : o.next s ≤ o.next s')
  | puts (old : x < start) (more : o.items s' = o.put (o.next s) (o.items s))
      (next : o.next s' = o.next s + 1)

theorem drop_subset_put (x n : Nat) (xs : List Nat) : xs.drop n ⊆ (o.put x xs).drop n := by
  induction xs generalizing n with
  | nil => simp
  | cons y ys ih =>
      unfold put
      rw [List.orderedInsert_cons]
      split_ifs
      · cases n with
        | zero => exact List.subset_cons_self _ _
        | succ n => exact List.drop_subset_drop_left (y :: ys) (Nat.le_succ n)
      · cases n with
        | zero => exact List.cons_subset_cons y (ih 0)
        | succ n => exact ih n

theorem Round.drop_subset {o : OrderedSet σ} {start x : Nat} {s s' : σ}
    (round : o.Round start x s s') (n : Nat) : (o.items s).drop n ⊆ (o.items s').drop n := by
  cases round with
  | keeps same later => rw [same]; exact List.Subset.refl _
  | puts old more next => rw [more]; exact o.drop_subset_put _ n _

theorem Round.next_le {o : OrderedSet σ} {start x : Nat} {s s' : σ} (round : o.Round start x s s') :
    o.next s ≤ o.next s' := by
  cases round with
  | keeps same later => exact later
  | puts old more next => rw [next]; exact Nat.le_succ _

section Room
variable (bound : Nat)

/-- The numbers handed out with a place up to the bound. -/
def used (s : σ) : Nat := {x ∈ Finset.range (o.next s) | o.key x ≤ bound}.card

theorem used_le (s : σ) : o.used bound s ≤ bound + 1 := by
  rw [used, ← Finset.card_range (bound + 1)]
  refine Finset.card_le_card_of_injOn o.key (fun x member => ?_) o.injective.injOn
  have low := (Finset.mem_filter.mp member).2
  simpa using Nat.lt_succ_of_le low

theorem used_mono {s s' : σ} (later : o.next s ≤ o.next s') : o.used bound s ≤ o.used bound s' :=
  Finset.card_le_card (Finset.filter_subset_filter _ (Finset.range_subset_range.mpr later))

theorem used_put {s s' : σ} (next : o.next s' = o.next s + 1) (low : o.key (o.next s) ≤ bound) :
    o.used bound s' = o.used bound s + 1 := by
  rw [used, next, Finset.range_add_one, Finset.filter_insert, if_pos low,
    Finset.card_insert_of_notMem (by simp), used]

/-- The set up to the bound and beyond it. What is beyond has come in since `start`. -/
structure Split (start : Nat) (xs low high : List Nat) : Prop where
  eq : xs = low ++ high
  low_le : ∀ x ∈ low, o.key x ≤ bound
  lt_high : ∀ x ∈ high, bound < o.key x
  new : ∀ x ∈ high, start ≤ x

variable {o bound}

theorem put_append_of_lt {x : Nat} {low high : List Nat} (above : ∀ y ∈ low, o.key y < o.key x) :
    o.put x (low ++ high) = low ++ o.put x high := by
  induction low with
  | nil => rfl
  | cons y ys ih =>
      have less := above y List.mem_cons_self
      unfold put at ih ⊢
      rw [List.cons_append, List.orderedInsert_cons, if_neg (by omega),
        ih fun z member => above z (List.mem_cons_of_mem y member), List.cons_append]

theorem put_append_of_le {x : Nat} {low high : List Nat} (below : ∀ y ∈ high, o.key x ≤ o.key y) :
    o.put x (low ++ high) = o.put x low ++ high := by
  induction low with
  | nil =>
      cases high with
      | nil => rfl
      | cons y ys =>
          unfold put
          rw [List.nil_append, List.orderedInsert_cons, if_pos (below y List.mem_cons_self)]
          rfl
  | cons y ys ih =>
      unfold put at ih ⊢
      rw [List.cons_append, List.orderedInsert_cons, List.orderedInsert_cons]
      split_ifs
      · rfl
      · rw [ih, List.cons_append]

theorem mem_put {x y : Nat} {xs : List Nat} : y ∈ o.put x xs ↔ y = x ∨ y ∈ xs :=
  List.mem_orderedInsert _

theorem length_put (x : Nat) (xs : List Nat) : (o.put x xs).length = xs.length + 1 :=
  List.orderedInsert_length _ xs x

theorem Split.put_low {start x : Nat} {xs low high : List Nat} (split : o.Split bound start xs low high)
    (small : o.key x ≤ bound) : o.Split bound start (o.put x xs) (o.put x low) high where
  eq := by
    rw [split.eq]
    exact put_append_of_le fun y member => small.trans (split.lt_high y member).le
  low_le y member := by
    cases mem_put.mp member with
    | inl same => exact same ▸ small
    | inr old => exact split.low_le y old
  lt_high := split.lt_high
  new := split.new

theorem Split.put_high {start x : Nat} {xs low high : List Nat}
    (split : o.Split bound start xs low high) (large : bound < o.key x) (fresh : start ≤ x) :
    o.Split bound start (o.put x xs) low (o.put x high) where
  eq := by
    rw [split.eq]
    exact put_append_of_lt fun y member => (split.low_le y member).trans_lt large
  low_le := split.low_le
  lt_high y member := by
    cases mem_put.mp member with
    | inl same => exact same ▸ large
    | inr old => exact split.lt_high y old
  new y member := by
    cases mem_put.mp member with
    | inl same => exact same ▸ fresh
    | inr old => exact split.new y old

end Room

section Visits
variable {o : OrderedSet σ} {bound start : Nat}

variable (o bound) in
/-- Places left up to the bound, elements there that are still to come, and all that are. -/
def remaining (i : Nat) (s : σ) : Nat :=
  2 * (bound + 1 - o.used bound s + ((o.items s).countP (o.key · ≤ bound) - i)) +
    ((o.items s).length - i)

theorem Split.countP {xs low high : List Nat} (split : o.Split bound start xs low high) :
    xs.countP (o.key · ≤ bound) = low.length := by
  have none : high.countP (o.key · ≤ bound) = 0 := by
    simpa [List.countP_eq_zero] using split.lt_high
  have all : low.countP (o.key · ≤ bound) = low.length := by
    simpa [List.countP_eq_length] using split.low_le
  rw [split.eq, List.countP_append, none, all, Nat.add_zero]

theorem Split.lt_of_old {xs low high : List Nat} (split : o.Split bound start xs low high)
    {i x : Nat} (here : xs[i]? = some x) (old : x < start) : i < low.length := by
  by_contra beyond
  rw [split.eq, List.getElem?_append_right (Nat.le_of_not_lt beyond)] at here
  exact absurd (split.new x (List.mem_of_getElem? here)) (by omega)

theorem Round.remaining_lt {i x : Nat} {s s' : σ} (round : o.Round start x s s')
    (later : start ≤ o.next s) {low high : List Nat}
    (split : o.Split bound start (o.items s) low high) (here : (o.items s)[i]? = some x) :
    o.remaining bound (i + 1) s' < o.remaining bound i s ∧
      ∃ low high, o.Split bound start (o.items s') low high := by
  have inside : i < (o.items s).length := (List.getElem?_eq_some_iff.mp here).1
  cases round with
  | keeps same later =>
      refine ⟨?_, low, high, same ▸ split⟩
      have fewer := o.used_mono bound later
      simp only [remaining, same]
      omega
  | puts old more next =>
      have early := split.lt_of_old here old
      have room := o.used_le bound s'
      cases le_or_gt (o.key (o.next s)) bound with
      | inl small =>
          have put := split.put_low small
          have fewer := o.used_put bound next small
          refine ⟨?_, _, _, more ▸ put⟩
          simp only [remaining, more, put.countP, split.countP, length_put]
          omega
      | inr large =>
          have put := split.put_high large later
          have fewer : o.used bound s ≤ o.used bound s' := o.used_mono bound (by omega)
          refine ⟨?_, _, _, more ▸ put⟩
          simp only [remaining, more, put.countP, split.countP, length_put]
          omega

theorem drop_visited {P : Nat → Prop} {xs ys : List Nat} {i x : Nat} (here : xs[i]? = some x)
    (now : P x) (moved : xs.drop (i + 1) ⊆ ys.drop (i + 1)) {y : Nat} (ahead : y ∈ xs.drop i) :
    P y ∨ y ∈ ys.drop (i + 1) := by
  obtain ⟨inside, rfl⟩ := List.getElem?_eq_some_iff.mp here
  rw [List.drop_eq_getElem_cons inside] at ahead
  cases List.mem_cons.mp ahead with
  | inl same => exact .inl (same ▸ now)
  | inr rest => exact .inr (moved rest)

theorem loop_visits {body : Nat → σ → Nat → Option σ} (invariant : σ → Prop)
    (visited : Nat → σ → Prop) {s₀ : σ}
    (step : ∀ s x, invariant s → x ∈ o.items s → Converges (body · s x) fun s' =>
      invariant s' ∧ o.Round (o.next s₀) x s s' ∧ visited x s' ∧ ∀ y, visited y s → visited y s')
    (holds : invariant s₀) : Converges (fun fuel => loop o.items (body fuel) fuel 0 s₀) fun s' =>
      invariant s' ∧ ∀ x ∈ o.items s₀, visited x s' := by
  let bound := (o.items s₀).toFinset.sup o.key
  have low_le : ∀ x ∈ o.items s₀, o.key x ≤ bound := fun x member =>
    Finset.le_sup (f := o.key) (List.mem_toFinset.mpr member)
  refine Converges.imp (loop_converges (fun i s => invariant s ∧ o.next s₀ ≤ o.next s ∧
    (∀ y ∈ o.items s₀, visited y s ∨ y ∈ (o.items s).drop i) ∧
    ∃ low high, o.Split bound (o.next s₀) (o.items s) low high) (o.remaining bound) ?_ ?_) ?_
  · rintro i s x ⟨kept, later, seen, low, high, split⟩ here
    refine (step s x kept (List.mem_of_getElem? here)).imp ?_
    rintro s' ⟨kept', round, now, stays⟩
    obtain ⟨less, split'⟩ := round.remaining_lt later split here
    refine ⟨⟨kept', later.trans round.next_le, fun y member => ?_, split'⟩, less⟩
    cases seen y member with
    | inl before => exact .inl (stays y before)
    | inr ahead => exact drop_visited (P := (visited · s')) here now (round.drop_subset _) ahead
  · refine ⟨holds, le_rfl, fun y member => .inr member, o.items s₀, [], ?_⟩
    exact ⟨(List.append_nil _).symm, low_le, by simp, by simp⟩
  · rintro s' ⟨j, ⟨kept, -, seen, -⟩, past⟩
    refine ⟨kept, fun y member => (seen y member).resolve_right ?_⟩
    rw [List.drop_eq_nil_of_le (List.getElem?_eq_none_iff.mp past)]
    exact List.not_mem_nil

end Visits

end OrderedSet

end PathArmor.Library.IndexLoop

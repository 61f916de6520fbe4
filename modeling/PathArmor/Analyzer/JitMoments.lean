import PathArmor.Analyzer.JitComplete

/-!
# The moments of a search

The recursion of `jitPathExists` is taken apart: which calls are made, how deep they are nested and
in which states the loops over the outgoing edges go on. `budget` is the fuel of the first call,
so the calls made from depth `d` run with fuel `budget - d`.
-/

namespace PathArmor.Analyzer
open PathArmor.Library

namespace Cfg
variable (g : Cfg)

/-- Examining `f` leads to a recursive call for `lbr'` in the state `s'`. -/
inductive Descends (lbr : List EdgeId) (lbrDst f : EdgeId) (s : Search) :
    List EdgeId → Search → Prop
  | plain (visible : (g.edge f).hidden = false) (plainEdge : ¬ g.Recorded f) :
      Descends lbr lbrDst f s lbr s
  | record {code : Nat} {stack : List (Option BlockId)} (visible : (g.edge f).hidden = false)
      (recorded : g.Recorded f) (next : f = lbrDst) (more : ¬ lbr.length - 1 < 2)
      (tracked : g.jitTrackCallstack f false false s.stack = some (code + 1, stack)) :
      Descends lbr lbrDst f s lbr.tail { s with stack }

/-- The loop of a call at `depth` still has `edges` to examine. -/
inductive Moment (budget : Nat) (whole : List EdgeId) (e : EdgeId) :
    Nat → List EdgeId → List EdgeId → Search → Prop
  | start {lbrSrc lbrDst : EdgeId} {lbr : List EdgeId} (list : whole = lbrSrc :: lbrDst :: lbr)
      (fueled : 0 < budget) :
      Moment budget whole e 1 whole (g.outgoing (g.target e)) ((Search.start []).mark e)
  | next {depth : Nat} {lbrSrc lbrDst f : EdgeId} {lbr edges : List EdgeId} {s s' : Search}
      (moment : Moment budget whole e depth (lbrSrc :: lbrDst :: lbr) (f :: edges) s)
      (examined : g.examineEdge (g.jitPathExists (budget - depth)) (lbrSrc :: lbrDst :: lbr) lbrDst
        f s = .rejected s') :
      Moment budget whole e depth (lbrSrc :: lbrDst :: lbr) edges s'
  | enter {depth : Nat} {lbrSrc lbrDst f a b : EdgeId} {lbr lbr' edges : List EdgeId}
      {s s' : Search}
      (moment : Moment budget whole e depth (lbrSrc :: lbrDst :: lbr) (f :: edges) s)
      (descends : g.Descends (lbrSrc :: lbrDst :: lbr) lbrDst f s (a :: b :: lbr') s')
      (fueled : depth < budget) (below : s'.visited f < lbrSize) :
      Moment budget whole e (depth + 1) (a :: b :: lbr') (g.outgoing (g.target f)) (s'.mark f)

/-- A call that is made, before it looks at anything. -/
inductive Called (budget : Nat) (whole : List EdgeId) (e : EdgeId) :
    Nat → List EdgeId → EdgeId → Search → Prop
  | start : Called budget whole e 1 whole e (.start [])
  | descend {depth : Nat} {lbrSrc lbrDst f : EdgeId} {lbr lbr' edges : List EdgeId}
      {s s' : Search}
      (moment : g.Moment budget whole e depth (lbrSrc :: lbrDst :: lbr) (f :: edges) s)
      (descends : g.Descends (lbrSrc :: lbrDst :: lbr) lbrDst f s lbr' s') :
      Called budget whole e (depth + 1) lbr' f s'

def edgeSet : Finset EdgeId := (Finset.range g.edgeCount).filter fun e => g.IsEdge e

variable {g} {recur : List EdgeId → EdgeId → Search → Outcome} {lbr lbr' whole edges : List EdgeId}
  {lbrDst e f : EdgeId} {s s' : Search} {budget depth : Nat}

theorem mem_edgeSet : f ∈ g.edgeSet ↔ g.IsEdge f := by
  simp only [edgeSet, Finset.mem_filter, Finset.mem_range, and_iff_right_iff_imp]
  exact IsEdge.lt

theorem Descends.examineEdge (descends : g.Descends lbr lbrDst f s lbr' s') :
    g.examineEdge recur lbr lbrDst f s = recur lbr' f s' := by
  cases descends with
  | plain visible plainEdge => exact examineEdge_plain visible plainEdge
  | record visible recorded next more tracked =>
      rw [examineEdge_recorded visible recorded, tracked]
      simp [next, more]

theorem Descends.sameVisits (descends : g.Descends lbr lbrDst f s lbr' s') : s.SameVisits s' := by
  cases descends with
  | plain => exact .refl s
  | record => exact ⟨_, rfl⟩

/-- Either a recursive call decides about the edge, or it is decided at once. -/
theorem examineEdge_descends (recur : List EdgeId → EdgeId → Search → Outcome)
    (lbr : List EdgeId) (lbrDst f : EdgeId) (s : Search) :
    (∃ lbr' s', g.Descends lbr lbrDst f s lbr' s') ∨
    g.examineEdge recur lbr lbrDst f s = .aborted ∨
    (∃ s', g.examineEdge recur lbr lbrDst f s = .rejected s') ∨
    f = lbrDst ∧ lbr.length - 1 < 2 ∧ g.Allows s.stack f ∧
      g.examineEdge recur lbr lbrDst f s = .found := by
  have unrolled (t : Search) :
      g.unrollEdge f t = .aborted ∨ ∃ s', g.unrollEdge f t = .rejected s' := by
    rcases unrollEdge_cases (g := g) f t with out | ⟨stack, out⟩
    · exact .inl out
    · exact .inr ⟨_, out⟩
  by_cases hidden : (g.edge f).hidden
  · exact .inr (.inr (.inl ⟨s, examineEdge_hidden hidden⟩))
  rw [Bool.not_eq_true] at hidden
  by_cases recorded : g.Recorded f
  · rw [examineEdge_recorded hidden recorded]
    rcases tracked : g.jitTrackCallstack f false false s.stack with _ | ⟨_ | code, stack⟩
    · exact .inr (.inl rfl)
    · exact .inr ((unrolled _).imp_right .inl)
    · simp only
      split_ifs with next last
      · exact .inr (.inr (.inr ⟨next, last, (allows_of_tracked tracked).1, rfl⟩))
      · exact .inl ⟨_, _, .record hidden recorded next last tracked⟩
      · exact .inr ((unrolled _).imp_right .inl)
  · exact .inl ⟨lbr, s, .plain hidden recorded⟩

theorem exists_descends (out : g.examineEdge recur lbr lbrDst f s = .outOfFuel) :
    ∃ lbr' s', g.Descends lbr lbrDst f s lbr' s' ∧ recur lbr' f s' = .outOfFuel := by
  rcases examineEdge_descends (g := g) recur lbr lbrDst f s with
    ⟨lbr', s', descends⟩ | aborted | ⟨s', rejected⟩ | ⟨-, -, -, found⟩
  · rw [descends.examineEdge] at out
    exact ⟨lbr', s', descends, out⟩
  · simp [aborted] at out
  · simp [rejected] at out
  · simp [found] at out

/-! ## What holds at every moment -/

variable (g) in
structure Orderly (depth : Nat) (edges : List EdgeId) (s : Search) : Prop where
  counted : Counted s
  atMost : ∀ f, s.edge.count f ≤ lbrSize
  entered : ∀ f ∈ s.edge, f ∈ g.edgeSet
  ahead : ∀ f ∈ edges, f ∈ g.edgeSet
  depth : s.edge.length = depth

theorem mem_edgeSet_of_mem {b : BlockId} (member : f ∈ g.outgoing b) : f ∈ g.edgeSet :=
  mem_edgeSet.mpr (isEdge_of_mem member)

theorem Orderly.of_sameVisits (orderly : g.Orderly depth edges s) (same : s.SameVisits s') :
    g.Orderly depth edges s' := by
  obtain ⟨stack, rfl⟩ := same
  exact ⟨orderly.counted, orderly.atMost, orderly.entered, orderly.ahead, orderly.depth⟩

theorem Orderly.mark (orderly : g.Orderly depth edges s) (member : f ∈ g.edgeSet)
    (below : s.visited f < lbrSize) :
    g.Orderly (depth + 1) (g.outgoing (g.target f)) (s.mark f) := by
  constructor
  · exact orderly.counted.mark f
  · intro x
    rw [Search.mark_edge]
    rcases eq_or_ne f x with rfl | other
    · rw [List.count_cons_self, ← orderly.counted]
      exact below
    · rw [List.count_cons_of_ne other]
      exact orderly.atMost x
  · intro x inTrail
    rcases List.mem_cons.mp inTrail with rfl | earlier
    · exact member
    · exact orderly.entered x earlier
  · exact fun x => mem_edgeSet_of_mem
  · rw [Search.mark_edge, List.length_cons, orderly.depth]

theorem Moment.orderly (isEdge : g.IsEdge e) (moment : g.Moment budget whole e depth lbr edges s) :
    g.Orderly depth edges s := by
  induction moment with
  | start list fueled =>
      have nothing : g.Orderly 0 [] (.start []) :=
        ⟨fun _ => rfl, fun _ => Nat.zero_le _, by simp [Search.start], by simp, rfl⟩
      exact nothing.mark (mem_edgeSet.mpr isEdge) (show 0 < lbrSize by decide)
  | next moment examined ih =>
      have same := examineEdge_sameVisits (fun _ _ _ _ => jitPathExists_sameVisits) examined
      have orderly := ih.of_sameVisits same
      exact { orderly with ahead := fun x later => orderly.ahead x (List.mem_cons_of_mem _ later) }
  | enter moment descends fueled below ih =>
      have orderly := ih.of_sameVisits descends.sameVisits
      exact orderly.mark (orderly.ahead _ List.mem_cons_self) below

theorem Moment.depth_le (moment : g.Moment budget whole e depth lbr edges s) : depth ≤ budget := by
  induction moment with
  | start list fueled => exact fueled
  | next moment examined ih => exact ih
  | enter moment descends fueled below ih => exact fueled

theorem length_le_of_count_le {α : Type*} [DecidableEq α] {l : List α} {E : Finset α} {n : Nat}
    (member : ∀ x ∈ l, x ∈ E) (count : ∀ x, l.count x ≤ n) : l.length ≤ n * E.card := by
  have subset : l.toFinset ⊆ E := fun x inList => member x (List.mem_toFinset.mp inList)
  calc l.length = ∑ x ∈ l.toFinset, l.count x := (List.sum_toFinset_count_eq_length l).symm
    _ ≤ ∑ x ∈ l.toFinset, n := Finset.sum_le_sum fun x _ => count x
    _ ≤ ∑ x ∈ E, n := Finset.sum_le_sum_of_subset subset
    _ = n * E.card := by simp [Nat.mul_comm]

theorem Called.orderly (isEdge : g.IsEdge e) {f : EdgeId}
    (called : g.Called budget whole e depth lbr f s) :
    depth ≤ lbrSize * g.edgeSet.card + 1 ∧ ∀ x, s.edge.count x ≤ lbrSize := by
  cases called with
  | start => exact ⟨Nat.le_add_left 1 _, fun _ => Nat.zero_le _⟩
  | descend moment descends =>
      have orderly := (moment.orderly isEdge).of_sameVisits descends.sameVisits
      refine ⟨Nat.succ_le_succ ?_, orderly.atMost⟩
      rw [← orderly.depth]
      exact length_le_of_count_le orderly.entered orderly.atMost

/-! ## A search that runs out of fuel has made a call below its budget -/

theorem explore_of_outOfFuel {fuel : Nat} (out : g.jitPathExists (fuel + 1) lbr f s = .outOfFuel) :
    ∃ a b rest, lbr = a :: b :: rest ∧ s.visited f < lbrSize ∧
      g.exploreEdges (g.jitPathExists fuel) lbr b (g.outgoing (g.target f)) (s.mark f) =
        .outOfFuel := by
  match lbr with
  | [] | [_] => simp [jitPathExists] at out
  | a :: b :: rest =>
      rw [jitPathExists] at out
      split_ifs at out with limit
      exact ⟨a, b, rest, rfl, not_le.mp limit, backOut_eq_outOfFuel.mp out⟩

/-- The loop that runs out of fuel does so in a call it makes. -/
theorem Moment.exists_descends {a b : EdgeId} {rest : List EdgeId}
    (moment : g.Moment budget whole e depth (a :: b :: rest) edges s)
    (out : g.exploreEdges (g.jitPathExists (budget - depth)) (a :: b :: rest) b edges s =
      .outOfFuel) :
    ∃ f edges' s₁ lbr' s', g.Moment budget whole e depth (a :: b :: rest) (f :: edges') s₁ ∧
      g.Descends (a :: b :: rest) b f s₁ lbr' s' ∧
      g.jitPathExists (budget - depth) lbr' f s' = .outOfFuel := by
  induction edges generalizing s with
  | nil => simp [exploreEdges] at out
  | cons f edges ih =>
      rw [exploreEdges] at out
      cases examined : g.examineEdge (g.jitPathExists (budget - depth)) (a :: b :: rest) b f s with
      | rejected s₁ =>
          rw [examined] at out
          exact ih (moment.next examined) out
      | outOfFuel =>
          obtain ⟨lbr', s', descends, out'⟩ := Cfg.exists_descends examined
          exact ⟨f, edges, s, lbr', s', moment, descends, out'⟩
      | found => simp [examined] at out
      | aborted => simp [examined] at out

theorem Moment.exists_called {a b : EdgeId} {rest : List EdgeId}
    (moment : g.Moment budget whole e depth (a :: b :: rest) edges s)
    (out : g.exploreEdges (g.jitPathExists (budget - depth)) (a :: b :: rest) b edges s =
      .outOfFuel) :
    ∃ lbr' f s', g.Called budget whole e (budget + 1) lbr' f s' := by
  obtain ⟨f, edges', s₁, lbr', s', moment', descends, out'⟩ := moment.exists_descends out
  induction left : budget - depth generalizing depth a b rest edges s f edges' s₁ lbr' s' with
  | zero =>
      have full : depth = budget := Nat.le_antisymm moment.depth_le (Nat.le_of_sub_eq_zero left)
      have called := Called.descend moment' descends
      rw [full] at called
      exact ⟨lbr', f, s', called⟩
  | succ fuel deeper =>
      rw [left] at out'
      obtain ⟨a', b', rest', rfl, below, explored⟩ := explore_of_outOfFuel out'
      have fuelLeft : budget - (depth + 1) = fuel := by omega
      rw [← fuelLeft] at explored
      have entered := moment'.enter descends (by omega) below
      obtain ⟨f', edges'', s₂, lbr'', s'', moment'', descends', out''⟩ :=
        entered.exists_descends explored
      exact deeper entered explored f' edges'' s₂ lbr'' s'' moment'' descends' out'' fuelLeft

/-- The search comes to an end within the depth of the recursion that the visit counts allow. -/
theorem jitPathExists_bounded (isEdge : g.IsEdge e) (whole : List EdgeId) :
    (∀ fuel ≥ lbrSize * g.edgeSet.card + 1,
      g.jitPathExists fuel whole e (.start []) ≠ .outOfFuel) ∧
    ∀ budget,
      (∀ depth lbr f s, g.Called budget whole e depth lbr f s →
        depth ≤ lbrSize * g.edgeSet.card + 1 ∧ ∀ x, s.edge.count x ≤ lbrSize) ∧
      ∀ depth lbr edges s, g.Moment budget whole e depth lbr edges s →
        ∀ x, s.edge.count x ≤ lbrSize := by
  refine ⟨?_, fun budget => ⟨fun _ _ _ _ called => called.orderly isEdge,
    fun _ _ _ _ moment => (moment.orderly isEdge).atMost⟩⟩
  intro fuel enough out
  obtain ⟨budget, rfl⟩ : ∃ budget, fuel = budget + 1 := ⟨fuel - 1, by omega⟩
  obtain ⟨a, b, rest, rfl, -, explored⟩ := explore_of_outOfFuel out
  have started : g.Moment (budget + 1) (a :: b :: rest) e 1 (a :: b :: rest) _ _ :=
    .start rfl (Nat.succ_pos budget)
  obtain ⟨lbr', f, s', called⟩ := started.exists_called explored
  have bound := (called.orderly isEdge).1
  omega

theorem jitPathExists_bounded_nestedCalls :
    nestedCalls.IsEdge 0 ∧ nestedCalls.jitPathExists 81 [0, 1, 2, 3, 4] 0 (.start []) ≠ .outOfFuel := by
  have isEdge : nestedCalls.IsEdge 0 := by decide
  exact ⟨isEdge, (jitPathExists_bounded isEdge [0, 1, 2, 3, 4]).1 81 (by decide)⟩

end Cfg

end PathArmor.Analyzer

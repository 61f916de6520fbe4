import PathArmor.Analyzer.JitBacktrack
import PathArmor.Analyzer.JitSound

/-!
# The assertion in the call stack

A call without a fallthrough block puts an empty entry on the call stack, and a return that finds
it on top aborts the analyzer. What is on top when a return is tracked depends on the returns that
were tried and unrolled before. `MayHold` says which stacks there can be at all, whatever the order
in which the search meets them; if none of them fails the assertion then the search does not.
`Doomed` lists fail it in every order.
-/

namespace PathArmor.Analyzer
open PathArmor.Library

namespace Cfg
variable (g : Cfg) (lbr : List EdgeId)

/-- A return that the search can examine while it looks for `lbr[k + 1]`. -/
structure MeetsReturn (k : Nat) (r : EdgeId) : Prop where
  searched : k + 1 < lbr.length
  isEdge : g.IsEdge r
  visible : (g.edge r).hidden = false
  ret : edgeIsReturn (g.edge r)
  reach : ∃ a, lbr[k]? = some a ∧ g.plain.Reach (g.target a) (g.source r)

/-- The call stacks that the search may have while it looks for `lbr[k + 1]`. -/
inductive MayHold : Nat → List (Option BlockId) → Prop
  | start : MayHold 0 []
  | take {k code : Nat} {a b : EdgeId} {stack stack' : List (Option BlockId)}
      (may : MayHold k stack) (here : lbr[k]? = some a) (next : lbr[k + 1]? = some b)
      (visible : (g.edge b).hidden = false) (recorded : g.Recorded b)
      (reach : g.plain.Reach (g.target a) (g.source b))
      (tracked : g.jitTrackCallstack b false false stack = some (code + 1, stack')) :
      MayHold (k + 1) stack'
  -- A return that is met is tracked once to examine it and once more to unroll it.
  | meet {k code : Nat} {r : EdgeId} {stack stack' : List (Option BlockId)}
      (may : MayHold k stack) (meets : g.MeetsReturn lbr k r)
      (tracked : g.jitTrackCallstack r false true stack = some (code, stack')) : MayHold k stack'
  | back {k code : Nat} {b : EdgeId} {stack stack' : List (Option BlockId)}
      (may : MayHold (k + 1) stack) (next : lbr[k + 1]? = some b)
      (tracked : g.jitTrackCallstack b false true stack = some (code, stack')) : MayHold k stack'

/-- One of these stacks fails the assertion for a return that is met or unrolled. -/
def MayAbort : Prop :=
  ∃ k stack r, g.MayHold lbr k stack ∧ (g.MeetsReturn lbr k r ∨ lbr[k]? = some r) ∧
    g.jitTrackCallstack r false true stack = none

variable {g lbr} {k : Nat} {a b f : EdgeId} {s s' : Search} {block : BlockId}
  {stack : List (Option BlockId)} {edges rest lbr' : List EdgeId} {fuel : Nat}

/-- A return is tracked the same way both times. -/
theorem jitTrackCallstack_unroll_return (ret : edgeIsReturn (g.edge f))
    (stack : List (Option BlockId)) :
    g.jitTrackCallstack f false true stack = g.jitTrackCallstack f false false stack := by
  rw [jitTrackCallstack_return ret, jitTrackCallstack_return ret]

/-! ## One level of the search -/

/-- Where the search for `lbr[k + 1]` stands, and what it may have on its stack there. -/
structure AtLevel (g : Cfg) (lbr : List EdgeId) (k : Nat) (block : BlockId) (s : Search) : Prop where
  reach : ∃ a, lbr[k]? = some a ∧ g.plain.Reach (g.target a) block
  roomy : g.Roomy (lbr.drop k) s
  may : g.MayHold lbr k s.stack

theorem AtLevel.of_sameVisits (level : g.AtLevel lbr k block s) (same : s.SameVisits s')
    (may : g.MayHold lbr k s'.stack) : g.AtLevel lbr k block s' :=
  { level with roomy := level.roomy.of_sameVisits same, may }

theorem AtLevel.meetsReturn (level : g.AtLevel lbr k (g.source f) s) (next : lbr[k + 1]? = some b)
    (isEdge : g.IsEdge f) (visible : (g.edge f).hidden = false) (ret : edgeIsReturn (g.edge f)) :
    g.MeetsReturn lbr k f :=
  ⟨(List.getElem?_eq_some_iff.mp next).1, isEdge, visible, ret, level.reach⟩

theorem unrollEdge_met (safe : ¬ g.MayAbort lbr) (may : g.MayHold lbr k s.stack)
    (meets : g.MeetsReturn lbr k f) :
    FoundOr (fun t => g.MayHold lbr k t.stack) (g.unrollEdge f s) := by
  unfold unrollEdge
  cases tracked : g.jitTrackCallstack f false true s.stack with
  | none => exact safe ⟨k, s.stack, f, may, .inl meets, tracked⟩
  | some result => exact .meet may meets tracked

/-- A return that is not taken. -/
theorem examineEdge_met {recur : List EdgeId → EdgeId → Search → Outcome} (safe : ¬ g.MayAbort lbr)
    (may : g.MayHold lbr k s.stack) (meets : g.MeetsReturn lbr k f)
    (refused : f = b → ¬ g.Allows s.stack f) :
    FoundOr (fun t => g.MayHold lbr k t.stack) (g.examineEdge recur lbr' b f s) := by
  have unrolled := jitTrackCallstack_unroll_return meets.ret s.stack
  rw [examineEdge_recorded meets.visible (edgeIsReturn_functionExit meets.ret)]
  cases tracked : g.jitTrackCallstack f false false s.stack with
  | none => exact safe ⟨k, s.stack, f, may, .inl meets, unrolled.trans tracked⟩
  | some result =>
      obtain ⟨code, stack⟩ := result
      have may' : g.MayHold lbr k stack := .meet may meets (unrolled.trans tracked)
      cases code with
      | zero => exact unrollEdge_met (s := { s with stack }) safe may' meets
      | succ code =>
          simp only [if_neg fun isNext => refused isNext (allows_of_tracked tracked).1]
          exact unrollEdge_met (s := { s with stack }) safe may' meets

theorem AtLevel.examineEdge {recur : List EdgeId → EdgeId → Search → Outcome}
    (level : g.AtLevel lbr k (g.source f) s) (safe : ¬ g.MayAbort lbr)
    (next : lbr[k + 1]? = some b) (isEdge : g.IsEdge f)
    (calls : ∀ lbr' s', g.Descends (lbr.drop k) b f s lbr' s' →
      FoundOr (fun t => g.MayHold lbr k t.stack) (recur lbr' f s')) :
    FoundOr (fun t => g.MayHold lbr k t.stack) (g.examineEdge recur (lbr.drop k) b f s) := by
  by_cases hidden : (g.edge f).hidden
  · rw [examineEdge_hidden hidden]
    exact level.may
  rw [Bool.not_eq_true] at hidden
  by_cases recorded : g.Recorded f
  · by_cases taken : f = b ∧ g.Allows s.stack f
    · obtain ⟨rfl, allowed⟩ := taken
      obtain ⟨code, tracked⟩ := jitTrackCallstack_allowed allowed
      by_cases last : (lbr.drop k).length - 1 < 2
      · rw [examineEdge_recorded hidden recorded, tracked]
        simp only [if_true, if_pos last]
        trivial
      · have into := Descends.record hidden recorded rfl last tracked
        rw [into.examineEdge]
        exact calls _ _ into
    rw [not_and] at taken
    by_cases ret : edgeIsReturn (g.edge f)
    · exact examineEdge_met safe level.may (level.meetsReturn next isEdge hidden ret) taken
    · have allowed : g.Allows s.stack f := fun ret' => absurd ret' ret
      obtain ⟨code, tracked⟩ := jitTrackCallstack_allowed allowed
      rw [examineEdge_recorded hidden recorded, tracked]
      simp only [if_neg fun isNext => taken isNext allowed]
      rw [unrollEdge_step fun ret' => absurd ret' ret]
      exact level.may
  · have into : g.Descends (lbr.drop k) b f s (lbr.drop k) s := .plain hidden recorded
    rw [into.examineEdge]
    exact calls _ _ into

theorem AtLevel.exploreEdges {recur : List EdgeId → EdgeId → Search → Outcome}
    (level : g.AtLevel lbr k block s) (safe : ¬ g.MayAbort lbr) (next : lbr[k + 1]? = some b)
    (recurKeeps : ∀ lbr e s s', recur lbr e s = .rejected s' → s.SameVisits s')
    (edges_subset : ∀ f ∈ edges, f ∈ g.outgoing block)
    (calls : ∀ f s lbr' s', g.IsEdge f → g.AtLevel lbr k (g.source f) s →
      g.Descends (lbr.drop k) b f s lbr' s' →
      FoundOr (fun t => g.MayHold lbr k t.stack) (recur lbr' f s')) :
    FoundOr (fun t => g.MayHold lbr k t.stack)
      (g.exploreEdges recur (lbr.drop k) b edges s) := by
  induction edges generalizing s with
  | nil => exact level.may
  | cons f edges ih =>
      have member := edges_subset f List.mem_cons_self
      have isEdge := isEdge_of_mem member
      have level' := level
      rw [← source_of_mem member] at level'
      have settled := level'.examineEdge safe next isEdge fun lbr' s' => calls f s lbr' s' isEdge level'
      apply settled.exploreEdges_cons recurKeeps
      intro s₁ same may
      apply ih (level.of_sameVisits same may)
      exact fun f' later => edges_subset f' (List.mem_cons_of_mem _ later)

/-! ## Down and up again -/

/-- A recursive call stays on its level or goes to the next one, and unrolling its edge afterwards
leads back. -/
theorem AtLevel.descend (level : g.AtLevel lbr k (g.source f) s) (safe : ¬ g.MayAbort lbr)
    (next : lbr[k + 1]? = some b) (isEdge : g.IsEdge f)
    (descends : g.Descends (lbr.drop k) b f s lbr' s') :
    ∃ k', lbr' = lbr.drop k' ∧ g.AtLevel lbr k' (g.target f) (s'.mark f) ∧
      ∀ t : Search, g.MayHold lbr k' t.stack →
        FoundOr (fun t' => g.MayHold lbr k t'.stack) (g.unrollEdge f t) := by
  have roomy := (level.roomy.descend descends).2
  obtain ⟨a, here, reach⟩ := level.reach
  cases descends with
  | plain visible plainEdge =>
      refine ⟨k, rfl, ⟨⟨a, here, ?_⟩, roomy, level.may⟩, ?_⟩
      · exact reach.trans (.edge ⟨isEdge, visible, plainEdge⟩)
      · intro t may
        rw [unrollEdge_not_recorded plainEdge]
        exact may
  | @record code stack visible recorded isNext more tracked =>
      subst isNext
      rw [List.tail_drop] at roomy ⊢
      refine ⟨k + 1, rfl, ⟨⟨f, next, .refl _⟩, roomy, ?_⟩, ?_⟩
      · exact .take level.may here next visible recorded reach tracked
      · intro t may
        unfold unrollEdge
        cases unrolled : g.jitTrackCallstack f false true t.stack with
        | none => exact safe ⟨k + 1, t.stack, f, may, .inr next, unrolled⟩
        | some result => exact .back may next unrolled

theorem jitPathExists_foundOr {P Q : Search → Prop} {e : EdgeId}
    (limit : lbrSize ≤ s.visited e → Q s)
    (explored : ∀ a b rest, lbr' = a :: b :: rest → FoundOr P
      (g.exploreEdges (g.jitPathExists fuel) lbr' b (g.outgoing (g.target e)) (s.mark e)))
    (back : ∀ t : Search, P t → FoundOr Q (g.unrollEdge e (t.unmark e))) :
    FoundOr Q (g.jitPathExists (fuel + 1) lbr' e s) := by
  match lbr' with
  | [] | [_] => trivial
  | a :: b :: rest =>
      rw [jitPathExists]
      split_ifs with atLimit
      · exact limit atLimit
      · exact (explored a b rest rfl).backOut back

theorem getElem?_succ_of_drop {rest : List EdgeId} (list : lbr.drop k = a :: b :: rest) :
    lbr[k + 1]? = some b := by
  rw [← List.getElem?_drop, list]
  rfl

/-- Every recursive call comes back to the level it was made from. -/
theorem AtLevel.jitPathExists (level : g.AtLevel lbr k (g.source f) s) (safe : ¬ g.MayAbort lbr)
    (next : lbr[k + 1]? = some b) (isEdge : g.IsEdge f)
    (descends : g.Descends (lbr.drop k) b f s lbr' s') :
    FoundOr (fun t => g.MayHold lbr k t.stack) (g.jitPathExists fuel lbr' f s') := by
  induction fuel generalizing k b f s lbr' s' with
  | zero => trivial
  | succ fuel ih =>
      obtain ⟨room, -⟩ := level.roomy.descend descends
      obtain ⟨k', list, level', back⟩ := level.descend safe next isEdge descends
      apply jitPathExists_foundOr (P := fun t => g.MayHold lbr k' t.stack)
      · intro limit
        cases descends with
        | plain => exact level.may
        | record visible recorded => exact absurd (room recorded) limit.not_gt
      · intro a' b' rest split
        have next' := getElem?_succ_of_drop (list.symm.trans split)
        rw [list]
        apply level'.exploreEdges safe next' (fun _ _ _ _ => jitPathExists_sameVisits) fun _ => id
        intro f' s₁ lbr'' s₂ isEdge' level₁ into
        exact ih level₁ next' isEdge' into
      · intro t may
        exact back _ may

theorem atLevel_zero (short : lbr.length ≤ lbrSize) (first : lbr[0]? = some a) :
    g.AtLevel lbr 0 (g.target a) ((Search.start []).mark a) := by
  refine ⟨⟨a, first, .refl _⟩, ?_, .start⟩
  intro x recorded
  have once := Search.start_mark_visited_le [] a x
  rw [List.drop_zero]
  omega

/-- Block 1 ends in a call that has no block behind it, and 2 in one that has; the callee of the
second returns elsewhere. -/
def shieldedCall : Cfg :=
  ofEdges id [(0x10, 0x14), (0x20, 0x24), (0x40, 0x44), (0x60, 0x64), (0x48, 0x4c)]
    [(0, 1, .indirectJmp), (1, 2, .directCall), (2, 3, .directCall), (3, 0, .ret)]

theorem shieldedCall_reach {x y : BlockId} (reach : shieldedCall.plain.Reach x y) : y = x := by
  have noPlain : ∀ e < 4, shieldedCall.Recorded e := by decide
  apply reach.closed (P := fun z => z = x) _ rfl
  intro e usable
  exact absurd (noPlain e usable.1.lt) usable.2.2

theorem shieldedCall_meets {r : EdgeId} (meets : shieldedCall.MeetsReturn [0, 1, 2, 1] k r) :
    k = 2 ∧ r = 3 := by
  have only : ∀ r < 4, edgeIsReturn (shieldedCall.edge r) → r = 3 := by decide
  obtain rfl := only r meets.isEdge.lt meets.ret
  obtain ⟨a, here, reach⟩ := meets.reach
  have source := shieldedCall_reach reach
  match k with
  | 0 | 1 =>
      simp only [List.getElem?_cons_zero, List.getElem?_cons_succ, Option.some.injEq] at here
      subst here
      exact absurd source (by decide)
  | 2 => exact ⟨rfl, rfl⟩
  | k + 3 =>
      have searched : k + 3 + 1 < 4 := meets.searched
      omega

theorem shieldedCall_mayHold {stack : List (Option BlockId)}
    (may : shieldedCall.MayHold [0, 1, 2, 1] k stack) :
    k = 0 ∧ stack = [] ∨ k = 1 ∧ stack = [none] ∨ k = 2 ∧ stack = [some 4, none] := by
  induction may with
  | start => exact .inl ⟨rfl, rfl⟩
  | take _ here next visible recorded reach tracked ih =>
      rcases ih with ⟨rfl, rfl⟩ | ⟨rfl, rfl⟩ | ⟨rfl, rfl⟩
      · cases next
        have pushed : shieldedCall.jitTrackCallstack 1 false false [] = some (1, [none]) := by decide
        cases pushed.symm.trans tracked
        exact .inr (.inl ⟨rfl, rfl⟩)
      · cases next
        have pushed : shieldedCall.jitTrackCallstack 2 false false [none] =
          some (1, [some 4, none]) := by decide
        cases pushed.symm.trans tracked
        exact .inr (.inr ⟨rfl, rfl⟩)
      · cases here
        cases next
        exact absurd (shieldedCall_reach reach) (by decide)
  | meet _ meets tracked ih =>
      obtain ⟨rfl, rfl⟩ := shieldedCall_meets meets
      rcases ih with ⟨other, -⟩ | ⟨other, -⟩ | ⟨-, rfl⟩
      · cases other
      · cases other
      have kept : shieldedCall.jitTrackCallstack 3 false true [some 4, none] =
        some (0, [some 4, none]) := by decide
      cases kept.symm.trans tracked
      exact .inr (.inr ⟨rfl, rfl⟩)
  | back _ next tracked ih =>
      rcases ih with ⟨other, -⟩ | ⟨same, rfl⟩ | ⟨same, rfl⟩
      · cases other
      · cases same
        cases next
        have popped : shieldedCall.jitTrackCallstack 1 false true [none] = some (1, []) := by decide
        cases popped.symm.trans tracked
        exact .inl ⟨rfl, rfl⟩
      · cases same
        cases next
        have popped : shieldedCall.jitTrackCallstack 2 false true [some 4, none] =
          some (1, [none]) := by decide
        cases popped.symm.trans tracked
        exact .inr (.inl ⟨rfl, rfl⟩)

/-- Following the list, the search comes to a return with an empty entry on top of its stack, and
there is no block on top at any point before that. -/
inductive Doomed (g : Cfg) : List EdgeId → List (Option BlockId) → Prop
  | ret {a r : EdgeId} {rest : List EdgeId} {stack : List (Option BlockId)}
      (connects : g.Connects a r) (ret : edgeIsReturn (g.edge r)) :
      Doomed g (a :: r :: rest) (none :: stack)
  | step {a b : EdgeId} {rest : List EdgeId} {code : Nat} {stack stack' : List (Option BlockId)}
      (connects : g.Connects a b) (noBlock : ∀ bb, stack.head? ≠ some (some bb))
      (tracked : g.jitTrackCallstack b false false stack = some (code + 1, stack'))
      (doomed : Doomed g (b :: rest) stack') : Doomed g (a :: b :: rest) stack

theorem Doomed.noBlock (doomed : g.Doomed lbr stack) (bb : BlockId) :
    stack.head? ≠ some (some bb) := by
  cases doomed with
  | ret => simp
  | step _ noBlock => exact noBlock bb

theorem Doomed.connects (doomed : g.Doomed (a :: b :: rest) stack) :
    g.Connects a b := by
  cases doomed with
  | ret connects => exact connects
  | step connects => exact connects

theorem Doomed.descend (doomed : g.Doomed (a :: b :: rest) s.stack)
    (descends : g.Descends (a :: b :: rest) b f s lbr' s') :
    g.Doomed lbr' (s'.mark f).stack := by
  cases descends with
  | plain => exact doomed
  | record visible recorded next more tracked =>
      subst next
      generalize stacked : s.stack = stack at doomed tracked
      cases doomed with
      | ret connects ret => simp [jitTrackCallstack_return ret] at tracked
      | step connects noBlock tracked' doomed' =>
          rw [tracked'] at tracked
          cases tracked
          exact doomed'

theorem Doomed.not_meetsPop (doomed : g.Doomed lbr s.stack) : ¬ g.MeetsPop lbr f s := by
  intro met
  induction met with
  | here pops => exact doomed.noBlock _ pops.top
  | further descends below outgoing met ih => exact ih (doomed.descend descends)

theorem exploreEdges_stable {recur : List EdgeId → EdgeId → Search → Outcome}
    (stable : ∀ f s', g.examineEdge recur lbr b f s = .rejected s' → s' = s) :
    (∀ f ∈ edges, g.examineEdge recur lbr b f s = .rejected s) ∧
      g.exploreEdges recur lbr b edges s = .rejected s ∨
    ∃ f ∈ edges, (∀ s', g.examineEdge recur lbr b f s ≠ .rejected s') ∧
      g.exploreEdges recur lbr b edges s = g.examineEdge recur lbr b f s := by
  induction edges with
  | nil => exact .inl ⟨by simp, rfl⟩
  | cons f edges ih =>
      rw [exploreEdges]
      cases examined : g.examineEdge recur lbr b f s with
      | rejected s₁ =>
          obtain rfl := stable f s₁ examined
          rcases ih with ⟨all, out⟩ | ⟨f', member, settled, out⟩
          · exact .inl ⟨List.forall_mem_cons.mpr ⟨examined, all⟩, out⟩
          · exact .inr ⟨f', List.mem_cons_of_mem _ member, settled, out⟩
      | found | outOfFuel | aborted =>
          refine .inr ⟨f, List.mem_cons_self, ?_⟩
          simp [examined]

theorem Doomed.exists_cons (doomed : g.Doomed lbr stack) : ∃ a b rest, lbr = a :: b :: rest := by
  cases doomed with
  | ret => exact ⟨_, _, _, rfl⟩
  | step => exact ⟨_, _, _, rfl⟩

theorem Doomed.examineEdge_ne_found {recur : List EdgeId → EdgeId → Search → Outcome}
    (doomed : g.Doomed (a :: b :: rest) s.stack)
    (calls : ∀ lbr' s', g.Descends (a :: b :: rest) b f s lbr' s' → recur lbr' f s' ≠ .found) :
    g.examineEdge recur (a :: b :: rest) b f s ≠ .found := by
  rcases examineEdge_descends (g := g) recur (a :: b :: rest) b f s with
    ⟨lbr', s', descends⟩ | out | ⟨s', out⟩ | ⟨rfl, last, allowed, -⟩
  · rw [descends.examineEdge]
    exact calls lbr' s' descends
  · simp [out]
  · simp [out]
  · generalize s.stack = stack at doomed allowed
    cases doomed with
    | ret connects ret => cases allowed ret none rfl
    | step connects noBlock tracked doomed' =>
        obtain ⟨_, _, _, list⟩ := doomed'.exists_cons
        cases list
        simp only [List.length_cons] at last
        omega

section
variable (doomed : g.Doomed (a :: b :: rest) s.stack) (roomy : g.Roomy (a :: b :: rest) s)
include doomed roomy

/-- The state is the same before every edge of the loop. -/
theorem Doomed.explored (fuel : Nat) (edges : List EdgeId) :
    (∀ f ∈ edges, g.examineEdge (g.jitPathExists fuel) (a :: b :: rest) b f s = .rejected s) ∧
      g.exploreEdges (g.jitPathExists fuel) (a :: b :: rest) b edges s = .rejected s ∨
    ∃ f ∈ edges, (∀ s', g.examineEdge (g.jitPathExists fuel) (a :: b :: rest) b f s ≠ .rejected s') ∧
      g.exploreEdges (g.jitPathExists fuel) (a :: b :: rest) b edges s =
        g.examineEdge (g.jitPathExists fuel) (a :: b :: rest) b f s :=
  exploreEdges_stable fun _ _ => examineEdge_restores roomy doomed.not_meetsPop

theorem Doomed.rejected_of_mem
    (rejected : g.exploreEdges (g.jitPathExists fuel) (a :: b :: rest) b edges s = .rejected s')
    (member : f ∈ edges) :
    g.examineEdge (g.jitPathExists fuel) (a :: b :: rest) b f s = .rejected s := by
  rcases doomed.explored roomy fuel edges with ⟨all, -⟩ | ⟨f', -, settled, out⟩
  · exact all f member
  · exact absurd (out.symm.trans rejected) (settled s')

theorem Doomed.explore_ne_found (fuel : Nat) (edges : List EdgeId) :
    g.exploreEdges (g.jitPathExists fuel) (a :: b :: rest) b edges s ≠ .found := by
  induction fuel generalizing a b rest s edges with
  | zero =>
      rcases doomed.explored roomy 0 edges with ⟨-, out⟩ | ⟨f, -, -, out⟩
      · simp [out]
      · rw [out]
        exact doomed.examineEdge_ne_found fun _ _ _ => by simp [jitPathExists]
  | succ fuel ih =>
      rcases doomed.explored roomy (fuel + 1) edges with ⟨-, out⟩ | ⟨f, -, -, out⟩
      · simp [out]
      rw [out]
      apply doomed.examineEdge_ne_found
      intro lbr' s' descends
      have doomed' := doomed.descend descends
      have roomy' := (roomy.descend descends).2
      obtain ⟨a', b', rest', rfl⟩ := doomed'.exists_cons
      rw [jitPathExists]
      split_ifs
      · simp
      · rw [ne_eq, backOut_eq_found]
        exact ih doomed' roomy' (g.outgoing (g.target f))

end

/-- The search gets to `lbr[1]` over any walk that leaves it enough visits. -/
theorem Doomed.not_rejected_of_walk {path : List EdgeId} (doomed : g.Doomed (a :: b :: rest) stack)
    (goal : ∀ fuel (s : Search), s.stack = stack → g.Roomy (a :: b :: rest) s →
      (∀ x, s.visited x + (a :: b :: rest).length ≤ lbrSize + 2) →
      g.examineEdge (g.jitPathExists fuel) (a :: b :: rest) b b s ≠ .rejected s)
    (walk : g.plain.Walk block path (g.source b)) (stacked : s.stack = stack)
    (roomy : g.Roomy (a :: b :: rest) s)
    (visits : ∀ x, s.visited x + path.count x + (a :: b :: rest).length ≤ lbrSize + 2) :
    g.exploreEdges (g.jitPathExists fuel) (a :: b :: rest) b (g.outgoing block) s ≠ .rejected s' := by
  intro rejected
  induction path generalizing block s s' fuel with
  | nil =>
      cases walk
      apply goal fuel s stacked roomy visits
      rw [← stacked] at doomed
      exact doomed.rejected_of_mem roomy rejected doomed.connects.isEdge
  | cons f path ih =>
      have onWalk := visits f
      rw [List.count_cons_self, List.length_cons, List.length_cons] at onWalk
      cases walk with
      | cons usable walk =>
          have into : g.Descends (a :: b :: rest) b f s (a :: b :: rest) s :=
            .plain usable.2.1 usable.2.2
          have doomed' := doomed
          rw [← stacked] at doomed'
          have examined := doomed'.rejected_of_mem roomy rejected usable.1
          rw [into.examineEdge] at examined
          cases fuel with
          | zero => simp [jitPathExists] at examined
          | succ fuel =>
              rcases jitPathExists_rejected examined with
                ⟨limit, -⟩ | ⟨-, a', b', rest', s₁, list, explored, -⟩
              · omega
              · cases list
                apply ih (s := s.mark f) walk stacked (roomy.descend into).2 _ explored
                intro x
                have before := visits x
                rw [Search.mark_visited, Function.update_apply]
                rw [List.count_cons] at before
                split_ifs with same
                · simp only [same, beq_self_eq_true, if_true] at before ⊢
                  omega
                · omega

theorem Doomed.not_rejected_of_goal (doomed : g.Doomed (a :: b :: rest) s.stack)
    (goal : ∀ fuel (t : Search), t.stack = s.stack → g.Roomy (a :: b :: rest) t →
      (∀ x, t.visited x + (a :: b :: rest).length ≤ lbrSize + 2) →
      g.examineEdge (g.jitPathExists fuel) (a :: b :: rest) b b t ≠ .rejected t)
    (fresh : ∀ x, s.visited x + (a :: b :: rest).length ≤ lbrSize + 1) :
    g.exploreEdges (g.jitPathExists fuel) (a :: b :: rest) b (g.outgoing (g.target a)) s ≠
      .rejected s' := by
  obtain ⟨_, walk⟩ := doomed.connects.reach
  obtain ⟨path, walk, nodup⟩ := walk.exists_nodup
  apply doomed.not_rejected_of_walk goal walk rfl fun x _ => fresh x
  intro x
  have once := List.nodup_iff_count_le_one.mp nodup x
  have room := fresh x
  omega

theorem Doomed.not_rejected (doomed : g.Doomed (a :: b :: rest) s.stack)
    (fresh : ∀ x, s.visited x + (a :: b :: rest).length ≤ lbrSize + 1) :
    g.exploreEdges (g.jitPathExists fuel) (a :: b :: rest) b (g.outgoing (g.target a)) s ≠
      .rejected s' := by
  apply doomed.not_rejected_of_goal _ fresh
  generalize list : a :: b :: rest = lbr at doomed
  generalize s.stack = stack at doomed
  clear fresh
  induction doomed generalizing a b rest with
  | @ret a r rest stack connects ret =>
      cases list
      intro fuel t stacked _ _
      rw [examineEdge_recorded connects.visible connects.recorded, stacked,
        jitTrackCallstack_return ret]
      simp
  | @step a b rest code stack stack' connects noBlock tracked doomed ih =>
      cases list
      intro fuel t stacked roomy visits examined
      have more : ¬ (a :: b :: rest).length - 1 < 2 := by
        obtain ⟨_, _, _, list⟩ := doomed.exists_cons
        cases list
        simp only [List.length_cons]
        omega
      rw [← stacked] at tracked
      have into := Descends.record connects.visible connects.recorded rfl more tracked
      have room := roomy b connects.recorded
      rw [into.examineEdge, List.tail_cons] at examined
      cases fuel with
      | zero => simp [jitPathExists] at examined
      | succ fuel =>
          rcases jitPathExists_rejected examined with
            ⟨limit, -⟩ | ⟨-, _, b', rest', s₁, list, explored, -⟩
          · change lbrSize ≤ t.visited b at limit
            simp only [List.length_cons] at room
            omega
          · cases list
            refine not_rejected_of_goal (s := ({ t with stack := stack' } : Search).mark b) doomed
              (ih rfl) ?_ explored
            intro x
            have before := visits x
            simp only [List.length_cons] at room before
            rw [Search.mark_visited, Function.update_apply, List.length_cons, List.length_cons]
            split_ifs with same
            · subst same
              change t.visited x + 1 + _ ≤ _
              omega
            · change t.visited x + _ ≤ _
              omega

/-- A list that leads to a return behind a call without a fallthrough block ends the analyzer. -/
theorem Doomed.aborts (doomed : g.Doomed (a :: rest) []) (short : (a :: rest).length ≤ lbrSize)
    (isEdge : g.IsEdge a) (enough : g.searchFuel ≤ fuel) :
    g.jitPathExists fuel (a :: rest) a (.start []) = .aborted := by
  have ends : g.jitPathExists fuel (a :: rest) a (.start []) ≠ .outOfFuel :=
    jitPathExists_start_ne_outOfFuel enough isEdge.lt []
  obtain ⟨fuel, rfl⟩ : ∃ n, fuel = n + 1 := by
    unfold searchFuel at enough
    exact ⟨fuel - 1, by omega⟩
  obtain ⟨_, b, rest, list⟩ := doomed.exists_cons
  cases list
  have fresh : ∀ x, ((Search.start []).mark a).visited x + (a :: b :: rest).length ≤ lbrSize + 1 := by
    intro x
    have once := Search.start_mark_visited_le [] a x
    omega
  have entered : g.jitPathExists (fuel + 1) (a :: b :: rest) a (.start []) =
      g.backOut a (g.exploreEdges (g.jitPathExists fuel) (a :: b :: rest) b
        (g.outgoing (g.target a)) ((Search.start []).mark a)) := by
    rw [jitPathExists, if_neg (by simp [Search.start, lbrSize])]
  rw [entered] at ends ⊢
  cases explored : g.exploreEdges (g.jitPathExists fuel) (a :: b :: rest) b
      (g.outgoing (g.target a)) ((Search.start []).mark a) with
  | aborted => rfl
  | outOfFuel =>
      rw [explored] at ends
      exact absurd rfl ends
  | found =>
      have roomy : g.Roomy (a :: b :: rest) ((Search.start []).mark a) := fun x _ => fresh x
      exact absurd explored (doomed.explore_ne_found roomy fuel _)
  | rejected s' =>
      exact absurd explored (doomed.not_rejected (s := (Search.start []).mark a) fresh)

/-- Wherever a call without a fallthrough block can be followed by a return there are three entries
that end the analyzer. -/
theorem jitPathExists_aborts_of_call {e call ret : EdgeId} (isEdge : g.IsEdge e)
    (called : g.Connects e call) (isCall : edgeIsCall (g.edge call))
    (noFallthrough : g.getFallthroughBb (g.source call) = none)
    (returned : g.Connects call ret) (isReturn : edgeIsReturn (g.edge ret)) :
    g.jitPathExists g.searchFuel [e, call, ret] e (.start []) = .aborted := by
  have pushed : g.jitTrackCallstack call false false [] = some (0 + 1, [none]) := by
    rw [jitTrackCallstack_call isCall, noFallthrough]
  have doomed : g.Doomed [e, call, ret] [] :=
    .step called (by simp) pushed (.ret returned isReturn)
  exact doomed.aborts (by simp [lbrSize]) isEdge le_rfl

def exitCall : Cfg :=
  ofEdges id [(0x10, 0x14), (0x20, 0x24), (0x40, 0x44)]
    [(0, 1, .indirectJmp), (1, 2, .directCall), (2, 0, .ret)]

end Cfg

end PathArmor.Analyzer

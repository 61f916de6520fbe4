import Mathlib.Algebra.BigOperators.Group.Finset.Basic
import Mathlib.Algebra.Order.BigOperators.Group.Finset
import PathArmor.Analyzer.Cfg

/-!
# The search of the JIT validator

`jitPathExists` walks the graph depth first from the target of an edge and looks for the recorded
branches of an LBR in their order. The call stack is one vector for all levels of the recursion:
it is pushed and popped before an edge is chosen and "unrolled" when the edge turns out wrong.
Recursion is bounded by `fuel`; `jitPathExists_ne_outOfFuel` says how much is always enough.
-/

namespace PathArmor.Analyzer
open PathArmor.Library

def lbrSize : Nat := 16

/-- The static call stack, innermost call first, and the parts of `DFSState` the search uses. -/
structure Search where
  stack : List (Option BlockId)
  edge : List EdgeId
  visited : EdgeId → Nat

namespace Search

def start (stack : List (Option BlockId)) : Search :=
  { stack, edge := [], visited := fun _ => 0 }

def mark (s : Search) (e : EdgeId) : Search :=
  { s with visited := Function.update s.visited e (s.visited e + 1), edge := e :: s.edge }

def unmark (s : Search) (e : EdgeId) : Search :=
  { s with visited := Function.update s.visited e (s.visited e - 1), edge := s.edge.tail }

@[simp] theorem mark_visited (s : Search) (e : EdgeId) :
    (s.mark e).visited = Function.update s.visited e (s.visited e + 1) := rfl

@[simp] theorem mark_edge (s : Search) (e : EdgeId) : (s.mark e).edge = e :: s.edge := rfl

@[simp] theorem mark_stack (s : Search) (e : EdgeId) : (s.mark e).stack = s.stack := rfl

@[simp] theorem unmark_stack (s : Search) (e : EdgeId) : (s.unmark e).stack = s.stack := rfl

theorem unmark_mark (s : Search) (e : EdgeId) (stack : List (Option BlockId)) :
    ({ s.mark e with stack } : Search).unmark e = { s with stack } := by
  simp [mark, unmark]

def SameVisits (s s' : Search) : Prop := ∃ stack, s' = { s with stack }

theorem SameVisits.refl (s : Search) : s.SameVisits s := ⟨s.stack, rfl⟩

theorem SameVisits.trans {a b c : Search} (first : a.SameVisits b) (second : b.SameVisits c) :
    a.SameVisits c := by
  obtain ⟨_, rfl⟩ := first
  obtain ⟨stack, rfl⟩ := second
  exact ⟨stack, rfl⟩

end Search

inductive Outcome
  | found
  | rejected (s : Search)
  | aborted   -- the assertion in `jit_track_callstack` failed
  | outOfFuel

namespace Cfg
variable (g : Cfg)

/-- The assertion on a call without a fallthrough block fails with `none`. -/
def jitTrackCallstack (e : EdgeId) (clear unroll : Bool) (stack : List (Option BlockId)) :
    Option (Nat × List (Option BlockId)) :=
  if clear then some (0, [])
  else if edgeIsCall (g.edge e) then
    if unroll then some (1, stack.tail)
    else some (1, g.getFallthroughBb (g.source e) :: stack)
  else if edgeIsReturn (g.edge e) then
    -- `unroll` makes no difference here: a return is tracked the same way both times.
    match stack with
    | [] => some (2, [])
    | none :: _ => none
    | some bb :: rest => if g.target e = bb then some (1, rest) else some (0, some bb :: rest)
  else some (1, stack)

def unrollEdge (e : EdgeId) (s : Search) : Outcome :=
  match g.jitTrackCallstack e false true s.stack with
  | none => .aborted
  | some (_, stack) => .rejected { s with stack }

/-- One round of the loop over the outgoing edges of a block. -/
def examineEdge (recur : List EdgeId → EdgeId → Search → Outcome) (lbr : List EdgeId)
    (lbrDst f : EdgeId) (s : Search) : Outcome :=
  if edgeIsHidden (g.edge f) then .rejected s
  else
    match g.jitTrackCallstack f false false s.stack with
    | none => .aborted
    | some (0, stack) => g.unrollEdge f { s with stack }
    | some (_, stack) =>
        let recorded := edgeIsIndirect (g.edge f) || edgeIsDirectCall (g.edge f)
        if recorded && f != lbrDst then g.unrollEdge f { s with stack }
        else if recorded && f == lbrDst then
          if lbr.length - 1 < 2 then .found else recur lbr.tail f { s with stack }
        else recur lbr f { s with stack }

def exploreEdges (recur : List EdgeId → EdgeId → Search → Outcome) (lbr : List EdgeId)
    (lbrDst : EdgeId) : List EdgeId → Search → Outcome
  | [], s => .rejected s
  | f :: rest, s =>
      match g.examineEdge recur lbr lbrDst f s with
      | .rejected s => exploreEdges recur lbr lbrDst rest s
      | outcome => outcome

def backOut (e : EdgeId) : Outcome → Outcome
  | .rejected s => g.unrollEdge e (s.unmark e)
  | outcome => outcome

def jitPathExists : Nat → List EdgeId → EdgeId → Search → Outcome
  | 0, _, _, _ => .outOfFuel
  | fuel + 1, lbr, e, s =>
      match lbr with
      | _ :: lbrDst :: _ =>
          if lbrSize ≤ s.visited e then .rejected s
          else g.backOut e (g.exploreEdges (jitPathExists fuel) lbr lbrDst
            (g.outgoing (g.target e)) (s.mark e))
      | _ => .found

abbrev Recorded (f : EdgeId) : Prop := edgeIsFunctionExit (g.edge f)

def plain : Digraph BlockId EdgeId where
  source := g.source
  target := g.target
  usable f := g.IsEdge f ∧ (g.edge f).hidden = false ∧ ¬ g.Recorded f

variable {g} {recur : List EdgeId → EdgeId → Search → Outcome} {lbr : List EdgeId}
  {lbrDst f : EdgeId} {s : Search}

/-! ## The call stack -/

theorem jitTrackCallstack_call (call : edgeIsCall (g.edge f)) (stack : List (Option BlockId)) :
    g.jitTrackCallstack f false false stack =
      some (1, g.getFallthroughBb (g.source f) :: stack) := by
  simp [jitTrackCallstack, call]

theorem jitTrackCallstack_unroll_call (call : edgeIsCall (g.edge f))
    (stack : List (Option BlockId)) :
    g.jitTrackCallstack f false true stack = some (1, stack.tail) := by
  simp [jitTrackCallstack, call]

theorem jitTrackCallstack_neutral (call : edgeIsCall (g.edge f) = false)
    (ret : edgeIsReturn (g.edge f) = false) (unroll : Bool) (stack : List (Option BlockId)) :
    g.jitTrackCallstack f false unroll stack = some (1, stack) := by
  simp [jitTrackCallstack, call, ret]

theorem jitTrackCallstack_not_recorded (plainEdge : ¬ g.Recorded f) (unroll : Bool)
    (stack : List (Option BlockId)) :
    g.jitTrackCallstack f false unroll stack = some (1, stack) := by
  refine jitTrackCallstack_neutral ?_ ?_ unroll stack
  · simpa using mt edgeIsCall_functionExit plainEdge
  · simpa using mt edgeIsReturn_functionExit plainEdge

theorem jitTrackCallstack_return (ret : edgeIsReturn (g.edge f)) (unroll : Bool)
    (stack : List (Option BlockId)) :
    g.jitTrackCallstack f false unroll stack =
      match stack with
      | [] => some (2, [])
      | none :: _ => none
      | some bb :: rest => if g.target f = bb then some (1, rest) else some (0, some bb :: rest) := by
  simp [jitTrackCallstack, ret, edgeIsReturn_not_call ret]

theorem unrollEdge_call (call : edgeIsCall (g.edge f)) (s : Search) :
    g.unrollEdge f s = .rejected { s with stack := s.stack.tail } := by
  simp [unrollEdge, jitTrackCallstack_unroll_call call]

theorem unrollEdge_neutral (call : edgeIsCall (g.edge f) = false)
    (ret : edgeIsReturn (g.edge f) = false) (s : Search) : g.unrollEdge f s = .rejected s := by
  simp [unrollEdge, jitTrackCallstack_neutral call ret]

theorem unrollEdge_not_recorded (plainEdge : ¬ g.Recorded f) (s : Search) :
    g.unrollEdge f s = .rejected s := by
  simp [unrollEdge, jitTrackCallstack_not_recorded plainEdge]

theorem unrollEdge_cases (f : EdgeId) (s : Search) :
    g.unrollEdge f s = .aborted ∨ ∃ stack, g.unrollEdge f s = .rejected { s with stack } := by
  unfold unrollEdge
  cases g.jitTrackCallstack f false true s.stack with
  | none => exact .inl rfl
  | some tracked => exact .inr ⟨tracked.2, rfl⟩

section BackOut
variable {e : EdgeId} {outcome : Outcome}

theorem backOut_eq_rejected {s' : Search} : g.backOut e outcome = .rejected s' ↔
    ∃ s, outcome = .rejected s ∧ g.unrollEdge e (s.unmark e) = .rejected s' := by
  cases outcome <;> simp [backOut]

/-- Backing out turns a rejection into a rejection or fails. -/
theorem backOut_eq {result : Outcome} (notRejected : ∀ s, result ≠ .rejected s)
    (notAborted : result ≠ .aborted) : g.backOut e outcome = result ↔ outcome = result := by
  cases outcome with
  | rejected s =>
      rcases unrollEdge_cases (g := g) e (s.unmark e) with out | ⟨stack, out⟩
      · simp [backOut, out, (notRejected s).symm, notAborted.symm]
      · simp [backOut, out, (notRejected _).symm]
  | _ => simp [backOut]

theorem backOut_eq_found : g.backOut e outcome = .found ↔ outcome = .found :=
  backOut_eq (by simp) (by simp)

theorem backOut_eq_outOfFuel : g.backOut e outcome = .outOfFuel ↔ outcome = .outOfFuel :=
  backOut_eq (by simp) (by simp)

end BackOut

/-! ## What one round does -/

theorem recorded_iff :
    (edgeIsIndirect (g.edge f) || edgeIsDirectCall (g.edge f)) = true ↔ g.Recorded f := by
  rw [← edgeIsFunctionExit_eq]

theorem examineEdge_hidden (hidden : (g.edge f).hidden = true) :
    g.examineEdge recur lbr lbrDst f s = .rejected s := by
  simp [examineEdge, edgeIsHidden, hidden]

theorem examineEdge_plain (visible : (g.edge f).hidden = false) (plainEdge : ¬ g.Recorded f) :
    g.examineEdge recur lbr lbrDst f s = recur lbr f s := by
  have recorded : (edgeIsIndirect (g.edge f) || edgeIsDirectCall (g.edge f)) = false := by
    rw [← Bool.not_eq_true, recorded_iff]
    exact plainEdge
  simp [examineEdge, edgeIsHidden, visible, jitTrackCallstack_not_recorded plainEdge, recorded]

theorem examineEdge_recorded (visible : (g.edge f).hidden = false) (recorded : g.Recorded f) :
    g.examineEdge recur lbr lbrDst f s =
      match g.jitTrackCallstack f false false s.stack with
      | none => .aborted
      | some (0, stack) => g.unrollEdge f { s with stack }
      | some (_ + 1, stack) =>
          if f = lbrDst then
            if lbr.length - 1 < 2 then .found else recur lbr.tail f { s with stack }
          else g.unrollEdge f { s with stack } := by
  have exit := recorded_iff.mpr recorded
  simp only [examineEdge, edgeIsHidden, visible, exit, Bool.true_and, bne_iff_ne, beq_iff_eq]
  rcases g.jitTrackCallstack f false false s.stack with _ | ⟨_ | code, stack⟩
  · rfl
  · rfl
  · by_cases next : f = lbrDst <;> simp [next]

theorem examineEdge_cases (recur : List EdgeId → EdgeId → Search → Outcome) (lbr : List EdgeId)
    (lbrDst f : EdgeId) (s : Search) :
    g.examineEdge recur lbr lbrDst f s = .aborted ∨
    (∃ stack, g.examineEdge recur lbr lbrDst f s = .rejected { s with stack }) ∨
    ((g.edge f).hidden = false ∧ g.Recorded f ∧ f = lbrDst ∧ lbr.length - 1 < 2 ∧
      g.examineEdge recur lbr lbrDst f s = .found) ∨
    ((g.edge f).hidden = false ∧ g.Recorded f ∧ f = lbrDst ∧ ¬ lbr.length - 1 < 2 ∧
      ∃ stack, g.examineEdge recur lbr lbrDst f s = recur lbr.tail f { s with stack }) ∨
    ((g.edge f).hidden = false ∧ ¬ g.Recorded f ∧
      g.examineEdge recur lbr lbrDst f s = recur lbr f s) := by
  by_cases hidden : (g.edge f).hidden
  · exact .inr (.inl ⟨s.stack, examineEdge_hidden hidden⟩)
  rw [Bool.not_eq_true] at hidden
  by_cases recorded : g.Recorded f
  · rw [examineEdge_recorded hidden recorded]
    rcases g.jitTrackCallstack f false false s.stack with _ | ⟨_ | code, stack⟩
    · exact .inl rfl
    · exact (unrollEdge_cases f { s with stack }).imp_right .inl
    · by_cases next : f = lbrDst
      · by_cases last : lbr.length - 1 < 2
        · exact .inr (.inr (.inl ⟨hidden, recorded, next, last, by simp [next, last]⟩))
        · exact .inr (.inr (.inr (.inl ⟨hidden, recorded, next, last, stack, by simp [next, last]⟩)))
      · simp only [next, if_false]
        exact (unrollEdge_cases f { s with stack }).imp_right .inl
  · exact .inr (.inr (.inr (.inr ⟨hidden, recorded, examineEdge_plain hidden recorded⟩)))

/-! ## A failed search gives the visit counts back -/

theorem unrollEdge_sameVisits {s' : Search} (rejected : g.unrollEdge f s = .rejected s') :
    s.SameVisits s' := by
  rcases unrollEdge_cases (g := g) f s with aborted | ⟨stack, same⟩
  · simp [aborted] at rejected
  · rw [same, Outcome.rejected.injEq] at rejected
    exact ⟨stack, rejected.symm⟩

section
variable (recurKeeps : ∀ lbr e s s', recur lbr e s = .rejected s' → s.SameVisits s')
include recurKeeps

theorem examineEdge_sameVisits {s' : Search}
    (rejected : g.examineEdge recur lbr lbrDst f s = .rejected s') : s.SameVisits s' := by
  rcases examineEdge_cases (g := g) recur lbr lbrDst f s with
    out | ⟨stack, out⟩ | ⟨-, -, -, -, out⟩ | ⟨-, -, -, -, stack, out⟩ | ⟨-, -, out⟩
  · simp [out] at rejected
  · rw [out, Outcome.rejected.injEq] at rejected
    exact ⟨stack, rejected.symm⟩
  · simp [out] at rejected
  · obtain ⟨stack', rfl⟩ := recurKeeps _ _ _ _ (out ▸ rejected)
    exact ⟨stack', rfl⟩
  · exact recurKeeps _ _ _ _ (out ▸ rejected)

theorem exploreEdges_sameVisits {edges : List EdgeId} {s s' : Search}
    (rejected : g.exploreEdges recur lbr lbrDst edges s = .rejected s') : s.SameVisits s' := by
  induction edges generalizing s with
  | nil =>
      simp only [exploreEdges, Outcome.rejected.injEq] at rejected
      exact rejected ▸ .refl s
  | cons f rest ih =>
      rw [exploreEdges] at rejected
      cases examined : g.examineEdge recur lbr lbrDst f s with
      | rejected s₁ =>
          rw [examined] at rejected
          exact (examineEdge_sameVisits recurKeeps examined).trans (ih rejected)
      | _ => simp [examined] at rejected

end

theorem jitPathExists_sameVisits {fuel : Nat} {e : EdgeId} {s' : Search}
    (rejected : g.jitPathExists fuel lbr e s = .rejected s') : s.SameVisits s' := by
  induction fuel generalizing lbr e s s' with
  | zero => simp [jitPathExists] at rejected
  | succ fuel ih =>
      match lbr with
      | [] | [_] => simp [jitPathExists] at rejected
      | lbrSrc :: lbrDst :: lbr =>
          rw [jitPathExists] at rejected
          split_ifs at rejected with limit
          · rw [Outcome.rejected.injEq] at rejected
            exact rejected ▸ .refl s
          · obtain ⟨s₁, explored, unrolled⟩ := backOut_eq_rejected.mp rejected
            obtain ⟨stack, rfl⟩ := exploreEdges_sameVisits (fun _ _ _ _ => ih) explored
            obtain ⟨stack', rfl⟩ := unrollEdge_sameVisits unrolled
            exact ⟨stack', by rw [Search.unmark_mark]⟩

/-! ## Termination -/

/-- How many more edges a search can enter before every one of them reaches its limit. -/
def remaining (g : Cfg) (visited : EdgeId → Nat) : Nat :=
  ∑ e ∈ Finset.range g.edgeCount, (lbrSize - visited e)

theorem remaining_mark {e : EdgeId} (allocated : e < g.edgeCount) (s : Search)
    (below : s.visited e < lbrSize) :
    g.remaining (s.mark e).visited + 1 = g.remaining s.visited := by
  have member : e ∈ Finset.range g.edgeCount := Finset.mem_range.mpr allocated
  have before := Finset.add_sum_erase _ (fun x : Nat => lbrSize - s.visited x) member
  have after := Finset.add_sum_erase _ (fun x : Nat => lbrSize - (s.mark e).visited x) member
  have others : ∀ x ∈ (Finset.range g.edgeCount).erase e,
      lbrSize - (s.mark e).visited x = lbrSize - s.visited x := by
    intro x inErase
    rw [Search.mark_visited, Function.update_of_ne (Finset.ne_of_mem_erase inErase)]
  rw [Finset.sum_congr rfl others] at after
  simp only [Search.mark_visited, Function.update_self] at after
  simp only [remaining, Search.mark_visited]
  omega

section
variable {bound : Nat}
  (recurKeeps : ∀ lbr e s s', recur lbr e s = .rejected s' → s.SameVisits s')
  (recurEnds : ∀ lbr e s, e < g.edgeCount → g.remaining s.visited < bound →
    recur lbr e s ≠ .outOfFuel)
include recurEnds

theorem examineEdge_ne_outOfFuel (allocated : f < g.edgeCount)
    (enough : g.remaining s.visited < bound) :
    g.examineEdge recur lbr lbrDst f s ≠ .outOfFuel := by
  rcases examineEdge_cases (g := g) recur lbr lbrDst f s with
    out | ⟨stack, out⟩ | ⟨-, -, -, -, out⟩ | ⟨-, -, -, -, stack, out⟩ | ⟨-, -, out⟩
  · simp [out]
  · simp [out]
  · simp [out]
  · rw [out]
    exact recurEnds _ _ _ allocated enough
  · rw [out]
    exact recurEnds _ _ _ allocated enough

include recurKeeps

theorem exploreEdges_ne_outOfFuel {edges : List EdgeId} {s : Search}
    (allocated : ∀ f ∈ edges, f < g.edgeCount) (enough : g.remaining s.visited < bound) :
    g.exploreEdges recur lbr lbrDst edges s ≠ .outOfFuel := by
  induction edges generalizing s with
  | nil => simp [exploreEdges]
  | cons f rest ih =>
      have ends : g.examineEdge recur lbr lbrDst f s ≠ .outOfFuel :=
        examineEdge_ne_outOfFuel recurEnds (allocated f List.mem_cons_self) enough
      rw [exploreEdges]
      cases examined : g.examineEdge recur lbr lbrDst f s with
      | rejected s₁ =>
          obtain ⟨stack, rfl⟩ := examineEdge_sameVisits recurKeeps examined
          exact ih (fun f member => allocated f (List.mem_cons_of_mem _ member)) enough
      | outOfFuel => exact absurd examined ends
      | _ => simp

end

theorem jitPathExists_ne_outOfFuel {fuel : Nat} {e : EdgeId} (allocated : e < g.edgeCount)
    (enough : g.remaining s.visited < fuel) : g.jitPathExists fuel lbr e s ≠ .outOfFuel := by
  induction fuel generalizing lbr e s with
  | zero => omega
  | succ fuel ih =>
      match lbr with
      | [] | [_] => simp [jitPathExists]
      | lbrSrc :: lbrDst :: lbr =>
          rw [jitPathExists]
          split_ifs with limit
          · simp
          · have decrease := remaining_mark allocated s (by omega)
            rw [ne_eq, backOut_eq_outOfFuel]
            exact exploreEdges_ne_outOfFuel (fun _ _ _ _ => jitPathExists_sameVisits)
              (fun _ _ _ => ih) (g.outgoing_lt (g.target e)) (by omega : _ < fuel)

def searchFuel (g : Cfg) : Nat := lbrSize * g.edgeCount + 1

theorem jitPathExists_start_ne_outOfFuel {fuel : Nat} (enough : g.searchFuel ≤ fuel) {e : EdgeId}
    (allocated : e < g.edgeCount) (stack : List (Option BlockId)) :
    g.jitPathExists fuel lbr e (.start stack) ≠ .outOfFuel := by
  apply jitPathExists_ne_outOfFuel allocated
  have unvisited : g.remaining (Search.start stack).visited = g.edgeCount * lbrSize := by
    simp [remaining, Search.start]
  rw [unvisited, Nat.mul_comm]
  exact enough

end Cfg

end PathArmor.Analyzer

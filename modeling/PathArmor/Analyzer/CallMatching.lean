import PathArmor.Analyzer.JitSearch
import PathArmor.Library.Brackets

namespace PathArmor.Analyzer
open PathArmor.Library

namespace Cfg
variable (g : Cfg)

def callBrackets : Brackets EdgeId (Option BlockId) where
  opens e := edgeIsCall (g.edge e)
  closes e := edgeIsReturn (g.edge e)
  value e := g.getFallthroughBb (g.source e)

/-- Every return whose call is in the list goes to the fallthrough block of that call. -/
def Matched (lbr : List EdgeId) : Prop :=
  ∀ j k call ret, g.callBrackets.Encloses lbr j k → lbr[j]? = some call → lbr[k]? = some ret →
    g.getFallthroughBb (g.source call) = some (g.target ret)

/-- The calls pending after `lbr[i]`. The search tracks no edge before the second one. -/
def callStack (lbr : List EdgeId) (i : Nat) : List (Option BlockId) :=
  g.callBrackets.pending (lbr.tail.take i)

/-- A return the search can meet while it looks for `lbr[i + 1]`, and which is not that edge. -/
structure DeadReturn (lbr : List EdgeId) (i : Nat) (r : EdgeId) : Prop where
  isEdge : g.IsEdge r
  visible : (g.edge r).hidden = false
  ret : edgeIsReturn (g.edge r)
  other : lbr[i + 1]? ≠ some r
  reach : ∃ a, lbr[i]? = some a ∧ g.plain.Reach (g.target a) (g.source r)

def Allows (stack : List (Option BlockId)) (f : EdgeId) : Prop :=
  edgeIsReturn (g.edge f) → ∀ top, stack.head? = some top → top = some (g.target f)

variable {g} {recur : List EdgeId → EdgeId → Search → Outcome} {lbr : List EdgeId}
  {lbrDst f : EdgeId} {s : Search}

@[simp] theorem callStack_zero (lbr : List EdgeId) : g.callStack lbr 0 = [] := by
  simp [callStack, Brackets.pending]

theorem callStack_succ {i : Nat} {b : EdgeId} (next : lbr[i + 1]? = some b) :
    g.callStack lbr (i + 1) = g.callBrackets.step (g.callStack lbr i) b := by
  have inTail : lbr.tail[i]? = some b := by rwa [List.getElem?_tail]
  rw [callStack, callStack, Brackets.pending, Brackets.pending, List.take_add_one, inTail,
    Brackets.run_append]
  rfl

theorem drop_split {i : Nat} {a b : EdgeId} (here : lbr[i]? = some a)
    (next : lbr[i + 1]? = some b) : lbr.drop i = a :: b :: lbr.drop (i + 2) := by
  obtain ⟨bound, rfl⟩ := List.getElem?_eq_some_iff.mp here
  obtain ⟨boundNext, rfl⟩ := List.getElem?_eq_some_iff.mp next
  rw [List.drop_eq_getElem_cons bound, List.drop_eq_getElem_cons boundNext]

theorem encloses_cons {x : EdgeId} {j k : Nat} :
    g.callBrackets.Encloses (x :: lbr) (j + 1) (k + 1) ↔ g.callBrackets.Encloses lbr j k := by
  constructor
  · intro encloses
    exact ⟨by have := encloses.lt; omega, by simpa using encloses.opens,
      by simpa using encloses.closes, by simpa using encloses.balanced⟩
  · intro encloses
    exact ⟨by have := encloses.lt; omega, by simpa using encloses.opens,
      by simpa using encloses.closes, by simpa using encloses.balanced⟩

theorem not_allows_of_mismatch {j k : Nat} {call ret : EdgeId} (notFirst : 1 ≤ j)
    (encloses : g.callBrackets.Encloses lbr j (k + 1)) (atJ : lbr[j]? = some call)
    (atK : lbr[k + 1]? = some ret)
    (mismatch : g.getFallthroughBb (g.source call) ≠ some (g.target ret)) :
    ¬ g.Allows (g.callStack lbr k) ret := by
  cases lbr with
  | nil => simp at atK
  | cons x lbr =>
      obtain ⟨j, rfl⟩ : ∃ j', j = j' + 1 := ⟨j - 1, by omega⟩
      obtain ⟨a, atJ', pending⟩ := (encloses_cons.mp encloses).pending_take
      rw [List.getElem?_cons_succ, atJ', Option.some.injEq] at atJ
      subst atJ
      obtain ⟨c, atK', -, closes⟩ := encloses.closes
      rw [atK, Option.some.injEq] at atK'
      subst atK'
      intro allows
      exact mismatch (allows closes _ (by rw [callStack, List.tail_cons, pending]; rfl))

theorem Matched.allows (matched : g.Matched lbr) {i : Nat} (next : lbr[i + 1]? = some f) :
    g.Allows (g.callStack lbr i) f := by
  intro ret top head
  cases lbr with
  | nil => simp at next
  | cons x lbr =>
      obtain ⟨rest, pending⟩ := List.head?_eq_some_iff.mp head
      rw [List.getElem?_cons_succ] at next
      obtain ⟨j, a, atJ, value, encloses⟩ :=
        Brackets.exists_encloses next (edgeIsReturn_not_call ret) ret pending
      rw [← value]
      exact matched (j + 1) (i + 1) a f (encloses_cons.mpr encloses) (by simpa using atJ)
        (by simpa using next)

theorem matched_iff_allows :
    g.Matched lbr ↔ ∀ k (bound : k < lbr.length), g.Allows (g.callBrackets.pending (lbr.take k)) lbr[k] := by
  constructor
  · intro matched k bound ret top head
    obtain ⟨rest, pending⟩ := List.head?_eq_some_iff.mp head
    have atK : lbr[k]? = some lbr[k] := List.getElem?_eq_getElem bound
    obtain ⟨j, call, atJ, rfl, encloses⟩ :=
      Brackets.exists_encloses atK (edgeIsReturn_not_call ret) ret pending
    exact matched j k call _ encloses atJ atK
  · intro allows j k call ret encloses atJ atK
    obtain ⟨bound, rfl⟩ := List.getElem?_eq_some_iff.mp atK
    obtain ⟨call', atJ', pending⟩ := encloses.pending_take
    obtain rfl : call = call' := by simpa [atJ] using atJ'
    obtain ⟨c, atK', -, closes⟩ := encloses.closes
    obtain rfl : lbr[k] = c := by simpa [bound] using atK'
    exact allows k bound closes _ (by rw [pending]; rfl)

instance (stack : List (Option BlockId)) (f : EdgeId) : Decidable (g.Allows stack f) :=
  match h : stack.head? with
  | none => .isTrue fun _ _ head => by simp [h] at head
  | some top =>
      decidable_of_iff (edgeIsReturn (g.edge f) → top = some (g.target f)) <| by
        simp [Allows, h]

instance : Decidable (g.Matched lbr) := decidable_of_iff' _ matched_iff_allows

theorem Allows.of_isPrefix {stack whole : List (Option BlockId)} (allows : g.Allows whole f)
    (isPrefix : stack <+: whole) : g.Allows stack f := by
  intro ret top head
  apply allows ret top
  obtain ⟨rest, rfl⟩ := isPrefix
  rw [List.head?_append, head]
  rfl

/-! ## Rounds on recorded edges -/

theorem jitTrackCallstack_allowed {stack : List (Option BlockId)} (allowed : g.Allows stack f) :
    ∃ code, g.jitTrackCallstack f false false stack =
      some (code + 1, g.callBrackets.step stack f) := by
  by_cases call : edgeIsCall (g.edge f)
  · exact ⟨0, by rw [jitTrackCallstack_call call, Brackets.step_opens call]; rfl⟩
  rw [Bool.not_eq_true] at call
  by_cases ret : edgeIsReturn (g.edge f)
  · rw [jitTrackCallstack_return ret, Brackets.step_closes call ret]
    cases stack with
    | nil => exact ⟨1, rfl⟩
    | cons top rest =>
        obtain rfl := allowed ret top rfl
        exact ⟨0, by simp⟩
  · rw [Bool.not_eq_true] at ret
    exact ⟨0, by rw [jitTrackCallstack_neutral call ret, Brackets.step_neutral call ret]⟩

theorem allows_of_tracked {code : Nat} {stack stack' : List (Option BlockId)}
    (tracked : g.jitTrackCallstack f false false stack = some (code + 1, stack')) :
    g.Allows stack f ∧ stack' = g.callBrackets.step stack f := by
  have allowed : g.Allows stack f := by
    intro ret top head
    obtain ⟨rest, rfl⟩ := List.head?_eq_some_iff.mp head
    rw [jitTrackCallstack_return ret] at tracked
    cases top with
    | none => cases tracked
    | some bb =>
        simp only at tracked
        split_ifs at tracked with target
        · rw [target]
        · cases tracked
  obtain ⟨code', tracked'⟩ := jitTrackCallstack_allowed allowed
  rw [tracked] at tracked'
  cases tracked'
  exact ⟨allowed, rfl⟩

theorem examineEdge_next_allowed (visible : (g.edge f).hidden = false) (recorded : g.Recorded f)
    (allowed : g.Allows s.stack f) :
    g.examineEdge recur lbr f f s =
      if lbr.length - 1 < 2 then .found
      else recur lbr.tail f { s with stack := g.callBrackets.step s.stack f } := by
  obtain ⟨code, tracked⟩ := jitTrackCallstack_allowed allowed
  rw [examineEdge_recorded visible recorded, tracked]
  simp

theorem unrollEdge_return_empty (ret : edgeIsReturn (g.edge f)) (empty : s.stack = []) :
    g.unrollEdge f s = .rejected s := by
  obtain ⟨stack, edge, visited⟩ := s
  subst empty
  simp [unrollEdge, jitTrackCallstack_return ret]

theorem unrollEdge_return_mismatch (ret : edgeIsReturn (g.edge f)) {bb : BlockId}
    {rest : List (Option BlockId)} (stacked : s.stack = some bb :: rest)
    (different : g.target f ≠ bb) : g.unrollEdge f s = .rejected s := by
  obtain ⟨stack, edge, visited⟩ := s
  subst stacked
  simp [unrollEdge, jitTrackCallstack_return ret, different]

variable (recur lbr lbrDst) in
theorem examineEdge_refused (visible : (g.edge f).hidden = false) (recorded : g.Recorded f)
    (refused : ¬ g.Allows s.stack f) :
    s.stack.head? = some none ∧ g.examineEdge recur lbr lbrDst f s = .aborted ∨
      g.examineEdge recur lbr lbrDst f s = .rejected s := by
  simp only [Allows, not_forall] at refused
  obtain ⟨ret, top, head, notTarget⟩ := refused
  obtain ⟨rest, stacked⟩ := List.head?_eq_some_iff.mp head
  rw [examineEdge_recorded visible recorded, jitTrackCallstack_return ret, stacked]
  cases top with
  | none => exact .inl ⟨rfl, rfl⟩
  | some bb =>
      have different : g.target f ≠ bb := fun same => notTarget (by rw [same])
      right
      simp only [different, if_false, ← stacked]
      exact unrollEdge_return_mismatch ret stacked different

variable (recur lbr) in
theorem examineEdge_dead (visible : (g.edge f).hidden = false) (recorded : g.Recorded f)
    (other : f ≠ lbrDst)
    (notTop : edgeIsReturn (g.edge f) → s.stack.head? ≠ some (some (g.target f))) :
    g.examineEdge recur lbr lbrDst f s = .rejected s ∨
      s.stack.head? = some none ∧ g.examineEdge recur lbr lbrDst f s = .aborted := by
  rw [examineEdge_recorded visible recorded]
  by_cases call : edgeIsCall (g.edge f)
  · left
    simp only [jitTrackCallstack_call call, other, if_false, unrollEdge_call call, List.tail_cons]
  rw [Bool.not_eq_true] at call
  by_cases ret : edgeIsReturn (g.edge f)
  · rw [jitTrackCallstack_return ret]
    cases stacked : s.stack with
    | nil =>
        left
        simp only [other, if_false]
        rw [← stacked]
        exact unrollEdge_return_empty ret stacked
    | cons top rest =>
        cases top with
        | none => exact .inr ⟨rfl, rfl⟩
        | some bb =>
            have different : g.target f ≠ bb := by
              rintro rfl
              exact notTop ret (by rw [stacked]; rfl)
            left
            simp only [different, if_false, ← stacked]
            exact unrollEdge_return_mismatch ret stacked different
  · rw [Bool.not_eq_true] at ret
    left
    simp only [jitTrackCallstack_neutral call ret, other, if_false, unrollEdge_neutral call ret]

theorem unrollEdge_step (notPopped : edgeIsReturn (g.edge f) → s.stack = []) :
    g.unrollEdge f { s with stack := g.callBrackets.step s.stack f } = .rejected s := by
  by_cases call : edgeIsCall (g.edge f)
  · rw [unrollEdge_call call, Brackets.step_opens call]
    rfl
  rw [Bool.not_eq_true] at call
  by_cases ret : edgeIsReturn (g.edge f)
  · have empty := notPopped ret
    rw [Brackets.step_closes call ret, empty, List.tail_nil, ← empty]
    exact unrollEdge_return_empty ret empty
  · rw [Bool.not_eq_true] at ret
    rw [unrollEdge_neutral call ret, Brackets.step_neutral call ret]

end Cfg

end PathArmor.Analyzer

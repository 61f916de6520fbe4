import PathArmor.Analyzer.CallMatching

/-!
# Matching calls backwards

The search for LBR states goes back in time, so it meets a return before its call. At each call,
`edge_is_traversable` looks for the return among the edges after it. `DFSState.edge` is the list of
these edges with the one added last in front, which is their order in time.
-/

namespace PathArmor.Analyzer
open PathArmor.Library

namespace Cfg
variable (g : Cfg)

/-- The loop of `edge_is_traversable` for a call that returns to `bb`. -/
def scanReturns (bb : Option BlockId) : Nat → List EdgeId → Bool
  | _, [] => true
  | level, f :: edges =>
      if edgeIsCall (g.edge f) then scanReturns bb (level + 1) edges
      else if edgeIsReturn (g.edge f) then
        match level, bb with
        | level + 1, _ => scanReturns bb level edges
        | 0, none => false -- returns may never match a non-returning call
        | 0, some bb => bb == g.target f
      else scanReturns bb level edges

def edgeIsTraversable (e : EdgeId) (edges : List EdgeId) : Bool :=
  if edgeIsCall (g.edge e) then g.scanReturns (g.getFallthroughBb (g.source e)) 0 edges else true

/-- All edges of the list are traversable when they are added, the latest first. -/
def traversableBackwards : List EdgeId → Bool
  | [] => true
  | e :: edges => traversableBackwards edges && g.edgeIsTraversable e edges

/-- The results of `jit_track_callstack` on a sequence of edges. -/
def trackCodes : List (Option BlockId) → List EdgeId → Option (List Nat)
  | _, [] => some []
  | stack, e :: edges =>
      (g.jitTrackCallstack e false false stack).bind fun tracked =>
        (trackCodes tracked.2 edges).map (tracked.1 :: ·)

variable {g} {e : EdgeId} {edges : List EdgeId}

theorem scanReturns_eq (bb : Option BlockId) (level : Nat) (edges : List EdgeId) :
    g.scanReturns bb level edges = true ↔
      ∀ f, g.callBrackets.closer level edges = some f → bb = some (g.target f) := by
  induction edges generalizing level with
  | nil => simp [scanReturns, Brackets.closer]
  | cons f edges ih =>
      by_cases call : edgeIsCall (g.edge f)
      · rw [Brackets.closer_opens call, ← ih (level + 1)]
        simp [scanReturns, call]
      rw [Bool.not_eq_true] at call
      by_cases ret : edgeIsReturn (g.edge f)
      · rw [Brackets.closer_closes call ret]
        cases level with
        | succ level =>
            rw [← ih level]
            simp [scanReturns, call, ret]
        | zero =>
            cases bb with
            | none => simp [scanReturns, call, ret]
            | some bb => simp [scanReturns, call, ret]
      · rw [Bool.not_eq_true] at ret
        rw [Brackets.closer_neutral call ret, ← ih level]
        simp [scanReturns, call, ret]

theorem edgeIsTraversable_iff : g.edgeIsTraversable e edges = true ↔
    (edgeIsCall (g.edge e) → ∀ f, g.callBrackets.closer 0 edges = some f →
      g.getFallthroughBb (g.source e) = some (g.target f)) := by
  rw [edgeIsTraversable]
  split_ifs with call
  · simp only [scanReturns_eq, call, forall_const]
  · simp [call]

theorem matched_cons :
    g.Matched (e :: edges) ↔ g.edgeIsTraversable e edges = true ∧ g.Matched edges := by
  rw [edgeIsTraversable_iff]
  constructor
  · intro matched
    constructor
    · intro call f found
      obtain ⟨k, atK, notCall, ret, balanced⟩ := Brackets.closer_eq_some.mp found
      apply matched 0 (k + 1) e f _ rfl (by simpa using atK)
      exact Brackets.encloses_zero_iff.mpr ⟨call, f, atK, notCall, ret, balanced⟩
    · intro j k call ret encloses atJ atK
      exact matched (j + 1) (k + 1) call ret (encloses_cons.mpr encloses) (by simpa using atJ)
        (by simpa using atK)
  · rintro ⟨own, matched⟩ j k call ret encloses atJ atK
    cases k with
    | zero => exact absurd encloses.lt (Nat.not_lt_zero j)
    | succ k =>
        rw [List.getElem?_cons_succ] at atK
        cases j with
        | zero =>
            obtain ⟨isCall, f, atK', notCall, isReturn, balanced⟩ :=
              Brackets.encloses_zero_iff.mp encloses
            obtain rfl := Option.some.inj atJ
            obtain rfl : ret = f := by simpa [atK] using atK'
            exact own isCall ret (Brackets.closer_eq_some.mpr ⟨k, atK, notCall, isReturn, balanced⟩)
        | succ j =>
            exact matched j k call ret (encloses_cons.mp encloses) (by simpa using atJ) atK

theorem traversableBackwards_iff : g.traversableBackwards edges = true ↔ g.Matched edges := by
  induction edges with
  | nil =>
      refine ⟨fun _ j k call ret _ atJ => ?_, fun _ => rfl⟩
      simp at atJ
  | cons e edges ih => rw [traversableBackwards, Bool.and_eq_true, ih, matched_cons, and_comm]

/-! ## Tracking forwards -/

/-- No call of the sequence is a non-returning one. -/
def EveryCallReturns (g : Cfg) (edges : List EdgeId) : Prop :=
  ∀ e ∈ edges, edgeIsCall (g.edge e) → g.getFallthroughBb (g.source e) ≠ none

def AllowsAll (g : Cfg) (stack : List (Option BlockId)) (edges : List EdgeId) : Prop :=
  ∀ k (bound : k < edges.length), g.Allows (g.callBrackets.run stack (edges.take k)) edges[k]

theorem allowsAll_cons {stack : List (Option BlockId)} : g.AllowsAll stack (e :: edges) ↔
    g.Allows stack e ∧ g.AllowsAll (g.callBrackets.step stack e) edges := by
  constructor
  · intro allows
    exact ⟨allows 0 (by simp), fun k bound => allows (k + 1) (by simpa using bound)⟩
  · rintro ⟨first, rest⟩ k bound
    cases k with
    | zero => exact first
    | succ k => exact rest k (by simpa using bound)

theorem step_ne_none {stack : List (Option BlockId)} (returns : ∀ bb ∈ stack, bb ≠ none)
    (own : edgeIsCall (g.edge e) → g.getFallthroughBb (g.source e) ≠ none) :
    ∀ bb ∈ g.callBrackets.step stack e, bb ≠ none := by
  intro bb mem
  by_cases call : edgeIsCall (g.edge e)
  · rw [Brackets.step_opens call] at mem
    rcases List.mem_cons.mp mem with rfl | below
    · exact own call
    · exact returns bb below
  rw [Bool.not_eq_true] at call
  by_cases ret : edgeIsReturn (g.edge e)
  · rw [Brackets.step_closes call ret] at mem
    exact returns bb (List.mem_of_mem_tail mem)
  · rw [Bool.not_eq_true] at ret
    rw [Brackets.step_neutral call ret] at mem
    exact returns bb mem

theorem jitTrackCallstack_refused {stack : List (Option BlockId)}
    (returns : ∀ bb ∈ stack, bb ≠ none) (refused : ¬ g.Allows stack e) :
    g.jitTrackCallstack e false false stack = some (0, stack) := by
  simp only [Allows, not_forall] at refused
  obtain ⟨ret, top, head, notTarget⟩ := refused
  obtain ⟨rest, rfl⟩ := List.head?_eq_some_iff.mp head
  rw [jitTrackCallstack_return ret]
  cases top with
  | none => exact absurd rfl (returns none List.mem_cons_self)
  | some bb =>
      have different : g.target e ≠ bb := fun same => notTarget (by rw [same])
      simp [different]

theorem trackCodes_iff {stack : List (Option BlockId)} (returns : ∀ bb ∈ stack, bb ≠ none)
    (calls : g.EveryCallReturns edges) :
    ∃ codes, g.trackCodes stack edges = some codes ∧ (0 ∉ codes ↔ g.AllowsAll stack edges) := by
  induction edges generalizing stack with
  | nil =>
      refine ⟨[], rfl, fun _ k bound => ?_, fun _ => List.not_mem_nil⟩
      simp at bound
  | cons e edges ih =>
      have later : g.EveryCallReturns edges := fun f mem => calls f (List.mem_cons_of_mem e mem)
      rw [allowsAll_cons]
      by_cases allowed : g.Allows stack e
      · obtain ⟨code, tracked⟩ := jitTrackCallstack_allowed allowed
        obtain ⟨codes, rest, agrees⟩ := ih (step_ne_none returns (calls e List.mem_cons_self)) later
        refine ⟨(code + 1) :: codes, by simp [trackCodes, tracked, rest], ?_⟩
        simp [allowed, agrees]
      · -- the return stays on the stack; what follows makes no difference any more
        obtain ⟨codes, rest, -⟩ := ih returns later
        have refused := jitTrackCallstack_refused returns allowed
        refine ⟨0 :: codes, by simp [trackCodes, refused, rest], ?_⟩
        simp [allowed]

/-- Both ways of matching calls and returns accept the same sequences. -/
theorem track_iff_traversableBackwards (calls : g.EveryCallReturns edges) :
    ∃ codes, g.trackCodes [] edges = some codes ∧
      (0 ∉ codes ↔ g.traversableBackwards edges = true) := by
  obtain ⟨codes, tracked, agrees⟩ := @trackCodes_iff g edges [] (by simp) calls
  refine ⟨codes, tracked, ?_⟩
  rw [agrees, traversableBackwards_iff, matched_iff_allows]
  rfl

/-- A call, its return, and a return to somewhere else. -/
def callGraph : Cfg :=
  ofEdges id [(0x10, 0x14), (0x18, 0x1c), (0x20, 0x24), (0x30, 0x34)]
    [(0, 2, .directCall), (0, 1, .callFt), (2, 1, .ret), (2, 3, .ret)]

theorem track_iff_traversableBackwards_callGraph :
    (∃ codes, callGraph.trackCodes [] [0, 2, 0, 3] = some codes ∧ 0 ∈ codes) ∧
      callGraph.traversableBackwards [0, 2, 0, 3] = false := by
  obtain ⟨codes, tracked, agrees⟩ :=
    @track_iff_traversableBackwards callGraph [0, 2, 0, 3] (by
      unfold EveryCallReturns
      decide +kernel)
  have refused : callGraph.traversableBackwards [0, 2, 0, 3] = false := by decide +kernel
  refine ⟨⟨codes, tracked, ?_⟩, refused⟩
  by_contra absent
  rw [refused] at agrees
  exact Bool.false_ne_true (agrees.mp absent)

end Cfg

end PathArmor.Analyzer

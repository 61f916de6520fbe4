import PathArmor.Analyzer.CallMatching

namespace PathArmor.Analyzer
open PathArmor.Library

namespace Cfg
variable (g : Cfg) (lbr : List EdgeId)

/-- The recorded branches of a genuine execution, in a graph where every call can return. -/
structure Genuine : Prop where
  isEdge : ∀ e ∈ lbr, g.IsEdge e
  visible : ∀ e ∈ lbr, (g.edge e).hidden = false
  recorded : ∀ e ∈ lbr, g.Recorded e
  connected : ∀ i a b, lbr[i]? = some a → lbr[i + 1]? = some b →
    g.plain.Reach (g.target a) (g.source b)
  matched : g.Matched lbr
  fallthrough : ∀ e, g.IsEdge e → edgeIsCall (g.edge e) → g.getFallthroughBb (g.source e) ≠ none

def PopsDeep (m : Nat) : Prop :=
  ∃ r, lbr[m]? = some r ∧ edgeIsReturn (g.edge r) ∧ 2 ≤ (g.callStack lbr (m - 1)).length

/-- What the search may unroll without missing a later return: with two calls pending it meets no
unrecorded return to the top of the stack, and it never has to back out of a return that left a
call pending because a loop it took before used up the visits of an edge it needs afterwards. -/
structure UnrollsHarmlessly : Prop where
  noDeadReturn : ∀ i r, 2 ≤ (g.callStack lbr i).length → g.DeadReturn lbr i r →
    (g.callStack lbr i).head? ≠ some (some (g.target r))
  noSharedLoop : ∀ i m p a c f, g.PopsDeep lbr m → i < m → m ≤ p → p + 1 < lbr.length →
    lbr[i]? = some a → lbr[p]? = some c → g.plain.OnCycle f →
    g.plain.Reach (g.target a) (g.source f) → ¬ g.plain.Reach (g.target c) (g.source f)

/-! ## The edges on the recursion stack -/

/-- The edges entered since the start, last first: the entries of the LBR up to `lbr[i]` with plain
edges between them. -/
inductive Trail : Nat → BlockId → List EdgeId → Prop
  | start {a : EdgeId} (first : lbr[0]? = some a) : Trail 0 (g.target a) [a]
  | plain {i : Nat} {f : EdgeId} {entered : List EdgeId} (usable : g.plain.usable f)
      (trail : Trail i (g.source f) entered) : Trail i (g.target f) (f :: entered)
  | record {i : Nat} {b : EdgeId} {entered : List EdgeId} (next : lbr[i + 1]? = some b)
      (trail : Trail i (g.source b) entered) : Trail (i + 1) (g.target b) (b :: entered)

variable {g lbr} {i m : Nat} {block : BlockId} {entered : List EdgeId}

theorem Trail.reach (trail : g.Trail lbr i block entered) :
    ∃ a, lbr[i]? = some a ∧ g.plain.Reach (g.target a) block := by
  induction trail with
  | start first => exact ⟨_, first, .refl _⟩
  | plain usable _ ih =>
      obtain ⟨a, here, reach⟩ := ih
      exact ⟨a, here, reach.trans (.edge usable)⟩
  | record next _ _ => exact ⟨_, next, .refl _⟩

theorem Trail.recorded_count_le (trail : g.Trail lbr i block entered) {f : EdgeId}
    (recorded : g.Recorded f) : entered.count f ≤ i + 1 := by
  induction trail with
  | @start a _ => exact List.count_le_length
  | @plain i x entered usable _ ih =>
      have other : x ≠ f := by
        rintro rfl
        exact usable.2.2 recorded
      rwa [List.count_cons_of_ne other]
  | @record i b entered _ _ ih =>
      have := List.count_cons (a := f) (b := b) (l := entered)
      split_ifs at this <;> omega

theorem Trail.acyclic_count_le (genuine : g.Genuine lbr) (trail : g.Trail lbr i block entered)
    {f : EdgeId} (usable : g.plain.usable f) (acyclic : ¬ g.plain.OnCycle f) :
    entered.count f ≤ i ∨ entered.count f ≤ i + 1 ∧ ¬ g.plain.Reach block (g.source f) := by
  have recorded_ne {j : Nat} {b : EdgeId} (entry : lbr[j]? = some b) : b ≠ f := by
    rintro rfl
    exact usable.2.2 (genuine.recorded b (List.mem_of_getElem? entry))
  induction trail with
  | @start a first =>
      left
      rw [List.count_cons_of_ne (recorded_ne first), List.count_nil]
  | @plain i x entered usableX _ ih =>
      rcases eq_or_ne x f with rfl | other
      · rw [List.count_cons_self]
        have unreachable : ¬ g.plain.Reach (g.target x) (g.source x) :=
          fun reach => acyclic ⟨usable, reach⟩
        rcases ih with few | ⟨-, apart⟩
        · exact .inr ⟨by omega, unreachable⟩
        · exact absurd (.refl _) apart
      · rw [List.count_cons_of_ne other]
        exact ih.imp_right fun ⟨few, apart⟩ => ⟨few, fun reach => apart (.head usableX reach)⟩
  | @record i b entered next _ ih =>
      left
      rw [List.count_cons_of_ne (recorded_ne next)]
      omega

theorem Trail.reach_of_mem (trail : g.Trail lbr i block entered) {f : EdgeId}
    (member : f ∈ entered) (usable : g.plain.usable f) (genuine : g.Genuine lbr) :
    ∃ j a, j ≤ i ∧ lbr[j]? = some a ∧ g.plain.Reach (g.target a) (g.source f) := by
  have recorded_ne {j : Nat} {b : EdgeId} (entry : lbr[j]? = some b) : f ≠ b := by
    rintro rfl
    exact usable.2.2 (genuine.recorded f (List.mem_of_getElem? entry))
  induction trail with
  | @start a first => exact absurd (List.mem_singleton.mp member) (recorded_ne first)
  | @plain i x entered usableX trail ih =>
      rcases List.mem_cons.mp member with rfl | member
      · obtain ⟨a, here, reach⟩ := trail.reach
        exact ⟨i, a, le_rfl, here, reach⟩
      · exact ih member
  | @record i b entered next _ ih =>
      cases List.mem_cons.mp member with
      | inl same => exact absurd same (recorded_ne next)
      | inr member =>
          obtain ⟨j, a, bound, entry, reach⟩ := ih member
          exact ⟨j, a, by omega, entry, reach⟩

variable (g lbr) in
def Ahead (m : Nat) (f : EdgeId) : Prop :=
  g.plain.usable f ∧ ∃ p c, m ≤ p ∧ p + 1 < lbr.length ∧ lbr[p]? = some c ∧
    g.plain.Reach (g.target c) (g.source f)

theorem Trail.ahead_count_le (genuine : g.Genuine lbr) (harmless : g.UnrollsHarmlessly lbr)
    (pops : g.PopsDeep lbr (i + 1)) (trail : g.Trail lbr i block entered) {f : EdgeId}
    (ahead : g.Ahead lbr (i + 1) f) : entered.count f ≤ i + 1 := by
  obtain ⟨usable, p, c, after, inside, atP, reach⟩ := ahead
  by_cases cyclic : g.plain.OnCycle f
  · have unentered : f ∉ entered := by
      intro member
      obtain ⟨j, a, bound, atJ, reachJ⟩ := trail.reach_of_mem member usable genuine
      exact harmless.noSharedLoop j (i + 1) p a c f pops (by omega) after inside atJ atP cyclic
        reachJ reach
    rw [List.count_eq_zero_of_not_mem unentered]
    omega
  · have := trail.acyclic_count_le genuine usable cyclic
    omega

/-! ## Routes that respect the visit limit -/

variable (g lbr) in
/-- A way on to `lbr[goal]` that enters no plain edge more often than the limit allows. -/
inductive Route (goal : Nat) : Nat → BlockId → List EdgeId → Prop
  | done {i : Nat} {b : EdgeId} {entered : List EdgeId} (last : i + 1 = goal)
      (next : lbr[i + 1]? = some b) : Route goal i (g.source b) entered
  | plain {i : Nat} {f : EdgeId} {entered : List EdgeId} (usable : g.plain.usable f)
      (below : entered.count f < lbrSize) (rest : Route goal i (g.target f) (f :: entered)) :
      Route goal i (g.source f) entered
  | record {i : Nat} {b : EdgeId} {entered : List EdgeId} (before : i + 1 < goal)
      (next : lbr[i + 1]? = some b) (rest : Route goal (i + 1) (g.target b) (b :: entered)) :
      Route goal i (g.source b) entered

theorem Route.of_walk {goal : Nat} {block' : BlockId} {path : List EdgeId}
    (walk : g.plain.Walk block path block') (nodup : path.Nodup)
    (below : ∀ f ∈ path, entered.count f < lbrSize)
    (route : g.Route lbr goal i block' (path.reverse ++ entered)) :
    g.Route lbr goal i block entered := by
  induction walk generalizing entered with
  | nil block => exact route
  | @cons f path block' usable _ ih =>
      rw [List.nodup_cons] at nodup
      refine .plain usable (below f List.mem_cons_self) (ih nodup.2 ?_ (by simpa using route))
      intro x member
      have other : f ≠ x := by
        rintro rfl
        exact nodup.1 member
      rw [List.count_cons_of_ne other]
      exact below x (List.mem_cons_of_mem _ member)

theorem exists_route (genuine : g.Genuine lbr) (short : lbr.length ≤ lbrSize) {goal : Nat}
    (inside : goal < lbr.length) {a : EdgeId} (after : m ≤ i) (below : i < goal)
    (here : lbr[i]? = some a) (few : ∀ f, g.Ahead lbr m f → entered.count f ≤ i) :
    g.Route lbr goal i (g.target a) entered := by
  induction left : goal - i generalizing i a entered with
  | zero => omega
  | succ left ih =>
      have next : lbr[i + 1]? = some lbr[i + 1] := List.getElem?_eq_getElem (by omega)
      obtain ⟨path, walk⟩ := genuine.connected i a _ here next
      obtain ⟨path, walk, nodup⟩ := walk.exists_nodup
      have ahead {f : EdgeId} (member : f ∈ path) : g.Ahead lbr m f := by
        obtain ⟨usable, reach⟩ := walk.reach_of_mem member
        exact ⟨usable, i, a, after, by omega, here, reach⟩
      refine .of_walk walk nodup (fun f member => ?_) ?_
      · have := few f (ahead member)
        omega
      · cases Nat.lt_or_eq_of_le (show i + 1 ≤ goal by omega) with
        | inl before =>
            refine .record before next (ih (by omega) before next (fun f ahead => ?_) (by omega))
            have other : lbr[i + 1] ≠ f := by
              rintro rfl
              exact ahead.1.2.2 (genuine.recorded _ (List.mem_of_getElem? next))
            have once : path.reverse.count f ≤ 1 := by
              rw [List.count_reverse]
              exact List.nodup_iff_count_le_one.mp nodup f
            have := few f ahead
            rw [List.count_cons_of_ne other, List.count_append]
            omega
        | inr last => exact .done last next

/-! ## The stack is the innermost part of the pending calls -/

theorem step_isPrefix {stack whole : List (Option BlockId)} (isPrefix : stack <+: whole)
    (f : EdgeId) : g.callBrackets.step stack f <+: g.callBrackets.step whole f := by
  unfold Brackets.step
  split_ifs
  · exact List.cons_prefix_cons.mpr ⟨rfl, isPrefix⟩
  · simpa only [List.drop_one] using isPrefix.drop 1
  · exact isPrefix

theorem unrollEdge_isPrefix {b : EdgeId} {s : Search} (next : lbr[i + 1]? = some b)
    (isPrefix : s.stack <+: g.callStack lbr (i + 1)) (shallow : ¬ g.PopsDeep lbr (i + 1)) :
    ∃ stack, g.unrollEdge b s = .rejected { s with stack } ∧ stack <+: g.callStack lbr i := by
  rw [callStack_succ next] at isPrefix
  by_cases call : edgeIsCall (g.edge b)
  · rw [Brackets.step_opens call] at isPrefix
    exact ⟨_, unrollEdge_call call s, by simpa only [List.drop_one, List.tail_cons] using isPrefix.drop 1⟩
  rw [Bool.not_eq_true] at call
  by_cases ret : edgeIsReturn (g.edge b)
  · have single : (g.callStack lbr i).length < 2 := by
      by_contra deep
      exact shallow ⟨b, next, ret, not_lt.mp deep⟩
    rw [Brackets.step_closes call ret] at isPrefix
    have empty : s.stack = [] := by
      have := isPrefix.length_le
      rw [List.length_tail] at this
      exact List.length_eq_zero_iff.mp (by omega)
    exact ⟨s.stack, unrollEdge_return_empty ret empty, empty ▸ List.nil_prefix⟩
  · rw [Bool.not_eq_true] at ret
    rw [Brackets.step_neutral call ret] at isPrefix
    exact ⟨s.stack, unrollEdge_neutral call ret s, isPrefix⟩

theorem Genuine.none_notMem (genuine : g.Genuine lbr) (i : Nat) : none ∉ g.callStack lbr i := by
  induction i with
  | zero => simp
  | succ i ih =>
      cases next : lbr[i + 1]? with
      | none =>
          have ended : lbr.tail.take (i + 1) = lbr.tail.take i := by
            rw [List.getElem?_eq_none_iff] at next
            rw [List.take_of_length_le (by simp; omega), List.take_of_length_le (by simp; omega)]
          rwa [callStack, ended]
      | some b =>
          rw [callStack_succ next, Brackets.step]
          split_ifs with call ret
          · have isEdge := genuine.isEdge b (List.mem_of_getElem? next)
            rw [List.mem_cons, not_or]
            exact ⟨(genuine.fallthrough b isEdge call).symm, ih⟩
          · exact fun member => ih (List.mem_of_mem_tail member)
          · exact ih

theorem examineEdge_dead_single {recur : List EdgeId → EdgeId → Search → Outcome}
    {lbrDst f : EdgeId} {s : Search} (visible : (g.edge f).hidden = false)
    (ret : edgeIsReturn (g.edge f)) (other : f ≠ lbrDst) (single : s.stack = [some (g.target f)]) :
    g.examineEdge recur lbr lbrDst f s = .rejected { s with stack := [] } := by
  rw [examineEdge_recorded visible (edgeIsReturn_functionExit ret), jitTrackCallstack_return ret,
    single]
  simp only [other, if_false, if_true]
  exact unrollEdge_return_empty ret rfl

theorem examineEdge_dead_isPrefix (genuine : g.Genuine lbr) (harmless : g.UnrollsHarmlessly lbr)
    {recur : List EdgeId → EdgeId → Search → Outcome} {trace : List EdgeId} {a b f : EdgeId}
    {s : Search} (here : lbr[i]? = some a) (next : lbr[i + 1]? = some b) (isEdge : g.IsEdge f)
    (visible : (g.edge f).hidden = false) (recorded : g.Recorded f)
    (reach : g.plain.Reach (g.target a) (g.source f)) (other : f ≠ b)
    (isPrefix : s.stack <+: g.callStack lbr i) :
    ∃ stack, g.examineEdge recur trace b f s = .rejected { s with stack } ∧
      stack <+: g.callStack lbr i := by
  have head {top : Option BlockId} (top_eq : s.stack.head? = some top) :
      (g.callStack lbr i).head? = some top := by
    obtain ⟨rest, whole⟩ := isPrefix
    rw [← whole, List.head?_append, top_eq]
    rfl
  by_cases onTop : edgeIsReturn (g.edge f) ∧ s.stack.head? = some (some (g.target f))
  · obtain ⟨ret, top⟩ := onTop
    have dead : g.DeadReturn lbr i f := by
      refine ⟨isEdge, visible, ret, ?_, a, here, reach⟩
      rw [next, ne_eq, Option.some.injEq]
      exact other.symm
    have single : (g.callStack lbr i).length < 2 := by
      by_contra deep
      exact harmless.noDeadReturn i f (by omega) dead (head top)
    obtain ⟨rest, stacked⟩ := List.head?_eq_some_iff.mp top
    have short := isPrefix.length_le
    have empty : rest = [] := by
      rw [stacked, List.length_cons] at short
      exact List.length_eq_zero_iff.mp (by omega)
    rw [empty] at stacked
    exact ⟨[], examineEdge_dead_single visible ret other stacked, List.nil_prefix⟩
  · rw [not_and] at onTop
    rcases examineEdge_dead recur trace visible recorded other onTop with out | ⟨top, -⟩
    · exact ⟨s.stack, out, isPrefix⟩
    · exact absurd (List.mem_of_head? (head top)) (genuine.none_notMem i)

/-! ## A search that fails has tried every route -/

def FoundOr (P : Search → Prop) : Outcome → Prop
  | .found => True
  | .outOfFuel => True
  | .aborted => False
  | .rejected s => P s

theorem FoundOr.imp {P Q : Search → Prop} (weaker : ∀ s, P s → Q s) {outcome : Outcome}
    (settled : FoundOr P outcome) : FoundOr Q outcome := by
  cases outcome with
  | rejected s => exact weaker s settled
  | found => exact settled
  | outOfFuel => exact settled
  | aborted => exact settled

theorem FoundOr.backOut {P Q : Search → Prop} {e : EdgeId} {outcome : Outcome}
    (settled : FoundOr P outcome)
    (back : ∀ s : Search, P s → FoundOr Q (g.unrollEdge e (s.unmark e))) :
    FoundOr Q (g.backOut e outcome) := by
  cases outcome with
  | rejected s => exact back s settled
  | found => trivial
  | outOfFuel => trivial
  | aborted => exact settled

theorem FoundOr.exploreEdges_cons {P Q : Search → Prop}
    {recur : List EdgeId → EdgeId → Search → Outcome} {b f : EdgeId} {rest : List EdgeId}
    {s : Search} (recurKeeps : ∀ lbr e s s', recur lbr e s = .rejected s' → s.SameVisits s')
    (settled : FoundOr P (g.examineEdge recur lbr b f s))
    (later : ∀ s₁, s.SameVisits s₁ → P s₁ → FoundOr Q (g.exploreEdges recur lbr b rest s₁)) :
    FoundOr Q (g.exploreEdges recur lbr b (f :: rest) s) := by
  rw [exploreEdges]
  cases examined : g.examineEdge recur lbr b f s with
  | rejected s₁ =>
      rw [examined] at settled
      exact later s₁ (examineEdge_sameVisits recurKeeps examined) settled
  | found => trivial
  | outOfFuel => trivial
  | aborted =>
      rw [examined] at settled
      exact settled

def Counted (s : Search) : Prop := ∀ f, s.visited f = s.edge.count f

theorem Counted.mark {s : Search} (counted : Counted s) (e : EdgeId) : Counted (s.mark e) := by
  intro f
  rw [Search.mark_visited, Search.mark_edge]
  rcases eq_or_ne f e with rfl | other
  · rw [Function.update_self, List.count_cons_self, counted f]
  · rw [Function.update_of_ne other, List.count_cons_of_ne other.symm, counted f]

variable (g lbr) in
def Via (goal i : Nat) (b : EdgeId) (entered : List EdgeId) (f : EdgeId) : Prop :=
  f = b ∧ (i + 1 = goal ∨ g.Route lbr goal (i + 1) (g.target b) (b :: entered)) ∨
    g.plain.usable f ∧ entered.count f < lbrSize ∧ g.Route lbr goal i (g.target f) (f :: entered)

theorem Route.exists_via (genuine : g.Genuine lbr) {goal : Nat} {b : EdgeId}
    (next : lbr[i + 1]? = some b) (route : g.Route lbr goal i block entered) :
    ∃ f ∈ g.outgoing block, g.Via lbr goal i b entered f := by
  cases route with
  | @done _ b' _ last next' =>
      obtain rfl : b = b' := by simpa [next] using next'
      exact ⟨b, genuine.isEdge b (List.mem_of_getElem? next), .inl ⟨rfl, .inl last⟩⟩
  | @plain _ f _ usable below rest => exact ⟨f, usable.1, .inr ⟨usable, below, rest⟩⟩
  | @record _ b' _ before next' rest =>
      obtain rfl : b = b' := by simpa [next] using next'
      exact ⟨b, genuine.isEdge b (List.mem_of_getElem? next), .inl ⟨rfl, .inr rest⟩⟩

variable (g lbr) in
def PlainSearch (goal fuel i : Nat) : Prop :=
  ∀ f s, g.plain.usable f → s.stack <+: g.callStack lbr i → Counted s →
    g.Trail lbr i (g.source f) s.edge →
    FoundOr (fun s' => s'.stack <+: g.callStack lbr i ∧
        ¬ (s.edge.count f < lbrSize ∧ g.Route lbr goal i (g.target f) (f :: s.edge)))
      (g.jitPathExists fuel (lbr.drop i) f s)

variable (g lbr) in
def RecordSearch (goal fuel i : Nat) : Prop :=
  ∀ a s, lbr[i]? = some a → s.stack <+: g.callStack lbr i → Counted s →
    g.Trail lbr i (g.target a) (a :: s.edge) →
    FoundOr (fun s' => s'.stack <+: g.callStack lbr (i - 1) ∧
        ¬ g.Route lbr goal i (g.target a) (a :: s.edge))
      (g.jitPathExists fuel (lbr.drop i) a s)

variable (g lbr) in
def Arrives (m : Nat) : Prop :=
  ∀ fuel a s, lbr[m]? = some a → s.stack <+: g.callStack lbr m → Counted s →
    g.Trail lbr m (g.target a) (a :: s.edge) → (∀ f, g.Ahead lbr m f → s.edge.count f ≤ m) →
    FoundOr (fun _ => False) (g.jitPathExists fuel (lbr.drop m) a s)

/-- A stretch of the LBR that ends at its last entry or at a return that pops one of two calls. -/
structure Leg (g : Cfg) (lbr : List EdgeId) (m goal : Nat) : Prop where
  genuine : g.Genuine lbr
  harmless : g.UnrollsHarmlessly lbr
  short : lbr.length ≤ lbrSize
  inside : goal < lbr.length
  shallow : ∀ i, m < i → i < goal → ¬ g.PopsDeep lbr i
  deep : goal + 1 < lbr.length → g.PopsDeep lbr goal
  arrives : goal + 1 < lbr.length → g.Arrives lbr goal

namespace Leg
variable {goal fuel : Nat} (leg : g.Leg lbr m goal) (below : i < goal)
  {a b : EdgeId} (here : lbr[i]? = some a) (next : lbr[i + 1]? = some b)
  (recordSearch : i + 1 < goal → g.RecordSearch lbr goal fuel (i + 1))
include leg below next recordSearch

theorem examineEdge_next {s : Search} (isPrefix : s.stack <+: g.callStack lbr i)
    (counted : Counted s) (trail : g.Trail lbr i (g.source b) s.edge) :
    FoundOr (fun s' => s'.stack <+: g.callStack lbr i ∧ ¬ g.Via lbr goal i b s.edge b)
      (g.examineEdge (g.jitPathExists fuel) (lbr.drop i) b b s) := by
  have member := List.mem_of_getElem? next
  have recorded := leg.genuine.recorded b member
  have allowed := (leg.genuine.matched.allows next).of_isPrefix isPrefix
  rw [examineEdge_next_allowed (leg.genuine.visible b member) recorded allowed, List.tail_drop]
  split_ifs with last
  · trivial
  · have isPrefix' : g.callBrackets.step s.stack b <+: g.callStack lbr (i + 1) := by
      rw [callStack_succ next]
      exact step_isPrefix isPrefix b
    rcases Nat.lt_or_eq_of_le (show i + 1 ≤ goal by omega) with before | rfl
    · have searched := recordSearch before b { s with stack := g.callBrackets.step s.stack b } next
        isPrefix' counted (.record next trail)
      apply searched.imp
      rintro s' ⟨restored, noRoute⟩
      refine ⟨restored, ?_⟩
      rintro (⟨-, last | route⟩ | ⟨usable, -⟩)
      · omega
      · exact noRoute route
      · exact usable.2.2 recorded
    · have inside : i + 1 + 1 < lbr.length := by
        rw [List.length_drop] at last
        omega
      refine (leg.arrives inside fuel b { s with stack := g.callBrackets.step s.stack b } next
        isPrefix' counted (.record next trail) ?_).imp fun _ => False.elim
      exact fun f => trail.ahead_count_le leg.genuine leg.harmless (leg.deep inside)

include here
variable (plainSearch : g.PlainSearch lbr goal fuel i)
include plainSearch

theorem examineEdge_search {f : EdgeId} {s : Search} (isEdge : g.IsEdge f)
    (isPrefix : s.stack <+: g.callStack lbr i) (counted : Counted s)
    (trail : g.Trail lbr i (g.source f) s.edge) :
    FoundOr (fun s' => s'.stack <+: g.callStack lbr i ∧ ¬ g.Via lbr goal i b s.edge f)
      (g.examineEdge (g.jitPathExists fuel) (lbr.drop i) b f s) := by
  rcases eq_or_ne f b with rfl | other
  · exact leg.examineEdge_next below next recordSearch isPrefix counted trail
  by_cases hidden : (g.edge f).hidden
  · rw [examineEdge_hidden hidden]
    refine ⟨isPrefix, ?_⟩
    rintro (⟨same, -⟩ | ⟨usable, -⟩)
    · exact other same
    · simp [usable.2.1] at hidden
  rw [Bool.not_eq_true] at hidden
  by_cases recorded : g.Recorded f
  · obtain ⟨a', here', reach⟩ := trail.reach
    obtain rfl : a = a' := by simpa [here] using here'
    obtain ⟨stack, out, isPrefix'⟩ := examineEdge_dead_isPrefix leg.genuine leg.harmless here next
      isEdge hidden recorded reach other isPrefix
    rw [out]
    refine ⟨isPrefix', ?_⟩
    rintro (⟨same, -⟩ | ⟨usable, -⟩)
    · exact other same
    · exact usable.2.2 recorded
  · rw [examineEdge_plain hidden recorded]
    apply (plainSearch f s ⟨isEdge, hidden, recorded⟩ isPrefix counted trail).imp
    rintro s' ⟨restored, noRoute⟩
    refine ⟨restored, ?_⟩
    rintro (⟨same, -⟩ | ⟨-, route⟩)
    · exact other same
    · exact noRoute route

theorem exploreEdges_search {edges : List EdgeId} {s : Search}
    (outgoing : ∀ f ∈ edges, f ∈ g.outgoing block) (isPrefix : s.stack <+: g.callStack lbr i)
    (counted : Counted s) (trail : g.Trail lbr i block s.edge) :
    FoundOr (fun s' => s'.stack <+: g.callStack lbr i ∧
        ∀ f ∈ edges, ¬ g.Via lbr goal i b s.edge f)
      (g.exploreEdges (g.jitPathExists fuel) (lbr.drop i) b edges s) := by
  induction edges generalizing s with
  | nil => exact ⟨isPrefix, by simp⟩
  | cons f rest ih =>
      have member := outgoing f List.mem_cons_self
      have searched := leg.examineEdge_search below here next recordSearch plainSearch
        (isEdge_of_mem member) isPrefix counted ((source_of_mem member).symm ▸ trail)
      apply searched.exploreEdges_cons (fun _ _ _ _ => jitPathExists_sameVisits)
      rintro _ ⟨stack, rfl⟩ ⟨isPrefix₁, noVia⟩
      have later := ih (s := { s with stack })
        (fun f member => outgoing f (List.mem_cons_of_mem _ member)) isPrefix₁ counted trail
      apply later.imp
      rintro s' ⟨restored, noRoute⟩
      refine ⟨restored, fun x memberX => ?_⟩
      rcases List.mem_cons.mp memberX with rfl | memberX
      · exact noVia
      · exact noRoute x memberX

theorem exploreEdges_route {s : Search} (isPrefix : s.stack <+: g.callStack lbr i)
    (counted : Counted s) (trail : g.Trail lbr i block s.edge) :
    FoundOr (fun s' => s'.stack <+: g.callStack lbr i ∧ ¬ g.Route lbr goal i block s.edge)
      (g.exploreEdges (g.jitPathExists fuel) (a :: b :: lbr.drop (i + 2)) b (g.outgoing block) s) := by
  rw [← drop_split here next]
  have searched := leg.exploreEdges_search below here next recordSearch plainSearch
    (fun _ member => member) isPrefix counted trail
  apply searched.imp
  rintro s' ⟨restored, noVia⟩
  refine ⟨restored, fun route => ?_⟩
  obtain ⟨f, member, via⟩ := route.exists_via leg.genuine next
  exact noVia f member via

theorem plainSearch_succ : g.PlainSearch lbr goal (fuel + 1) i := by
  intro f s usable isPrefix counted trail
  have searched := leg.exploreEdges_route below here next recordSearch plainSearch
    (s := s.mark f) isPrefix (counted.mark f) (.plain usable trail)
  rw [drop_split here next, jitPathExists]
  split_ifs with limit
  · refine ⟨isPrefix, ?_⟩
    rintro ⟨few, -⟩
    have := counted f
    omega
  · apply searched.backOut
    rintro s₁ ⟨restored, noRoute⟩
    rw [unrollEdge_not_recorded usable.2.2]
    exact ⟨restored, fun way => noRoute way.2⟩

omit recordSearch plainSearch in
theorem jitPathExists_entry {s : Search} (counted : Counted s)
    (trail : g.Trail lbr i (g.target a) (a :: s.edge)) :
    g.jitPathExists (fuel + 1) (lbr.drop i) a s =
      g.backOut a (g.exploreEdges (g.jitPathExists fuel) (a :: b :: lbr.drop (i + 2)) b
        (g.outgoing (g.target a)) (s.mark a)) := by
  have few := trail.recorded_count_le (leg.genuine.recorded a (List.mem_of_getElem? here))
  have inside := leg.inside
  have short := leg.short
  rw [List.count_cons_self] at few
  rw [drop_split here next, jitPathExists, counted a, if_neg (by omega)]

theorem recordSearch_succ (after : m < i) : g.RecordSearch lbr goal (fuel + 1) i := by
  intro a' s here' isPrefix counted trail
  obtain rfl : a = a' := by simpa [here] using here'
  have searched := leg.exploreEdges_route below here next recordSearch plainSearch
    (s := s.mark a) isPrefix (counted.mark a) trail
  rw [leg.jitPathExists_entry below here next counted trail]
  apply searched.backOut
  rintro s₁ ⟨isPrefix₁, noRoute⟩
  obtain ⟨i, rfl⟩ : ∃ i', i = i' + 1 := ⟨i - 1, by omega⟩
  obtain ⟨stack, out, restored⟩ :=
    unrollEdge_isPrefix (s := s₁.unmark a) here isPrefix₁ (leg.shallow _ after below)
  rw [out]
  exact ⟨restored, noRoute⟩

theorem arrives_succ {s : Search} (isPrefix : s.stack <+: g.callStack lbr i)
    (counted : Counted s) (trail : g.Trail lbr i (g.target a) (a :: s.edge))
    (route : g.Route lbr goal i (g.target a) (a :: s.edge)) :
    FoundOr (fun _ => False) (g.jitPathExists (fuel + 1) (lbr.drop i) a s) := by
  have searched := leg.exploreEdges_route below here next recordSearch plainSearch
    (s := s.mark a) isPrefix (counted.mark a) trail
  rw [leg.jitPathExists_entry below here next counted trail]
  exact searched.backOut fun _ rejected => absurd route rejected.2

end Leg

theorem Leg.search {goal : Nat} (leg : g.Leg lbr m goal) (fuel i : Nat) (after : m ≤ i)
    (below : i < goal) :
    g.PlainSearch lbr goal fuel i ∧ (m < i → g.RecordSearch lbr goal fuel i) := by
  induction fuel generalizing i with
  | zero =>
      constructor
      · intro f s _ _ _ _
        trivial
      · intro _ a s _ _ _ _
        trivial
  | succ fuel ih =>
      have inside := leg.inside
      have here : lbr[i]? = some lbr[i] := List.getElem?_eq_getElem (by omega)
      have next : lbr[i + 1]? = some lbr[i + 1] := List.getElem?_eq_getElem (by omega)
      have recordSearch : i + 1 < goal → g.RecordSearch lbr goal fuel (i + 1) :=
        fun before => (ih (i + 1) (by omega) before).2 (by omega)
      exact ⟨leg.plainSearch_succ below here next recordSearch (ih i after below).1,
        leg.recordSearch_succ below here next recordSearch (ih i after below).1⟩

theorem Leg.arrives_start {goal : Nat} (leg : g.Leg lbr m goal) (before : m < goal) :
    g.Arrives lbr m := by
  intro fuel a s here isPrefix counted trail few
  cases fuel with
  | zero => trivial
  | succ fuel =>
      have inside := leg.inside
      have next : lbr[m + 1]? = some lbr[m + 1] := List.getElem?_eq_getElem (by omega)
      refine leg.arrives_succ before here next
        (fun before => (leg.search fuel (m + 1) (by omega) before).2 (by omega))
        (leg.search fuel m le_rfl before).1 isPrefix counted trail
        (exists_route leg.genuine leg.short inside le_rfl before here fun f ahead => ?_)
      have other : a ≠ f := by
        rintro rfl
        exact ahead.1.2.2 (leg.genuine.recorded a (List.mem_of_getElem? here))
      rw [List.count_cons_of_ne other]
      exact few f ahead

theorem arrives_of_harmless (genuine : g.Genuine lbr) (harmless : g.UnrollsHarmlessly lbr)
    (short : lbr.length ≤ lbrSize) (inside : m + 1 < lbr.length) : g.Arrives lbr m := by
  classical
  -- leg by leg from the end: the next one ends at the first deep pop or at the last entry
  induction left : lbr.length - m using Nat.strongRecOn generalizing m with
  | ind left ih =>
      have exists_goal : ∃ j, m < j ∧ j < lbr.length ∧ (g.PopsDeep lbr j ∨ j + 1 = lbr.length) :=
        ⟨lbr.length - 1, by omega, by omega, .inr (by omega)⟩
      obtain ⟨after, bound, ends⟩ := Nat.find_spec exists_goal
      have leg : g.Leg lbr m (Nat.find exists_goal) :=
        { genuine, harmless, short
          inside := bound
          shallow := fun i later before pops =>
            Nat.find_min exists_goal before ⟨later, by omega, .inl pops⟩
          deep := fun more => ends.resolve_right (by omega)
          arrives := fun more => ih _ (by omega) more rfl }
      exact leg.arrives_start after

/-- Block 0 jumps to 1, 1 calls 3 and 3 calls 5, which ends in one of the two return blocks 6
and 7; both return behind the call in 3, and that block returns behind the call in 1. -/
def twoReturnBlocks : Cfg :=
  ofEdges id [(0x10, 0x14), (0x18, 0x1c), (0x20, 0x24), (0x30, 0x34), (0x38, 0x3c), (0x50, 0x54),
      (0x58, 0x5c), (0x60, 0x64)]
    [(0, 1, .indirectJmp), (1, 3, .directCall), (3, 5, .directCall), (5, 6, .condNotTaken),
      (6, 4, .ret), (5, 7, .condTaken), (7, 4, .ret), (4, 2, .ret)]

def nestedCalls : Cfg :=
  ofEdges id [(0x10, 0x14), (0x18, 0x1c), (0x20, 0x24), (0x30, 0x34), (0x38, 0x3c), (0x50, 0x54)]
    [(0, 1, .indirectJmp), (1, 3, .directCall), (3, 5, .directCall), (5, 4, .ret), (4, 2, .ret)]

end Cfg

end PathArmor.Analyzer

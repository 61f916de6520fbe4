import PathArmor.Analyzer.CallMatching
import PathArmor.Analyzer.JitSound

namespace PathArmor.Analyzer
open PathArmor.Library

namespace Cfg
variable (g : Cfg) (lbr : List EdgeId)

def Pops (m : Nat) : Prop :=
  ∃ r, lbr[m]? = some r ∧ edgeIsReturn (g.edge r) ∧ g.callStack lbr (m - 1) ≠ []

def OneWay (i : Nat) : Prop :=
  ∀ a b p q, lbr[i]? = some a → lbr[i + 1]? = some b →
    g.plain.Walk (g.target a) p (g.source b) → g.plain.Walk (g.target a) q (g.source b) → p = q

/-- The search comes to `lbr[k]` without having unrolled a return that popped: it meets no
unrecorded return to the top of the stack, and a recorded return that pops is reached in one way
only, so nothing is left to try after backing out of it. -/
structure UnrollsNoReturn (k : Nat) : Prop where
  noDeadReturn : ∀ i < k, ∀ r, g.DeadReturn lbr i r →
    (g.callStack lbr i).head? ≠ some (some (g.target r))
  oneWay : ∀ i m, i < m → m < k → g.Pops lbr m → g.OneWay lbr i

def Late (k i : Nat) : Prop := ∀ m, i < m → m < k → ¬ g.Pops lbr m

def Live (b f : EdgeId) : Prop := f = b ∨ g.plain.usable f ∧ g.plain.Reach (g.target f) (g.source b)

def VisitsAtMost (i : Nat) (s : Search) : Prop := ∀ f, g.Recorded f → s.visited f ≤ i

variable {g lbr} {k i : Nat} {a b f : EdgeId} {s : Search}

theorem UnrollsNoReturn.late_or_oneWay (clean : g.UnrollsNoReturn lbr k) (i : Nat) :
    g.Late lbr k i ∨ g.OneWay lbr i := by
  by_cases late : g.Late lbr k i
  · exact .inl late
  · simp only [Late, not_forall, not_not] at late
    obtain ⟨m, after, before, pops⟩ := late
    exact .inr (clean.oneWay i m after before pops)

theorem Live.reach (live : g.Live b f) : g.plain.Reach (g.source f) (g.source b) := by
  rcases live with rfl | ⟨usable, reach⟩
  · exact .refl _
  · exact .head usable reach

theorem OneWay.live_unique (oneWay : g.OneWay lbr i) (here : lbr[i]? = some a)
    (next : lbr[i + 1]? = some b) {block : BlockId} (reach : g.plain.Reach (g.target a) block)
    {f₁ f₂ : EdgeId} (source₁ : g.source f₁ = block) (source₂ : g.source f₂ = block)
    (live₁ : g.Live b f₁) (live₂ : g.Live b f₂) : f₁ = f₂ := by
  obtain ⟨p, walk⟩ := reach
  have route {f : EdgeId} (source : g.source f = block) (live : g.Live b f) :
      f = b ∧ g.plain.Walk (g.target a) p (g.source b) ∨
        ∃ q, g.plain.Walk (g.target a) (p ++ f :: q) (g.source b) := by
    rcases live with rfl | ⟨usable, q, rest⟩
    · exact .inl ⟨rfl, source ▸ walk⟩
    · exact .inr ⟨q, walk.append (source ▸ .cons usable rest)⟩
  rcases route source₁ live₁ with ⟨rfl, walk₁⟩ | ⟨q₁, walk₁⟩
  · rcases route source₂ live₂ with ⟨rfl, walk₂⟩ | ⟨q₂, walk₂⟩
    · rfl
    · simpa using oneWay a _ _ _ here next walk₁ walk₂
  · rcases route source₂ live₂ with ⟨rfl, walk₂⟩ | ⟨q₂, walk₂⟩
    · simpa using oneWay a _ _ _ here next walk₁ walk₂
    · have same := oneWay a _ _ _ here next walk₁ walk₂
      simp only [List.append_cancel_left_eq, List.cons.injEq] at same
      exact same.1

theorem examineEdge_found_live {fuel : Nat} {rest : List EdgeId} (isEdge : g.IsEdge f)
    (found : g.examineEdge (g.jitPathExists fuel) (a :: b :: rest) b f s = .found) :
    g.Live b f := by
  rcases examineEdge_cases (g := g) (g.jitPathExists fuel) (a :: b :: rest) b f s with
    out | ⟨stack, out⟩ | ⟨-, -, same, -, -⟩ | ⟨-, -, same, -, -⟩ | ⟨visible, plainEdge, out⟩
  · simp [out] at found
  · simp [out] at found
  · exact .inl same
  · exact .inl same
  · cases jitPathExists_continues (out ▸ found) with
    | cons reach _ _ _ _ => exact .inr ⟨⟨isEdge, visible, plainEdge⟩, reach⟩

theorem VisitsAtMost.mark (visits : g.VisitsAtMost i s) (e : EdgeId) :
    g.VisitsAtMost (i + 1) (s.mark e) := by
  intro f recorded
  have bound := visits f recorded
  rw [Search.mark_visited]
  rcases eq_or_ne f e with rfl | other
  · rw [Function.update_self]
    omega
  · rw [Function.update_of_ne other]
    omega

theorem VisitsAtMost.mark_plain (visits : g.VisitsAtMost i s) {e : EdgeId}
    (plainEdge : ¬ g.Recorded e) : g.VisitsAtMost i (s.mark e) := by
  intro f recorded
  have other : f ≠ e := by
    rintro rfl
    exact plainEdge recorded
  rw [Search.mark_visited, Function.update_of_ne other]
  exact visits f recorded

/-! ## The search never gets past a mismatched return -/

variable (g lbr k) in
def PlainFails (fuel i : Nat) : Prop :=
  ∀ a b f s, lbr[i]? = some a → lbr[i + 1]? = some b → g.plain.usable f →
    g.plain.Reach (g.target a) (g.source f) → s.stack = g.callStack lbr i →
    g.VisitsAtMost (i + 1) s →
    g.jitPathExists fuel (lbr.drop i) f s ≠ .found ∧
      (g.Late lbr k i ∨ ¬ g.plain.Reach (g.target f) (g.source b) → ∀ s',
        g.jitPathExists fuel (lbr.drop i) f s = .rejected s' → s'.stack = g.callStack lbr i)

variable (g lbr k) in
def RecordFails (fuel i : Nat) : Prop :=
  ∀ a s, lbr[i]? = some a → s.stack = g.callStack lbr i → g.VisitsAtMost i s →
    s.visited a < lbrSize →
    g.jitPathExists fuel (lbr.drop i) a s ≠ .found ∧
      (g.Late lbr k i → ∀ s', g.jitPathExists fuel (lbr.drop i) a s = .rejected s' →
        g.unrollEdge a s = .rejected s')

/-- Level `i` of the search, on the way to an entry `lbr[k]` that the stack of the trace refuses. -/
structure FailingLevel (g : Cfg) (lbr : List EdgeId) (k fuel i : Nat) (a b : EdgeId) : Prop where
  clean : g.UnrollsNoReturn lbr k
  below : i < k
  inside : k < lbr.length
  short : lbr.length ≤ lbrSize
  here : lbr[i]? = some a
  next : lbr[i + 1]? = some b
  refused : i + 1 = k → ¬ g.Allows (g.callStack lbr i) b
  plainFails : g.PlainFails lbr k fuel i
  recordFails : i + 1 < k → g.RecordFails lbr k fuel (i + 1)

namespace FailingLevel
variable {fuel : Nat} (level : g.FailingLevel lbr k fuel i a b)
include level

theorem examineEdge_next_fails (visible : (g.edge b).hidden = false) (recorded : g.Recorded b)
    (stacked : s.stack = g.callStack lbr i) (visits : g.VisitsAtMost (i + 1) s) :
    g.examineEdge (g.jitPathExists fuel) (lbr.drop i) b b s ≠ .found ∧
      (g.Late lbr k i → ∀ s',
        g.examineEdge (g.jitPathExists fuel) (lbr.drop i) b b s = .rejected s' →
        s'.stack = g.callStack lbr i) := by
  by_cases allowed : g.Allows s.stack b
  · have before : i + 1 < k := by
      by_contra last
      have below := level.below
      exact level.refused (by omega) (stacked ▸ allowed)
    have inside := level.inside
    have short := level.short
    have more : ¬ (lbr.drop i).length - 1 < 2 := by
      rw [List.length_drop]
      omega
    rw [examineEdge_next_allowed visible recorded allowed, if_neg more, List.tail_drop]
    have bound := visits b recorded
    obtain ⟨notFound, restores⟩ := level.recordFails before b
      { s with stack := g.callBrackets.step s.stack b } level.next
      (by rw [stacked, callStack_succ level.next]) visits (by simp only; omega)
    refine ⟨notFound, fun late s' rejected => ?_⟩
    have unrolled := restores (fun m after => late m (by omega)) s' rejected
    have notPopped : edgeIsReturn (g.edge b) → s.stack = [] := by
      intro ret
      by_contra nonempty
      exact late (i + 1) (by omega) before ⟨b, level.next, ret, by simpa [← stacked] using nonempty⟩
    rw [unrollEdge_step notPopped, Outcome.rejected.injEq] at unrolled
    rw [← unrolled, stacked]
  · cases examineEdge_refused (g.jitPathExists fuel) (lbr.drop i) b visible recorded allowed with
    | inl out => simp [out.2]
    | inr out => simp [out, stacked]

theorem examineEdge_fails (isEdge : g.IsEdge f)
    (reach : g.plain.Reach (g.target a) (g.source f)) (stacked : s.stack = g.callStack lbr i)
    (visits : g.VisitsAtMost (i + 1) s) :
    g.examineEdge (g.jitPathExists fuel) (lbr.drop i) b f s ≠ .found ∧
      (g.Late lbr k i ∨ ¬ g.Live b f → ∀ s',
        g.examineEdge (g.jitPathExists fuel) (lbr.drop i) b f s = .rejected s' →
        s'.stack = g.callStack lbr i) := by
  by_cases hidden : (g.edge f).hidden
  · rw [examineEdge_hidden hidden]
    simp [stacked]
  rw [Bool.not_eq_true] at hidden
  by_cases recorded : g.Recorded f
  · rcases eq_or_ne f b with rfl | other
    · obtain ⟨notFound, restores⟩ :=
        level.examineEdge_next_fails hidden recorded stacked visits
      exact ⟨notFound, fun lateOrDead => restores (lateOrDead.resolve_right (· (.inl rfl)))⟩
    · have notTop : edgeIsReturn (g.edge f) → s.stack.head? ≠ some (some (g.target f)) := by
        intro ret
        rw [stacked]
        refine level.clean.noDeadReturn i level.below f
          ⟨isEdge, hidden, ret, ?_, a, level.here, reach⟩
        rw [level.next, ne_eq, Option.some.injEq]
        exact other.symm
      rcases examineEdge_dead (g.jitPathExists fuel) (lbr.drop i) hidden recorded other notTop with out | ⟨-, out⟩
      · simp [out, stacked]
      · simp [out]
  · have usable : g.plain.usable f := ⟨isEdge, hidden, recorded⟩
    rw [examineEdge_plain hidden recorded]
    obtain ⟨notFound, restores⟩ :=
      level.plainFails a b f s level.here level.next usable reach stacked visits
    refine ⟨notFound, fun lateOrDead => restores (lateOrDead.imp_right ?_)⟩
    exact fun dead reach => dead (.inr ⟨usable, reach⟩)

theorem exploreEdges_ne_found {block : BlockId} (reach : g.plain.Reach (g.target a) block)
    {edges : List EdgeId} (outgoing : ∀ f ∈ edges, f ∈ g.outgoing block) (nodup : edges.Nodup)
    (visits : g.VisitsAtMost (i + 1) s)
    (kept : s.stack = g.callStack lbr i ∨ ∀ f ∈ edges, ¬ g.Live b f) :
    g.exploreEdges (g.jitPathExists fuel) (lbr.drop i) b edges s ≠ .found := by
  -- while a live edge lies ahead the stack is the one of the trace; after it, none does
  induction edges generalizing s with
  | nil => simp [exploreEdges]
  | cons f rest ih =>
      have member := outgoing f List.mem_cons_self
      have isEdge := isEdge_of_mem member
      have source := source_of_mem member
      have outgoingRest : ∀ f ∈ rest, f ∈ g.outgoing block :=
        fun f member => outgoing f (List.mem_cons_of_mem _ member)
      rw [List.nodup_cons] at nodup
      have notFound : g.examineEdge (g.jitPathExists fuel) (lbr.drop i) b f s ≠ .found := by
        cases kept with
        | inl stacked => exact (level.examineEdge_fails isEdge (by rwa [source]) stacked visits).1
        | inr dead =>
            rw [drop_split level.here level.next]
            exact fun found => dead f List.mem_cons_self (examineEdge_found_live isEdge found)
      rw [exploreEdges]
      cases examined : g.examineEdge (g.jitPathExists fuel) (lbr.drop i) b f s with
      | found => exact absurd examined notFound
      | rejected s₁ =>
          obtain ⟨stack, rfl⟩ :=
            examineEdge_sameVisits (fun _ _ _ _ => jitPathExists_sameVisits) examined
          refine ih outgoingRest nodup.2 visits ?_
          cases kept with
          | inl stacked =>
              by_cases restored : g.Late lbr k i ∨ ¬ g.Live b f
              · exact .inl ((level.examineEdge_fails isEdge (by rwa [source]) stacked visits).2
                  restored _ examined)
              · -- `f` was the one live edge of the block.
                rw [not_or, not_not] at restored
                have oneWay := (level.clean.late_or_oneWay i).resolve_left restored.1
                refine .inr fun f' member' live => nodup.1 ?_
                have source' := source_of_mem (outgoingRest f' member')
                rwa [oneWay.live_unique level.here level.next reach source source' restored.2 live]
          | inr dead => exact .inr fun f member => dead f (List.mem_cons_of_mem _ member)
      | _ => simp

theorem exploreEdges_restores {block : BlockId} (reach : g.plain.Reach (g.target a) block)
    {edges : List EdgeId} (outgoing : ∀ f ∈ edges, f ∈ g.outgoing block)
    (visits : g.VisitsAtMost (i + 1) s) (stacked : s.stack = g.callStack lbr i)
    (lateOrDead : g.Late lbr k i ∨ ¬ g.plain.Reach block (g.source b)) {s' : Search}
    (rejected : g.exploreEdges (g.jitPathExists fuel) (lbr.drop i) b edges s = .rejected s') :
    s'.stack = g.callStack lbr i := by
  induction edges generalizing s with
  | nil =>
      simp only [exploreEdges, Outcome.rejected.injEq] at rejected
      rw [← rejected, stacked]
  | cons f rest ih =>
      have member := outgoing f List.mem_cons_self
      have source := source_of_mem member
      rw [exploreEdges] at rejected
      cases examined : g.examineEdge (g.jitPathExists fuel) (lbr.drop i) b f s with
      | rejected s₁ =>
          rw [examined] at rejected
          have restored := (level.examineEdge_fails (isEdge_of_mem member) (by rwa [source])
            stacked visits).2
            (lateOrDead.imp_right fun dead live => dead (by simpa [source] using live.reach))
            _ examined
          obtain ⟨stack, rfl⟩ :=
            examineEdge_sameVisits (fun _ _ _ _ => jitPathExists_sameVisits) examined
          exact ih (s := { s with stack })
            (fun f member => outgoing f (List.mem_cons_of_mem _ member)) visits restored rejected
      | _ => simp [examined] at rejected

theorem plainFails_succ : g.PlainFails lbr k (fuel + 1) i := by
  intro a' b' f s here' next' usable reach stacked visits
  obtain rfl : a = a' := by simpa [level.here] using here'
  obtain rfl : b = b' := by simpa [level.next] using next'
  have toTarget : g.plain.Reach (g.target a) (g.target f) := reach.trans (.edge usable)
  have visits' : g.VisitsAtMost (i + 1) (s.mark f) := visits.mark_plain usable.2.2
  have notFound := level.exploreEdges_ne_found toTarget (fun _ member => member)
    (g.outgoing_nodup _) visits' (.inl stacked)
  have split := drop_split level.here level.next
  rw [split] at notFound ⊢
  rw [jitPathExists]
  split_ifs with limit
  · simp [stacked]
  · refine ⟨mt backOut_eq_found.mp notFound, fun lateOrDead s' rejected => ?_⟩
    obtain ⟨s₁, explored, unrolled⟩ := backOut_eq_rejected.mp rejected
    rw [unrollEdge_not_recorded usable.2.2, Outcome.rejected.injEq] at unrolled
    rw [← unrolled, Search.unmark_stack]
    exact level.exploreEdges_restores toTarget (fun _ member => member) visits' stacked
      lateOrDead (split ▸ explored)

theorem recordFails_succ : g.RecordFails lbr k (fuel + 1) i := by
  intro a' s here' stacked visits unvisited
  obtain rfl : a = a' := by simpa [level.here] using here'
  have visits' := visits.mark a
  have notFound := level.exploreEdges_ne_found (.refl _) (fun _ member => member)
    (g.outgoing_nodup _) visits' (.inl stacked)
  have split := drop_split level.here level.next
  rw [split] at notFound ⊢
  rw [jitPathExists, if_neg (by omega)]
  refine ⟨mt backOut_eq_found.mp notFound, fun late s' rejected => ?_⟩
  obtain ⟨s₁, explored, unrolled⟩ := backOut_eq_rejected.mp rejected
  have restored := level.exploreEdges_restores (.refl _) (fun _ member => member) visits' stacked
    (.inl late) (split ▸ explored)
  obtain ⟨stack, rfl⟩ := exploreEdges_sameVisits (fun _ _ _ _ => jitPathExists_sameVisits) explored
  have same : stack = s.stack := restored.trans stacked.symm
  rwa [Search.unmark_mark, same] at unrolled

end FailingLevel

theorem recordFails_of_refused (clean : g.UnrollsNoReturn lbr (k + 1))
    (short : lbr.length ≤ lbrSize) {r : EdgeId} (atK : lbr[k + 1]? = some r)
    (refused : ¬ g.Allows (g.callStack lbr k) r) (fuel i : Nat) (below : i < k + 1) :
    g.PlainFails lbr (k + 1) fuel i ∧ g.RecordFails lbr (k + 1) fuel i := by
  induction fuel generalizing i with
  | zero =>
      constructor
      · intro a b f s _ _ _ _ _ _
        simp [jitPathExists]
      · intro a s _ _ _ _
        simp [jitPathExists]
  | succ fuel ih =>
      obtain ⟨inside, -⟩ := List.getElem?_eq_some_iff.mp atK
      have here : lbr[i]? = some lbr[i] := List.getElem?_eq_getElem (by omega)
      have next : lbr[i + 1]? = some lbr[i + 1] := List.getElem?_eq_getElem (by omega)
      have level : g.FailingLevel lbr (k + 1) fuel i lbr[i] lbr[i + 1] :=
        { clean, below, inside, short, here, next
          refused := by
            intro last
            obtain rfl : i = k := by omega
            rw [next, Option.some.injEq] at atK
            rwa [atK]
          plainFails := (ih i below).1
          recordFails := fun before => (ih (i + 1) before).2 }
      exact ⟨level.plainFails_succ, level.recordFails_succ⟩

/-- Block 0 jumps to 1, 1 calls 3, and 3 has two return edges: 2 to the block behind the call and
3 to a block elsewhere. -/
def twoReturns : Cfg :=
  ofEdges id [(0x10, 0x14), (0x18, 0x1c), (0x20, 0x24), (0x28, 0x2c), (0x40, 0x44)]
    [(0, 1, .indirectJmp), (1, 3, .indirectCall), (3, 2, .ret), (3, 4, .ret)]

end Cfg

end PathArmor.Analyzer

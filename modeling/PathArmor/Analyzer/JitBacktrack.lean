import PathArmor.Analyzer.JitMoments

/-!
# What backtracking gives back

The visit counts and the path are always restored when an edge turns out wrong. The call stack is
not: unrolling a return does not push what the return has popped. It can only get shorter, so it is
restored if and only if nothing on the way was popped too early.
-/

namespace PathArmor.Analyzer
open PathArmor.Library

theorem Search.SameVisits.eq_of_stack {s s' : Search} (same : s.SameVisits s')
    (stack : s'.stack = s.stack) : s' = s := by
  obtain ⟨_, rfl⟩ := same
  obtain rfl : _ = s.stack := stack
  rfl

theorem Search.start_mark_visited_le (stack : List (Option BlockId)) (e x : EdgeId) :
    ((Search.start stack).mark e).visited x ≤ 1 := by
  rw [Search.mark_visited, Function.update_apply]
  split_ifs <;> simp [Search.start]

namespace Cfg
variable (g : Cfg)

/-- A return to the innermost entry of the call stack. -/
structure PopsTop (f : EdgeId) (s : Search) : Prop where
  visible : (g.edge f).hidden = false
  ret : edgeIsReturn (g.edge f)
  top : s.stack.head? = some (some (g.target f))

/-- From `f`, examined in the state `s`, the search gets to such a return. -/
inductive MeetsPop : List EdgeId → EdgeId → Search → Prop
  | here {lbr : List EdgeId} {f : EdgeId} {s : Search} (pops : g.PopsTop f s) : MeetsPop lbr f s
  | further {a b f next : EdgeId} {rest lbr : List EdgeId} {s s' : Search}
      (descends : g.Descends (a :: b :: rest) b f s lbr s') (below : s'.visited f < lbrSize)
      (outgoing : next ∈ g.outgoing (g.target f)) (met : MeetsPop lbr next (s'.mark f)) :
      MeetsPop (a :: b :: rest) f s

/-- What is left of the stack once the entry of `e` is taken away. -/
def unstacked (e : EdgeId) (stack : List (Option BlockId)) : List (Option BlockId) :=
  if edgeIsCall (g.edge e) then stack.tail else stack

/-- No recorded edge reaches the limit of visits before the list is used up. -/
def Roomy (lbr : List EdgeId) (s : Search) : Prop :=
  ∀ f, g.Recorded f → s.visited f + lbr.length ≤ lbrSize + 1

variable {g} {recur : List EdgeId → EdgeId → Search → Outcome}
  {lbr lbr' whole edges rest : List EdgeId} {a b lbrDst e f : EdgeId} {s s' : Search}
  {budget depth fuel : Nat}

theorem unstacked_isSuffix (e : EdgeId) (stack : List (Option BlockId)) :
    g.unstacked e stack <:+ stack := by
  unfold unstacked
  split_ifs
  · exact List.tail_suffix stack
  · exact List.suffix_refl stack

theorem unstacked_mono {stack stack' : List (Option BlockId)} (isSuffix : stack <:+ stack')
    (e : EdgeId) : g.unstacked e stack <:+ g.unstacked e stack' := by
  unfold unstacked
  split_ifs
  · obtain ⟨front, rfl⟩ := isSuffix
    cases front with
    | nil => exact List.suffix_refl _
    | cons x front => exact (List.tail_suffix stack).trans (List.suffix_append front stack)
  · exact isSuffix

/-! ## The stack only gets shorter -/

theorem unrollEdge_isSuffix (rejected : g.unrollEdge f s = .rejected s') :
    s'.stack <:+ g.unstacked f s.stack := by
  by_cases call : edgeIsCall (g.edge f)
  · rw [unrollEdge_call call, Outcome.rejected.injEq] at rejected
    rw [← rejected, unstacked, if_pos call]
  rw [unstacked, if_neg call]
  rw [Bool.not_eq_true] at call
  by_cases ret : edgeIsReturn (g.edge f)
  · unfold unrollEdge at rejected
    rw [jitTrackCallstack_return ret] at rejected
    rcases s with ⟨_ | ⟨_ | bb, stack⟩, edge, visited⟩
    · simp only [Outcome.rejected.injEq] at rejected
      rw [← rejected]
    · simp at rejected
    · by_cases target : g.target f = bb
      · simp only [target, if_true, Outcome.rejected.injEq] at rejected
        rw [← rejected]
        exact List.suffix_cons _ stack
      · simp only [target, if_false, Outcome.rejected.injEq] at rejected
        rw [← rejected]
  · rw [Bool.not_eq_true] at ret
    rw [unrollEdge_neutral call ret, Outcome.rejected.injEq] at rejected
    rw [rejected]

theorem Descends.unstacked_isSuffix (descends : g.Descends lbr lbrDst f s lbr' s') :
    g.unstacked f s'.stack <:+ s.stack := by
  cases descends with
  | plain visible plainEdge => exact Cfg.unstacked_isSuffix f s.stack
  | record visible recorded next more tracked =>
      obtain ⟨-, rfl⟩ := allows_of_tracked tracked
      by_cases call : edgeIsCall (g.edge f)
      · rw [unstacked, if_pos call, Brackets.step_opens call]
        exact List.suffix_refl _
      rw [unstacked, if_neg call]
      rw [Bool.not_eq_true] at call
      by_cases ret : edgeIsReturn (g.edge f)
      · rw [Brackets.step_closes call ret]
        exact List.tail_suffix _
      · rw [Bool.not_eq_true] at ret
        rw [Brackets.step_neutral call ret]

theorem PopsTop.stack_eq (pops : g.PopsTop f s) : s.stack = some (g.target f) :: s.stack.tail := by
  obtain ⟨stack, stacked⟩ := List.head?_eq_some_iff.mp pops.top
  rw [stacked, List.tail_cons]

theorem PopsTop.tracked (pops : g.PopsTop f s) :
    g.jitTrackCallstack f false false s.stack = some (0 + 1, s.stack.tail) := by
  rw [jitTrackCallstack_return pops.ret, pops.stack_eq]
  simp

theorem Descends.stack_of_pops (descends : g.Descends lbr lbrDst f s lbr' s') (pops : g.PopsTop f s) :
    s'.stack = s.stack.tail := by
  cases descends with
  | plain visible plainEdge => exact absurd (edgeIsReturn_functionExit pops.ret) plainEdge
  | record visible recorded next more tracked =>
      rw [pops.tracked] at tracked
      cases tracked
      rfl

/-- What a round does with an edge that is not taken. -/
theorem examineEdge_rejected (rejected : g.examineEdge recur lbr lbrDst f s = .rejected s') :
    s' = s ∧ ¬ g.PopsTop f s ∨
    (∃ lbr' s₁, g.Descends lbr lbrDst f s lbr' s₁ ∧ recur lbr' f s₁ = .rejected s') ∨
    g.PopsTop f s ∧ s'.stack <:+ s.stack.tail := by
  by_cases hidden : (g.edge f).hidden
  · rw [examineEdge_hidden hidden, Outcome.rejected.injEq] at rejected
    exact .inl ⟨rejected.symm, fun pops => by simp [pops.visible] at hidden⟩
  rw [Bool.not_eq_true] at hidden
  by_cases recorded : g.Recorded f
  · by_cases pops : g.PopsTop f s
    · by_cases descends : f = lbrDst ∧ ¬ lbr.length - 1 < 2
      · have into := Descends.record hidden recorded descends.1 descends.2 pops.tracked
        rw [into.examineEdge] at rejected
        exact .inr (.inl ⟨_, _, into, rejected⟩)
      · rw [examineEdge_recorded hidden recorded, pops.tracked] at rejected
        simp only at rejected
        split_ifs at rejected with next last
        · exact absurd ⟨next, last⟩ descends
        · have isSuffix := unrollEdge_isSuffix rejected
          exact .inr (.inr ⟨pops, isSuffix.trans (unstacked_isSuffix f s.stack.tail)⟩)
    · by_cases next : f = lbrDst
      · by_cases allowed : g.Allows s.stack f
        · obtain ⟨code, tracked⟩ := jitTrackCallstack_allowed allowed
          by_cases last : lbr.length - 1 < 2
          · rw [examineEdge_recorded hidden recorded, tracked] at rejected
            simp [next, last] at rejected
          · have into := Descends.record hidden recorded next last tracked
            rw [into.examineEdge] at rejected
            exact .inr (.inl ⟨_, _, into, rejected⟩)
        · rcases examineEdge_refused recur lbr lbrDst hidden recorded allowed with
            ⟨-, out⟩ | out
          · simp [out] at rejected
          · rw [out, Outcome.rejected.injEq] at rejected
            exact .inl ⟨rejected.symm, pops⟩
      · have notTop := fun ret top => pops ⟨hidden, ret, top⟩
        rcases examineEdge_dead recur lbr hidden recorded next notTop with out | ⟨-, out⟩
        · rw [out, Outcome.rejected.injEq] at rejected
          exact .inl ⟨rejected.symm, pops⟩
        · simp [out] at rejected
  · have into : g.Descends lbr lbrDst f s lbr s := .plain hidden recorded
    rw [into.examineEdge] at rejected
    exact .inr (.inl ⟨_, _, into, rejected⟩)

theorem Roomy.of_sameVisits (roomy : g.Roomy lbr s) (same : s.SameVisits s') : g.Roomy lbr s' := by
  obtain ⟨stack, rfl⟩ := same
  exact roomy

theorem Roomy.descend (roomy : g.Roomy lbr s) (descends : g.Descends lbr lbrDst f s lbr' s') :
    (g.Recorded f → s'.visited f < lbrSize) ∧ g.Roomy lbr' (s'.mark f) := by
  cases descends with
  | plain visible plainEdge =>
      refine ⟨fun recorded => absurd recorded plainEdge, fun x recorded => ?_⟩
      have other : x ≠ f := by
        rintro rfl
        exact plainEdge recorded
      rw [Search.mark_visited, Function.update_of_ne other]
      exact roomy x recorded
  | record visible recorded next more tracked =>
      have room := roomy f recorded
      refine ⟨fun _ => ?_, fun x recorded' => ?_⟩
      · change s.visited f < lbrSize
        omega
      · rw [Search.mark_visited, List.length_tail]
        rcases eq_or_ne x f with rfl | other
        · rw [Function.update_self]
          change s.visited x + 1 + (lbr.length - 1) ≤ lbrSize + 1
          omega
        · rw [Function.update_of_ne other]
          change s.visited x + (lbr.length - 1) ≤ lbrSize + 1
          have room' := roomy x recorded'
          omega

theorem exploreEdges_rule {I : Search → Prop} (start : I s)
    (round : ∀ f ∈ edges, ∀ s₁ s₂, I s₁ → g.examineEdge recur lbr lbrDst f s₁ = .rejected s₂ → I s₂)
    (rejected : g.exploreEdges recur lbr lbrDst edges s = .rejected s') : I s' := by
  induction edges generalizing s with
  | nil =>
      simp only [exploreEdges, Outcome.rejected.injEq] at rejected
      exact rejected ▸ start
  | cons f edges ih =>
      rw [exploreEdges] at rejected
      cases examined : g.examineEdge recur lbr lbrDst f s with
      | rejected s₁ =>
          rw [examined] at rejected
          apply ih (round f List.mem_cons_self s s₁ start examined) _ rejected
          intro f' member
          exact round f' (List.mem_cons_of_mem _ member)
      | _ => simp [examined] at rejected

theorem jitPathExists_rejected (rejected : g.jitPathExists (fuel + 1) lbr e s = .rejected s') :
    lbrSize ≤ s.visited e ∧ s' = s ∨
      s.visited e < lbrSize ∧ ∃ a b rest s₁, lbr = a :: b :: rest ∧
        g.exploreEdges (g.jitPathExists fuel) lbr b (g.outgoing (g.target e)) (s.mark e) =
          .rejected s₁ ∧
        g.unrollEdge e (s₁.unmark e) = .rejected s' := by
  match lbr with
  | [] | [_] => simp [jitPathExists] at rejected
  | a :: b :: rest =>
      rw [jitPathExists] at rejected
      split_ifs at rejected with limit
      · rw [Outcome.rejected.injEq] at rejected
        exact .inl ⟨limit, rejected.symm⟩
      · obtain ⟨s₁, explored, unrolled⟩ := backOut_eq_rejected.mp rejected
        exact .inr ⟨not_le.mp limit, a, b, rest, s₁, rfl, explored, unrolled⟩

section
variable (shortens : ∀ lbr lbrDst f s s', g.Roomy lbr s →
  g.examineEdge (g.jitPathExists fuel) lbr lbrDst f s = .rejected s' → s'.stack <:+ s.stack)
include shortens

theorem exploreEdges_isSuffix (roomy : g.Roomy lbr s)
    (rejected : g.exploreEdges (g.jitPathExists fuel) lbr lbrDst edges s = .rejected s') :
    s'.stack <:+ s.stack := by
  refine (exploreEdges_rule (I := fun s₁ => s.SameVisits s₁ ∧ s₁.stack <:+ s.stack)
    ⟨.refl s, List.suffix_refl _⟩ ?_ rejected).2
  rintro f - s₁ s₂ ⟨same, shorter⟩ examined
  have same' := examineEdge_sameVisits (fun _ _ _ _ => jitPathExists_sameVisits) examined
  have shorter' := shortens _ _ _ _ _ (roomy.of_sameVisits same) examined
  exact ⟨same.trans same', shorter'.trans shorter⟩

/-- Every edge of the loop was examined, in a state with no more on the stack than before the loop,
and no less than afterwards. -/
theorem exploreEdges_examined (roomy : g.Roomy lbr s)
    (rejected : g.exploreEdges (g.jitPathExists fuel) lbr lbrDst edges s = .rejected s')
    (member : f ∈ edges) :
    ∃ t t', g.examineEdge (g.jitPathExists fuel) lbr lbrDst f t = .rejected t' ∧ s.SameVisits t ∧
      t.stack <:+ s.stack ∧ t'.stack <:+ t.stack ∧ s'.stack <:+ t'.stack := by
  induction edges generalizing s with
  | nil => cases member
  | cons f' edges ih =>
      rw [exploreEdges] at rejected
      cases examined : g.examineEdge (g.jitPathExists fuel) lbr lbrDst f' s with
      | rejected s₁ =>
          rw [examined] at rejected
          have same := examineEdge_sameVisits (fun _ _ _ _ => jitPathExists_sameVisits) examined
          have shorter := shortens _ _ _ _ _ roomy examined
          have roomy' := roomy.of_sameVisits same
          rcases List.mem_cons.mp member with rfl | later
          · exact ⟨s, s₁, examined, .refl s, List.suffix_refl _, shorter,
              exploreEdges_isSuffix shortens roomy' rejected⟩
          · obtain ⟨t, t', examined', same', shorter₁, shorter₂, shorter₃⟩ := ih roomy' rejected later
            exact ⟨t, t', examined', same.trans same', shorter₁.trans shorter, shorter₂, shorter₃⟩
      | _ => simp [examined] at rejected

theorem Descends.isSuffix_of (descends : g.Descends lbr lbrDst f s lbr' s') (roomy : g.Roomy lbr s)
    {t : Search} (out : g.jitPathExists (fuel + 1) lbr' f s' = .rejected t) :
    t.stack <:+ g.unstacked f s'.stack := by
  obtain ⟨room, roomy'⟩ := roomy.descend descends
  rcases jitPathExists_rejected out with ⟨limit, rfl⟩ | ⟨-, a, b, rest, s₂, rfl, explored, unrolled⟩
  · have notCall : ¬ edgeIsCall (g.edge f) := by
      intro call
      exact limit.not_gt (room (edgeIsCall_functionExit call))
    rw [unstacked, if_neg notCall]
  · have shorter := exploreEdges_isSuffix shortens roomy' explored
    exact (unrollEdge_isSuffix unrolled).trans (unstacked_mono shorter f)

end

theorem examineEdge_isSuffix (roomy : g.Roomy lbr s)
    (rejected : g.examineEdge (g.jitPathExists fuel) lbr lbrDst f s = .rejected s') :
    s'.stack <:+ s.stack := by
  induction fuel generalizing lbr lbrDst f s s' with
  | zero =>
      rcases examineEdge_rejected rejected with ⟨rfl, -⟩ | ⟨lbr', s₁, -, out⟩ | ⟨-, isSuffix⟩
      · exact List.suffix_refl _
      · simp [jitPathExists] at out
      · exact isSuffix.trans (List.tail_suffix _)
  | succ fuel ih =>
      rcases examineEdge_rejected rejected with ⟨rfl, -⟩ | ⟨lbr', s₁, descends, out⟩ | ⟨-, isSuffix⟩
      · exact List.suffix_refl _
      · exact (descends.isSuffix_of (fun _ _ _ _ _ => ih) roomy out).trans
          descends.unstacked_isSuffix
      · exact isSuffix.trans (List.tail_suffix _)

theorem Descends.isSuffix (descends : g.Descends lbr lbrDst f s lbr' s') (roomy : g.Roomy lbr s)
    {t : Search} (out : g.jitPathExists fuel lbr' f s' = .rejected t) :
    t.stack <:+ g.unstacked f s'.stack := by
  cases fuel with
  | zero => simp [jitPathExists] at out
  | succ fuel => exact descends.isSuffix_of (fun _ _ _ _ _ => examineEdge_isSuffix) roomy out

/-! ## When it is restored -/

theorem Descends.unroll (descends : g.Descends lbr lbrDst f s lbr' s')
    (notPops : ¬ g.PopsTop f s) {t : Search}
    (kept : t.stack = s'.stack) : g.unrollEdge f t = .rejected { t with stack := s.stack } := by
  cases descends with
  | plain visible plainEdge =>
      rw [unrollEdge_not_recorded plainEdge, ← kept]
  | record visible recorded next more tracked =>
      obtain ⟨allowed, rfl⟩ := allows_of_tracked tracked
      have noCall : edgeIsReturn (g.edge f) → s.stack = [] := by
        intro ret
        cases stacked : s.stack with
        | nil => rfl
        | cons top rest =>
            have head : s.stack.head? = some top := by rw [stacked]; rfl
            exact absurd ⟨visible, ret, by rw [head, allowed ret top head]⟩ notPops
      obtain ⟨stack, edge, visited⟩ := t
      obtain rfl : stack = g.callBrackets.step s.stack f := kept
      exact unrollEdge_step (s := { stack := s.stack, edge, visited }) noCall

theorem examineEdge_restores (roomy : g.Roomy (a :: b :: rest) s)
    (noPop : ¬ g.MeetsPop (a :: b :: rest) f s)
    (rejected : g.examineEdge (g.jitPathExists fuel) (a :: b :: rest) b f s = .rejected s') :
    s' = s := by
  induction fuel generalizing a b rest f s s' with
  | zero =>
      rcases examineEdge_rejected rejected with ⟨same, -⟩ | ⟨lbr', s₁, -, out⟩ | ⟨pops, -⟩
      · exact same
      · simp [jitPathExists] at out
      · exact absurd (.here pops) noPop
  | succ fuel ih =>
      rcases examineEdge_rejected rejected with ⟨same, -⟩ | ⟨lbr', s₁, descends, out⟩ | ⟨pops, -⟩
      · exact same
      · obtain ⟨room, roomy'⟩ := roomy.descend descends
        rcases jitPathExists_rejected out with ⟨limit, rfl⟩ |
          ⟨below, a', b', rest', s₂, rfl, explored, unrolled⟩
        · cases descends with
          | plain => rfl
          | record visible recorded => exact absurd (room recorded) limit.not_gt
        · have kept : s₂ = s₁.mark f := by
            refine exploreEdges_rule (I := fun t => t = s₁.mark f) rfl ?_ explored
            rintro f' member t t' rfl examined
            exact ih roomy' (fun met => noPop (.further descends below member met)) examined
          have restored : (s₂.unmark f).stack = s₁.stack := by
            rw [kept]
            rfl
          have unroll := descends.unroll (fun pops => noPop (.here pops)) restored
          rw [unroll, Outcome.rejected.injEq] at unrolled
          have same := descends.sameVisits.trans (jitPathExists_sameVisits out)
          exact same.eq_of_stack (by rw [← unrolled])
      · exact absurd (.here pops) noPop

theorem eq_of_unstacked_le {stack stack' : List (Option BlockId)} (shorter : stack <:+ stack')
    (nonempty : 0 < (g.unstacked f stack').length)
    (long : (g.unstacked f stack').length ≤ (g.unstacked f stack).length) : stack = stack' := by
  apply shorter.eq_of_length_le
  unfold unstacked at nonempty long
  split_ifs at nonempty long
  · rw [List.length_tail] at nonempty long
    rw [List.length_tail] at long
    omega
  · exact long

theorem examineEdge_loses (roomy : g.Roomy lbr s) (met : g.MeetsPop lbr f s)
    (next : lbr[1]? = some lbrDst) (nonempty : s.stack ≠ [])
    (rejected : g.examineEdge (g.jitPathExists fuel) lbr lbrDst f s = .rejected s') :
    s'.stack.length < s.stack.length := by
  induction met generalizing fuel lbrDst s' with
  | @here lbr f s pops =>
      have popped : s.stack.tail.length < s.stack.length := by
        rw [List.length_tail]
        exact Nat.sub_lt (List.length_pos_iff.mpr nonempty) one_pos
      rcases examineEdge_rejected rejected with ⟨-, notPops⟩ | ⟨lbr', s₁, descends, out⟩ | ⟨-, isSuffix⟩
      · exact absurd pops notPops
      · have isSuffix := (descends.isSuffix roomy out).trans (unstacked_isSuffix f s₁.stack)
        rw [descends.stack_of_pops pops] at isSuffix
        exact isSuffix.length_le.trans_lt popped
      · exact isSuffix.length_le.trans_lt popped
  | @further a b f x rest lbr s s₁ descends below outgoing met ih =>
      obtain rfl : b = lbrDst := by simpa using next
      rw [descends.examineEdge] at rejected
      have roomy' := (roomy.descend descends).2
      have before := descends.unstacked_isSuffix.length_le
      cases fuel with
      | zero => simp [jitPathExists] at rejected
      | succ fuel =>
          rcases jitPathExists_rejected rejected with ⟨limit, -⟩ |
            ⟨-, a', b', rest', s₂, rfl, explored, unrolled⟩
          · exact absurd below limit.not_gt
          · by_contra notLess
            have some : 0 < s.stack.length := List.length_pos_iff.mpr nonempty
            have after := (unrollEdge_isSuffix unrolled).length_le
            obtain ⟨t, t', examined, same, shorter₁, shorter₂, shorter₃⟩ :=
              exploreEdges_examined (fun _ _ _ _ _ => examineEdge_isSuffix) roomy' explored outgoing
            have shorter : s₂.stack <:+ s₁.stack := shorter₃.trans (shorter₂.trans shorter₁)
            have kept : s₂.stack = s₁.stack := by
              have mono := (unstacked_mono (g := g) shorter f).length_le
              rw [Search.unmark_stack] at after
              exact eq_of_unstacked_le (f := f) (g := g) shorter (by omega) (by omega)
            have whole : t.stack = (s₁.mark f).stack := by
              apply shorter₁.eq_of_length_le
              rw [Search.mark_stack, ← kept]
              exact (shorter₃.trans shorter₂).length_le
            obtain rfl := same.eq_of_stack whole
            have nonempty' : (s₁.mark f).stack ≠ [] := by
              rw [← List.length_pos_iff, Search.mark_stack, ← kept]
              have fewer := (unstacked_isSuffix (g := g) f s₂.stack).length_le
              rw [Search.unmark_stack] at after
              omega
            have less := ih roomy' rfl nonempty' examined
            have enough := shorter₃.length_le
            rw [kept] at enough
            exact absurd enough (not_le.mpr less)

theorem Moment.roomy (short : whole.length ≤ lbrSize)
    (moment : g.Moment budget whole e depth lbr edges s) : g.Roomy lbr s := by
  induction moment with
  | start list fueled =>
      intro x recorded
      have once := Search.start_mark_visited_le [] e x
      omega
  | next moment examined ih =>
      exact ih.of_sameVisits
        (examineEdge_sameVisits (fun _ _ _ _ => jitPathExists_sameVisits) examined)
  | enter moment descends fueled below ih => exact (ih.descend descends).2

/-- After a failed attempt the search state is what it was before, unless the attempt came to a
return to the innermost call while one was pending. -/
theorem examineEdge_restores_iff (short : whole.length ≤ lbrSize)
    (moment : g.Moment budget whole e depth (a :: b :: rest) (f :: edges) s)
    (rejected : g.examineEdge (g.jitPathExists (budget - depth)) (a :: b :: rest) b f s =
      .rejected s') :
    (s'.stack = s.stack ∧ s'.edge = s.edge ∧ s'.visited = s.visited) ↔
      s.stack = [] ∨ ¬ g.MeetsPop (a :: b :: rest) f s := by
  have roomy := moment.roomy short
  have same := examineEdge_sameVisits (fun _ _ _ _ => jitPathExists_sameVisits) rejected
  constructor
  · rintro ⟨kept, -⟩
    by_contra disturbed
    rw [not_or, not_not] at disturbed
    have less := examineEdge_loses roomy disturbed.2 rfl disturbed.1 rejected
    exact less.ne (congrArg List.length kept)
  · intro undisturbed
    have kept : s' = s := by
      rcases undisturbed with empty | noPop
      · apply same.eq_of_stack
        have shorter := examineEdge_isSuffix roomy rejected
        rw [empty] at shorter ⊢
        exact List.suffix_nil.mp shorter
      · exact examineEdge_restores roomy noPop rejected
    rw [kept]
    exact ⟨rfl, rfl, rfl⟩

theorem twoReturnBlocks_call : ∃ s s',
    twoReturnBlocks.Moment 10 [0, 1, 2, 6, 7] 0 1 [0, 1, 2, 6, 7] [1] s ∧
      twoReturnBlocks.examineEdge (twoReturnBlocks.jitPathExists 9) [0, 1, 2, 6, 7] 1 1 s =
        .rejected s' ∧ s'.stack = s.stack := by
  have moment : twoReturnBlocks.Moment 10 [0, 1, 2, 6, 7] 0 1 [0, 1, 2, 6, 7] [1]
      ((Search.start []).mark 0) := .start rfl (by decide)
  obtain ⟨s', rejected⟩ : ∃ s', twoReturnBlocks.examineEdge (twoReturnBlocks.jitPathExists 9)
      [0, 1, 2, 6, 7] 1 1 ((Search.start []).mark 0) = .rejected s' := ⟨_, rfl⟩
  exact ⟨_, s', moment, rejected, ((examineEdge_restores_iff (by decide) moment rejected).mpr
    (.inl rfl)).1⟩

/-- With two calls pending, the way to the first return block costs an entry. -/
theorem twoReturnBlocks_not_restored : ∃ s s',
    twoReturnBlocks.Moment 10 [0, 1, 2, 6, 7] 0 3 [2, 6, 7] [3, 5] s ∧
      twoReturnBlocks.examineEdge (twoReturnBlocks.jitPathExists 7) [2, 6, 7] 6 3 s =
        .rejected s' ∧ s.stack = [some 4, some 2] ∧ s'.stack = [some 2] := by
  have first : twoReturnBlocks.Moment 10 [0, 1, 2, 6, 7] 0 1 [0, 1, 2, 6, 7] [1]
      ((Search.start []).mark 0) := .start rfl (by decide)
  have second := first.enter (.record rfl (by decide) rfl (by decide) rfl) (by decide) (by decide)
  have third := second.enter (.record rfl (by decide) rfl (by decide) rfl) (by decide) (by decide)
  exact ⟨_, _, third, rfl, rfl, rfl⟩

end Cfg

end PathArmor.Analyzer

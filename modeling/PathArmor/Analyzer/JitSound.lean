import PathArmor.Analyzer.JitSearch

namespace PathArmor.Analyzer
open PathArmor.Library

namespace Cfg
variable (g : Cfg)

def visible : Digraph BlockId EdgeId where
  source := g.source
  target := g.target
  usable f := g.IsEdge f ∧ (g.edge f).hidden = false

/-- The processor records `b`, and nothing between `a` and `b`. -/
structure Connects (a b : EdgeId) : Prop where
  reach : g.plain.Reach (g.target a) (g.source b)
  isEdge : g.IsEdge b
  visible : (g.edge b).hidden = false
  recorded : g.Recorded b

inductive Continues : BlockId → List EdgeId → Prop
  | nil (start : BlockId) : Continues start []
  | cons {start : BlockId} {b : EdgeId} {branches : List EdgeId}
      (reach : g.plain.Reach start (g.source b)) (isEdge : g.IsEdge b)
      (visible : (g.edge b).hidden = false) (recorded : g.Recorded b)
      (rest : Continues (g.target b) branches) : Continues start (b :: branches)

variable {g}

theorem Continues.head {f : EdgeId} {branches : List EdgeId} (usable : g.plain.usable f)
    (continues : g.Continues (g.target f) branches) : g.Continues (g.source f) branches := by
  cases continues with
  | nil => exact .nil _
  | cons reach isEdge visible recorded rest =>
      exact .cons (.head usable reach) isEdge visible recorded rest

theorem Continues.connects {e : EdgeId} {branches : List EdgeId}
    (continues : g.Continues (g.target e) branches) {i : Nat} {a b : EdgeId}
    (first : (e :: branches)[i]? = some a) (second : (e :: branches)[i + 1]? = some b) :
    g.Connects a b := by
  induction branches generalizing e i with
  | nil => simp at second
  | cons c branches ih =>
      cases continues with
      | cons reach isEdge visible recorded rest =>
          cases i with
          | zero =>
              simp only [List.getElem?_cons_zero, Option.some.injEq] at first
              simp only [zero_add, List.getElem?_cons_succ, List.getElem?_cons_zero,
                Option.some.injEq] at second
              subst first second
              exact ⟨reach, isEdge, visible, recorded⟩
          | succ i => exact ih rest first second

theorem plain_walk_visible {a b : BlockId} {p : List EdgeId} (walk : g.plain.Walk a p b) :
    g.visible.Walk a p b ∧ p.filter (fun f => edgeIsFunctionExit (g.edge f)) = [] := by
  induction walk with
  | nil a => exact ⟨.nil a, rfl⟩
  | cons usable rest ih =>
      have plainEdge := usable.2.2
      exact ⟨.cons ⟨usable.1, usable.2.1⟩ ih.1, by simpa [List.filter_cons, plainEdge] using ih.2⟩

theorem Continues.exists_walk {start : BlockId} {branches : List EdgeId}
    (continues : g.Continues start branches) :
    ∃ path final, g.visible.Walk start path final ∧
      path.filter (fun f => edgeIsFunctionExit (g.edge f)) = branches := by
  induction continues with
  | nil start => exact ⟨[], start, .nil start, rfl⟩
  | @cons start b branches reach isEdge visible recorded rest ih =>
      obtain ⟨segment, walk⟩ := reach
      obtain ⟨path, final, tail, filtered⟩ := ih
      obtain ⟨visibleWalk, unrecorded⟩ := plain_walk_visible walk
      refine ⟨segment ++ b :: path, final, visibleWalk.append (.cons ⟨isEdge, visible⟩ tail), ?_⟩
      simpa [List.filter_append, List.filter_cons, unrecorded, recorded] using filtered

section
variable {recur : List EdgeId → EdgeId → Search → Outcome}
  (recurSound : ∀ a lbr e s, recur (a :: lbr) e s = .found → g.Continues (g.target e) lbr)
include recurSound

theorem examineEdge_sound {a b f : EdgeId} {lbr : List EdgeId} {s : Search} (isEdge : g.IsEdge f)
    (found : g.examineEdge recur (a :: b :: lbr) b f s = .found) :
    g.Continues (g.source f) (b :: lbr) := by
  rcases examineEdge_cases (g := g) recur (a :: b :: lbr) b f s with
    out | ⟨stack, out⟩ | ⟨visible, recorded, rfl, last, -⟩ |
    ⟨visible, recorded, rfl, -, stack, out⟩ | ⟨visible, plainEdge, out⟩
  · simp [out] at found
  · simp [out] at found
  · have single : lbr = [] := by
      rw [← List.length_eq_zero_iff]
      simp only [List.length_cons, add_tsub_cancel_right] at last
      omega
    exact single ▸ .cons (.refl _) isEdge visible recorded (.nil _)
  · rw [out] at found
    exact .cons (.refl _) isEdge visible recorded (recurSound _ _ _ _ found)
  · rw [out] at found
    exact (recurSound _ _ _ _ found).head ⟨isEdge, visible, plainEdge⟩

theorem exploreEdges_sound {a b : EdgeId} {lbr : List EdgeId} {block : BlockId}
    {edges : List EdgeId} {s : Search} (outgoing : ∀ f ∈ edges, f ∈ g.outgoing block)
    (found : g.exploreEdges recur (a :: b :: lbr) b edges s = .found) :
    g.Continues block (b :: lbr) := by
  induction edges generalizing s with
  | nil => simp [exploreEdges] at found
  | cons f rest ih =>
      have member := outgoing f List.mem_cons_self
      rw [exploreEdges] at found
      cases examined : g.examineEdge recur (a :: b :: lbr) b f s with
      | found =>
          rw [← g.outgoing_source block f member]
          exact examineEdge_sound recurSound (isEdge_of_mem member) examined
      | rejected s₁ =>
          rw [examined] at found
          exact ih (fun f member => outgoing f (List.mem_cons_of_mem _ member)) found
      | _ => simp [examined] at found

end

theorem jitPathExists_continues {fuel : Nat} {a e : EdgeId} {lbr : List EdgeId} {s : Search}
    (found : g.jitPathExists fuel (a :: lbr) e s = .found) : g.Continues (g.target e) lbr := by
  induction fuel generalizing a e lbr s with
  | zero => simp [jitPathExists] at found
  | succ fuel ih =>
      cases lbr with
      | nil => exact .nil _
      | cons b lbr =>
          rw [jitPathExists] at found
          split_ifs at found with limit
          exact exploreEdges_sound (fun _ _ _ _ => ih) (fun _ member => member)
            (backOut_eq_found.mp found)

/-- An accepted LBR is the sequence of recorded branches of one traversal from its first entry. -/
theorem jitPathExists_path_sound {fuel : Nat} {first : EdgeId} {lbr : List EdgeId} {s : Search}
    (found : g.jitPathExists fuel (first :: lbr) first s = .found) :
    (∀ i a b, (first :: lbr)[i]? = some a → (first :: lbr)[i + 1]? = some b → g.Connects a b) ∧
      ∃ path final, g.visible.Walk (g.target first) path final ∧
        path.filter (fun f => edgeIsFunctionExit (g.edge f)) = lbr :=
  have continues := jitPathExists_continues found
  ⟨fun _ _ _ => continues.connects, continues.exists_walk⟩

def callAndReturn : Cfg :=
  ofEdges id [(0x10, 0x14), (0x18, 0x1a), (0x20, 0x24), (0x28, 0x2c)]
    [(0, 2, .directCall), (2, 3, .directJmp), (3, 1, .ret)]

theorem jitPathExists_path_sound_callAndReturn :
    callAndReturn.jitPathExists 4 [0, 2] 0 (.start []) = .found ∧ callAndReturn.Connects 0 2 :=
  have found : callAndReturn.jitPathExists 4 [0, 2] 0 (.start []) = .found := by rfl
  ⟨found, (jitPathExists_path_sound found).1 0 0 2 rfl rfl⟩

end Cfg

end PathArmor.Analyzer

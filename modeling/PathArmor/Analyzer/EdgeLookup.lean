import PathArmor.Analyzer.Learning

/-!
# Looking up edges after one was added

`find_edge` starts from the block that ends at the source address. A new block for the source of an
edge is only made where no block ends, but a new block for its target is made where no block
starts: it may end where another one does, and then that one is no longer found.
-/

namespace PathArmor.Analyzer

namespace Cfg
variable {g : Cfg} {a b x y : Address} {source target : BlockId}

theorem findEdge_isSome : (g.findEdge x y).isSome ↔
    ∃ bb, g.findBbByLastInsnAddress x = some bb ∧
      ∃ e ∈ g.outgoing bb, (g.block (g.target e)).startAddress = y := by
  unfold findEdge
  cases found : g.findBbByLastInsnAddress x with
  | none => simp
  | some bb => simp

variable (g) in
/-- A one-byte block outside every function. -/
def storeByte (a : Address) : Cfg := (g.newBlock a (a + 1) a false []).storeBb g.blockCount

theorem storeByte_blockCount (a : Address) : (g.storeByte a).blockCount = g.blockCount + 1 :=
  (newBlock_storeBb_same a (a + 1) a false [] g.blockCount).2.2

theorem storeByte_findBbByLastInsnAddress (a x : Address) :
    (g.storeByte a).findBbByLastInsnAddress x =
      if x = a then some g.blockCount else g.findBbByLastInsnAddress x := by
  have allocated : g.blockCount < (g.newBlock a (a + 1) a false []).blockCount := Nat.lt_succ_self _
  unfold storeByte storeBb
  rw [dif_pos allocated]
  simp [findBbByLastInsnAddress, newBlock, Function.update_apply]

theorem storeByte_findBb (a x : Address) :
    (g.storeByte a).findBb x = if x = a then some g.blockCount else g.findBb x := by
  have allocated : g.blockCount < (g.newBlock a (a + 1) a false []).blockCount := Nat.lt_succ_self _
  unfold storeByte storeBb
  rw [dif_pos allocated]
  simp [findBb, newBlock, Function.update_apply]

theorem storeByte_block_old {bb : BlockId} (old : bb < g.blockCount) (a : Address) :
    (g.storeByte a).block bb = g.block bb := by
  rw [storeByte, (storeBb_same _).1]
  exact Function.update_of_ne old.ne _ _

theorem storeByte_outgoing_new (a : Address) : (g.storeByte a).outgoing g.blockCount = [] := by
  rw [storeByte, outgoing, (storeBb_same _).1]
  simp [newBlock]

theorem storeByte_target (a : Address) (e : EdgeId) : (g.storeByte a).target e = g.target e := by
  rw [target, storeByte, (storeBb_same _).2.1]
  rfl

/-- What ended at `a` before is hidden by the new block. -/
theorem findEdge_storeByte : ((g.storeByte a).findEdge x y).isSome ↔
    x ≠ a ∧ (g.findEdge x y).isSome := by
  rw [findEdge_isSome, findEdge_isSome]
  simp only [storeByte_findBbByLastInsnAddress]
  by_cases new : x = a
  · simp [new, storeByte_outgoing_new]
  · simp only [new, if_false, ne_eq, not_false_eq_true, true_and]
    apply exists_congr
    intro bb
    rw [and_congr_right_iff]
    intro found
    rw [outgoing, storeByte_block_old (findBbByLastInsnAddress_lt found)]
    apply exists_congr
    intro e
    rw [and_congr_right_iff]
    intro member
    have old := (g.endpoint_lt e (g.outgoing_lt bb e member)).2
    rw [storeByte_target, storeByte_block_old old]

theorem findEdge_link (bound : source < g.blockCount ∧ target < g.blockCount) :
    ((g.link source target).findEdge x y).isSome ↔ (g.findEdge x y).isSome ∨
      g.findBbByLastInsnAddress x = some source ∧ (g.block target).startAddress = y := by
  have last : (g.link source target).findBbByLastInsnAddress x = g.findBbByLastInsnAddress x := by
    simp [findBbByLastInsnAddress, link, bound]
  have start (bb : BlockId) :
      ((g.link source target).block bb).startAddress = (g.block bb).startAddress := by
    rw [link_block bound, linkBlocks_apply]
  have newTarget : (g.link source target).target g.edgeCount = target := by
    simp [Cfg.target, link_edge bound]
  have oldTarget {bb : BlockId} {e : EdgeId} (member : e ∈ g.outgoing bb) :
      (g.link source target).target e = g.target e := by
    rw [Cfg.target, link_edge bound, Function.update_of_ne (g.outgoing_lt bb e member).ne]
  rw [findEdge_isSome, findEdge_isSome, last]
  constructor
  · rintro ⟨bb, found, e, member, leads⟩
    rcases (mem_outgoing_link bound).mp member with ⟨rfl, rfl⟩ | old
    · rw [newTarget, start] at leads
      exact .inr ⟨found, leads⟩
    · rw [oldTarget old, start] at leads
      exact .inl ⟨bb, found, e, old, leads⟩
  · rintro (⟨bb, found, e, member, leads⟩ | ⟨found, leads⟩)
    · refine ⟨bb, found, e, (mem_outgoing_link bound).mpr (.inr member), ?_⟩
      rw [oldTarget member, start]
      exact leads
    · refine ⟨source, found, g.edgeCount, (mem_outgoing_link bound).mpr (.inl ⟨rfl, rfl⟩), ?_⟩
      rw [newTarget, start]
      exact leads

theorem storeByte_startAddress_new (a : Address) :
    ((g.storeByte a).block g.blockCount).startAddress = a := by
  rw [storeByte, (storeBb_same _).1]
  simp [newBlock]

variable (g) in
/-- `g₁` is the graph once the source block `s` of an edge from `a` is there. -/
structure Sourced (a : Address) (g₁ : Cfg) (s : BlockId) : Prop where
  allocated : s < g₁.blockCount
  sourceBb : g₁.findBbByLastInsnAddress a = some s
  edges : ∀ x y, (g₁.findEdge x y).isSome ↔ (g.findEdge x y).isSome
  blocks : ∀ x, (g₁.findBb x).isSome ↔
    (g.findBb x).isSome ∨ x = a ∧ g.findBbByLastInsnAddress a = none
  added : ∀ b, (g.createAndAddEdge a b).1 = match g₁.findBb b with
    | some t => g₁.link s t
    | none => (g₁.storeByte b).link s g₁.blockCount

theorem exists_sourced (g : Cfg) (a : Address) : ∃ g₁ s, g.Sourced a g₁ s := by
  cases found : g.findBbByLastInsnAddress a with
  | some s =>
      refine ⟨g, s, findBbByLastInsnAddress_lt found, found, fun _ _ => Iff.rfl, by simp [found],
        fun b => ?_⟩
      simp only [createAndAddEdge, found]
      cases g.findBb b <;> rfl
  | none =>
      refine ⟨g.storeByte a, g.blockCount, ?_, ?_, ?_, ?_, fun b => ?_⟩
      · rw [storeByte_blockCount]
        exact Nat.lt_succ_self _
      · rw [storeByte_findBbByLastInsnAddress, if_pos rfl]
      · intro x y
        rw [findEdge_storeByte, and_iff_right_iff_imp]
        rintro isSome rfl
        simp [findEdge, found] at isSome
      · intro x
        rw [storeByte_findBb]
        by_cases new : x = a
        · simp [new, found]
        · simp [new]
      · simp only [createAndAddEdge, found]
        rw [← storeByte]
        cases (g.storeByte a).findBb b <;> rfl

section
variable {g₁ : Cfg} {s : BlockId} (sourced : g.Sourced a g₁ s)
include sourced

theorem Sourced.findEdge_of_found {t : BlockId} (targetBb : g₁.findBb b = some t) :
    ((g.createAndAddEdge a b).1.findEdge x y).isSome ↔
      (g.findEdge x y).isSome ∨ g₁.findBbByLastInsnAddress x = some s ∧ b = y := by
  have bound : s < g₁.blockCount ∧ t < g₁.blockCount := ⟨sourced.allocated, findBb_lt targetBb⟩
  have start : (g₁.block t).startAddress = b := (g₁.start2bb_start b t targetBb).2
  rw [sourced.added, targetBb]
  rw [findEdge_link bound, sourced.edges, start]

theorem Sourced.findEdge_of_new (targetBb : g₁.findBb b = none) :
    ((g.createAndAddEdge a b).1.findEdge x y).isSome ↔
      x ≠ b ∧ ((g.findEdge x y).isSome ∨ g₁.findBbByLastInsnAddress x = some s ∧ b = y) := by
  have bound : s < (g₁.storeByte b).blockCount ∧ g₁.blockCount < (g₁.storeByte b).blockCount := by
    rw [storeByte_blockCount]
    exact ⟨Nat.lt_succ_of_lt sourced.allocated, Nat.lt_succ_self _⟩
  have source : (g₁.storeByte b).findBbByLastInsnAddress x = some s ↔
      x ≠ b ∧ g₁.findBbByLastInsnAddress x = some s := by
    rw [storeByte_findBbByLastInsnAddress]
    by_cases hidden : x = b
    · simp [hidden, sourced.allocated.ne']
    · simp [hidden]
  rw [sourced.added, targetBb]
  rw [findEdge_link bound, findEdge_storeByte, sourced.edges, storeByte_startAddress_new, source,
    and_assoc, ← and_or_left]

end

/-- The new edge and all edges that could be found before are found, unless the target is a new block
that hides another one with edges. -/
theorem createAndAddEdge_keeps_iff (g : Cfg) (a b : Address) :
    (((g.createAndAddEdge a b).1.findEdge a b).isSome ∧ ∀ x y, (g.findEdge x y).isSome →
        ((g.createAndAddEdge a b).1.findEdge x y).isSome) ↔
      (g.findBb b).isSome ∨ ∀ bb, g.findBbByLastInsnAddress b = some bb →
        a ≠ b ∧ g.outgoing bb = [] := by
  obtain ⟨g₁, s, sourced⟩ := exists_sourced g a
  cases targetBb : g₁.findBb b with
  | some t =>
      have known : (g.findBb b).isSome ∨ b = a ∧ g.findBbByLastInsnAddress a = none := by
        rw [← sourced.blocks, targetBb]
        rfl
      simp only [sourced.findEdge_of_found targetBb]
      constructor
      · intro _
        apply known.imp_right
        rintro ⟨rfl, unknown⟩ bb found
        simp [unknown] at found
      · intro _
        exact ⟨.inr ⟨sourced.sourceBb, trivial⟩, fun x y found => .inl found⟩
  | none =>
      have unknown : ¬ ((g.findBb b).isSome ∨ b = a ∧ g.findBbByLastInsnAddress a = none) := by
        rw [← sourced.blocks, targetBb]
        simp
      simp only [sourced.findEdge_of_new targetBb]
      constructor
      · rintro ⟨⟨different, -⟩, kept⟩
        refine .inr fun bb found => ⟨different, List.eq_nil_iff_forall_not_mem.mpr ?_⟩
        intro e member
        exact (kept b _ (findEdge_isSome.mpr ⟨bb, found, e, member, rfl⟩)).1 rfl
      · intro nothing
        replace nothing := nothing.resolve_left fun known => unknown (.inl known)
        have different : a ≠ b := by
          rintro rfl
          cases found : g.findBbByLastInsnAddress a with
          | none => exact unknown (.inr ⟨rfl, found⟩)
          | some bb => exact (nothing bb found).1 rfl
        refine ⟨⟨different, .inr ⟨sourced.sourceBb, trivial⟩⟩, fun x y isSome => ⟨?_, .inl isSome⟩⟩
        rintro rfl
        obtain ⟨bb, found, e, member, -⟩ := findEdge_isSome.mp isSome
        simp [(nothing bb found).2] at member

/-- A block that ends at 0x14, and an edge from it. -/
def jumpToTail : Cfg := ofEdges id [(0x10, 0x14), (0x20, 0x24)] [(0, 1, .directJmp)]

/-- A jump to the last instruction of the first block hides the edge from there. -/
theorem jumpToTail_loses_edge : (jumpToTail.findEdge 0x14 0x20).isSome ∧
    ((jumpToTail.createAndAddEdge 0x24 0x14).1.findEdge 0x14 0x20) = none ∧
    ((jumpToTail.createAndAddEdge 0x14 0x14).1.findEdge 0x14 0x14) = none := by
  decide +kernel

end Cfg

end PathArmor.Analyzer

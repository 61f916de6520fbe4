import PathArmor.Analyzer.Collapse
import PathArmor.Analyzer.Insert

/-!
# Inserting a parse again

`retouch` inserts everything the parser knows a second time. Functions and blocks are looked up
first and stay as they are. Edges are not: the `seen` of `insertEdges` ends with the call, so every
edge is added once more, visible, next to its twin that `simplifyCfg` has hidden.
-/

namespace PathArmor.Analyzer

namespace Cfg

def edges (g : Cfg) : Finset EdgeId := {e ∈ Finset.range g.edgeCount | g.IsEdge e}

def edgeTriples (g : Cfg) : Multiset (BlockId × BlockId × ArmsEdgeType) :=
  g.edges.val.map fun e => (g.source e, g.target e, (g.edge e).type)

/-- The same blocks at the same addresses, and the same edges with the same flags. -/
structure SameGraph (g g' : Cfg) : Prop where
  blockCount : g'.blockCount = g.blockCount
  start : ∀ b < g.blockCount, (g'.block b).startAddress = (g.block b).startAddress
  registered : g'.findBb = g.findBb
  edges : g'.edgeTriples = g.edgeTriples
  hidden : ∀ e, g.IsEdge e → (g'.edge e).hidden = (g.edge e).hidden

variable {g g' : Cfg}

theorem mem_edges {e : EdgeId} : e ∈ g.edges ↔ g.IsEdge e := by
  simpa [edges] using IsEdge.lt

theorem SameHeap.isEdge_iff (same : g.SameHeap g') {e : EdgeId} : g'.IsEdge e ↔ g.IsEdge e := by
  simp only [IsEdge, outgoing, source, same.block, same.edge]

theorem SameHeap.edges_eq (same : g.SameHeap g') : g'.edges = g.edges := by
  ext e
  rw [mem_edges, mem_edges, same.isEdge_iff]

theorem SameHeap.sameGraph (same : g.SameHeap g') : g.SameGraph g' where
  blockCount := same.blockCount
  start b _ := by rw [same.block]
  registered := same.start2bb
  edges := by simp only [edgeTriples, same.edges_eq, source, target, same.edge]
  hidden e _ := by rw [same.edge]

theorem SameGraph.card_edges (same : g.SameGraph g') : g'.edges.card = g.edges.card := by
  have := congrArg Multiset.card same.edges
  simpa [edgeTriples] using this

end Cfg

namespace Insertion
open Cfg
variable {s s' : Insertion} {source target : BlockId}

theorem isEdge_addEdge {type : ArmsEdgeType} {e : EdgeId} (isEdge : s.cfg.IsEdge e) :
    (s.addEdge source target type).cfg.IsEdge e := by
  have other : e ≠ s.cfg.edgeCount := isEdge.lt.ne
  by_cases bound : source < s.cfg.blockCount ∧ target < s.cfg.blockCount
  · have edge : (s.addEdge source target type).cfg.edge e = s.cfg.edge e := by
      rw [addEdge, setType_edge, Function.update_of_ne other, link_edge bound,
        Function.update_of_ne other]
    rw [IsEdge, Cfg.source, edge]
    exact (mem_outgoing_link bound).mpr (.inr isEdge)
  · have unlinked : s.cfg.link source target = s.cfg := by simp [link, bound]
    have edge : (s.addEdge source target type).cfg.edge e = s.cfg.edge e := by
      rw [addEdge, setType_edge, Function.update_of_ne other, unlinked]
    rw [IsEdge, Cfg.source, edge, addEdge, unlinked]
    exact isEdge

theorem isEdge_new (bound : source < s.cfg.blockCount ∧ target < s.cfg.blockCount)
    (type : ArmsEdgeType) : (s.addEdge source target type).cfg.IsEdge s.cfg.edgeCount := by
  rw [IsEdge, Cfg.source, addEdge, setType_edge, Function.update_self, ArmsEdge.setType_source,
    link_edge bound, Function.update_self]
  exact (mem_outgoing_link bound).mpr (.inl ⟨rfl, rfl⟩)

theorem isEdge_createDummyBasicBlock {armsFun : Option FuncId} {e : EdgeId} :
    (s.createDummyBasicBlock armsFun).1.cfg.IsEdge e ↔ s.cfg.IsEdge e := by
  rw [IsEdge, createDummyBasicBlock, newBlock_outgoing]
  rfl

theorem Adds.edges_subset (adds : Adds s s') : s.cfg.edges ⊆ s'.cfg.edges := by
  induction adds with
  | refl => exact subset_rfl
  | edge _ _ target type ih =>
      refine ih.trans fun e member => ?_
      rw [mem_edges] at member ⊢
      exact isEdge_addEdge member
  | dummy _ armsFun ih =>
      refine ih.trans fun e member => ?_
      rw [mem_edges] at member ⊢
      exact isEdge_createDummyBasicBlock.mpr member

/-- There are more edges than before. -/
def Grows (s s' : Insertion) : Prop := s.cfg.edges.card < s'.cfg.edges.card

theorem Grows.of_adds {s'' : Insertion} (grows : Grows s s') (adds : Adds s' s'') : Grows s s'' :=
  grows.trans_le (Finset.card_le_card adds.edges_subset)

theorem Adds.grows {s'' : Insertion} (adds : Adds s s') (grows : Grows s' s'') : Grows s s'' :=
  (Finset.card_le_card adds.edges_subset).trans_lt grows

theorem addEdge_grows (bound : source < s.cfg.blockCount ∧ target < s.cfg.blockCount)
    (type : ArmsEdgeType) : Grows s (s.addEdge source target type) := by
  apply Finset.card_lt_card
  refine ⟨fun e member => ?_, fun all => ?_⟩
  · rw [mem_edges] at member ⊢
    exact isEdge_addEdge member
  · have old := all (mem_edges.mpr (isEdge_new bound type))
    exact (mem_edges.mp old).lt.ne rfl

theorem foldl_grows {β : Type} {step : Insertion → β → Insertion} {xs : List β} {x : β}
    (member : x ∈ xs) (adds : ∀ y ∈ xs, ∀ s', Frame s.cfg s'.cfg → Adds s' (step s' y))
    (grows : ∀ s', Frame s.cfg s'.cfg → Grows s' (step s' x)) : Grows s (xs.foldl step s) := by
  obtain ⟨before, after, rfl⟩ := List.append_of_mem member
  have first : Adds s (before.foldl step s) :=
    .foldl fun y inside => adds y (List.mem_append_left _ inside)
  have inserted := adds x member _ first.frame
  rw [List.foldl_append, List.foldl_cons]
  refine (first.grows (grows _ first.frame)).of_adds (.foldl fun y inside s' frame => ?_)
  exact adds y (List.mem_append_right _ (List.mem_cons_of_mem _ inside)) s'
    ((first.frame.trans inserted.frame).trans frame)

/-! ## Edges that are not inserted -/

/-- The edges `insertEdges` passes over: fallthroughs of calls, returns to nowhere, and calls of
which it knows targets, but no block of any of them. -/
def Silent (resolver : Address → List Address) (g : Cfg) (block : ParseBlock) (edge : ParseEdge) :
    Prop :=
  edge.type = .callFt ∨ (edge.type = .ret ∧ edge.trg = sink) ∨
    edge.type = .call ∧ findTarget g edge = none ∧ resolver block.last ≠ [] ∧
      ∀ t ∈ resolver block.last, g.findBb t = none

variable {resolver : Address → List Address} {block : ParseBlock} {edge : ParseEdge}

theorem silent_congr {g g' : Cfg} (same : g'.start2bb = g.start2bb) :
    Silent resolver g' block edge ↔ Silent resolver g block edge := by
  simp only [Silent, findTarget, findBb, same]

theorem handleInterproceduralCall_of_missing {t : Address} (missing : s.cfg.findBb t = none)
    (callSite : BlockId) (type : ArmsEdgeType) : s.handleInterproceduralCall callSite t type = s := by
  have noCall : s.createCallEdge callSite t type = s := by rw [createCallEdge, missing]
  have noReturn : s.createRetEdges callSite t = s := by
    rw [createRetEdges, missing]
    cases s.cfg.findBb (s.cfg.block callSite).endAddress <;> rfl
  simp only [handleInterproceduralCall, noCall, noReturn, ite_self]

theorem handleInterproceduralCall_grows {t : Address} {a : Address}
    (foundSource : s.cfg.findBb a = some source) (found : s.cfg.findBb t ≠ none)
    (type : ArmsEdgeType) : Grows s (s.handleInterproceduralCall source t type) := by
  obtain ⟨b, foundB⟩ := Option.ne_none_iff_exists'.mp found
  have called : Grows s (s.createCallEdge source t type) := by
    rw [createCallEdge, foundB]
    exact addEdge_grows ⟨(s.cfg.start2bb_start _ _ foundSource).1,
      (s.cfg.start2bb_start _ _ foundB).1⟩ type
  simp only [handleInterproceduralCall]
  split_ifs
  · exact called.of_adds (createRetEdges_adds source t)
  · exact called

theorem insertEdge_of_silent (silent : Silent resolver s.cfg block edge) (armsFun : Option FuncId)
    (source : BlockId) : insertEdge resolver armsFun source block s edge = s := by
  unfold insertEdge
  rcases silent with callFt | ret | ⟨call, unknown, some, missing⟩
  · rw [if_pos callFt]
  · rw [if_pos ret, ite_self]
  · have notRet : ¬ (edge.type = .ret ∧ edge.trg = sink) := by simp [call]
    rw [if_neg (by simp [call]), if_neg notRet, unknown]
    simp only [resolved, call, if_true, ne_eq, some, not_false_eq_true]
    exact List.foldlRecOn (motive := fun s' => s' = s) _ _ rfl fun s' same t member => by
      rw [same]
      exact handleInterproceduralCall_of_missing (missing t member) source _

theorem insertEdge_grows {a : Address} (foundSource : s.cfg.findBb a = some source)
    (loud : ¬ Silent resolver s.cfg block edge) (armsFun : Option FuncId) :
    Grows s (insertEdge resolver armsFun source block s edge) := by
  have bound := (s.cfg.start2bb_start _ _ foundSource).1
  have notCallFt : edge.type ≠ .callFt := fun callFt => loud (.inl callFt)
  have notRet : ¬ (edge.type = .ret ∧ edge.trg = sink) := fun ret => loud (.inr (.inl ret))
  unfold insertEdge
  rw [if_neg notCallFt, if_neg notRet]
  cases known : findTarget s.cfg edge with
  | some target =>
      refine addEdge_grows ⟨bound, ?_⟩ _
      unfold findTarget at known
      split_ifs at known
      exact (s.cfg.start2bb_start _ _ known).1
  | none =>
      dsimp only
      split_ifs with none
      · have call : edge.type = .call := by
          by_contra other
          simp [resolved, other] at none
        simp only [resolved, call, if_true] at none ⊢
        obtain ⟨t, member, found⟩ : ∃ t ∈ resolver block.last, s.cfg.findBb t ≠ .none := by
          by_contra missing
          push Not at missing
          exact loud (.inr (.inr ⟨call, known, none, missing⟩))
        refine foldl_grows member (fun t' _ s' frame => ?_) fun s' frame => ?_
        · exact handleInterproceduralCall_adds (frame.isSource_iff.mpr (.inl ⟨a, foundSource⟩)) t' _
        · apply handleInterproceduralCall_grows (a := a)
          · rwa [findBb, frame.start2bb]
          · rwa [findBb, frame.start2bb]
      · refine (Adds.dummy .refl armsFun).grows (addEdge_grows ⟨?_, ?_⟩ _)
        · exact Nat.lt_succ_of_lt bound
        · exact Nat.lt_succ_self _

/-! ## The second pass -/

theorem mem_of_mem_firstBlocks {p : ParseResult} {entry : ParseFunction × ParseBlock}
    (member : entry ∈ firstBlocks p) : entry.2 ∈ p.blocks := by
  have sublist (seen : List Address) (entries : List (ParseFunction × ParseBlock)) :
      (unseen seen entries).Sublist entries := by
    induction entries generalizing seen with
    | nil => exact .slnil
    | cons x rest ih =>
        rw [unseen]
        split_ifs
        · exact (ih seen).cons x
        · exact (ih _).cons_cons x
  obtain ⟨func, listed, inside⟩ := List.mem_flatMap.mp ((sublist _ _).mem member)
  obtain ⟨block, isBlock, rfl⟩ := List.mem_map.mp inside
  exact List.mem_flatMap.mpr ⟨func, listed, isBlock⟩

variable {p : ParseResult}

theorem insertEdges_of_silent (silent : ∀ entry ∈ firstBlocks p, ∀ edge ∈ entry.2.targets,
    Silent resolver s.cfg entry.2 edge) : s.insertEdges resolver p = s := by
  rw [insertEdges_eq]
  refine List.foldlRecOn (motive := fun s' => s' = s) _ _ rfl fun s' same entry member => ?_
  subst same
  obtain ⟨func, block⟩ := entry
  simp only [insertBlockEdges]
  cases s'.cfg.findBb block.start with
  | none => rfl
  | some source =>
      refine List.foldlRecOn (motive := fun s => s = s') _ _ rfl fun s same edge inside => ?_
      subst same
      exact insertEdge_of_silent (silent _ member edge inside) _ source

theorem insertEdges_grows {entry : ParseFunction × ParseBlock} (member : entry ∈ firstBlocks p)
    (found : s.cfg.findBb entry.2.start ≠ none) {edge : ParseEdge} (inside : edge ∈ entry.2.targets)
    (loud : ¬ Silent resolver s.cfg entry.2 edge) : Grows s (s.insertEdges resolver p) := by
  rw [insertEdges_eq]
  refine foldl_grows member (fun other _ s' _ => insertBlockEdges_adds other) fun s₁ frame₁ => ?_
  obtain ⟨source, foundSource⟩ := Option.ne_none_iff_exists'.mp found
  obtain ⟨func, block⟩ := entry
  have foundSource₁ : s₁.cfg.findBb block.start = some source := by rwa [findBb, frame₁.start2bb]
  simp only [insertBlockEdges, foundSource₁]
  refine foldl_grows inside (fun other _ s' frame => ?_) fun s₂ frame₂ => ?_
  · exact insertEdge_adds (frame.isSource_iff.mpr (.inl ⟨_, foundSource₁⟩)) _ _ other
  · refine insertEdge_grows (a := block.start) ?_ ?_ _
    · rwa [findBb, frame₂.start2bb]
    · rwa [silent_congr (frame₂.start2bb.trans frame₁.start2bb)]

/-- The states in which `p` was inserted once, whether or not the graph was collapsed since. -/
inductive Inserted (resolver : Address → List Address) (p : ParseResult) : Insertion → Prop
  | insert (s : Insertion) : Inserted resolver p (s.tryParseAPI resolver p)
  | collapse {s : Insertion} {g : Cfg} (inserted : Inserted resolver p s)
      (simplified : s.cfg.simplifyCfg = some g) : Inserted resolver p { s with cfg := g }

theorem Inserted.findBb (inserted : Inserted resolver p s) {block : ParseBlock}
    (member : block ∈ p.blocks) : s.cfg.findBb block.start ≠ none := by
  induction inserted with
  | insert s => exact (findBb_tryParseAPI resolver p s).mpr (.inl (List.mem_map_of_mem member))
  | collapse _ simplified ih =>
      obtain ⟨b, found⟩ := Option.ne_none_iff_exists'.mp ih
      have kept := ((simplifyCfg_spec _).elim_some simplified).1.registered _ b found
      simp [kept]

/-- A second insertion changes nothing exactly if all edges of the parse are passed over. -/
theorem retouch_sameGraph_iff (resolver : Address → List Address) (p : ParseResult) (s : Insertion)
    (inserted : Inserted resolver p s) :
    s.cfg.SameGraph (s.retouch resolver p).cfg ↔
      ∀ entry ∈ firstBlocks p, ∀ edge ∈ entry.2.targets, Silent resolver s.cfg entry.2 edge := by
  obtain ⟨s₁, named⟩ : ∃ s₁, s₁ = (s.parseAll p).insertFunctionsAndBbs p := ⟨_, rfl⟩
  have found (block : ParseBlock) (member : block ∈ p.blocks) := inserted.findBb member
  have parsed := parseAll_again p s found
  have same : s.cfg.SameHeap s₁.cfg := by
    rw [named]
    refine parsed.trans (insertFunctionsAndBbs_again p _ fun block member => ?_)
    rw [Cfg.findBb, parsed.start2bb]
    exact found block member
  rw [retouch, ← named]
  constructor
  · intro unchanged entry member edge inside
    by_contra loud
    have foundStart : s₁.cfg.findBb entry.2.start ≠ none := by
      rw [Cfg.findBb, same.start2bb]
      exact found _ (mem_of_mem_firstBlocks member)
    have grows : Grows s₁ (s₁.insertEdges resolver p) :=
      insertEdges_grows member foundStart inside (by rwa [silent_congr same.start2bb])
    rw [Grows, same.edges_eq, unchanged.card_edges] at grows
    exact lt_irrefl _ grows
  · intro silent
    rw [insertEdges_of_silent fun entry member edge inside =>
      (silent_congr same.start2bb).mpr (silent entry member edge inside)]
    exact same.sameGraph

/-- A function at `0x1000` with one block, whose only edges are the given ones. -/
def loneBlock (targets : List ParseEdge) : ParseResult where
  mods := [(0x1000, 0x2000)]
  funcs := [{
    addr := 0x1000
    name := "f"
    blocks := [{
      start := 0x1000, endAddress := 0x1010, last := 0x100e, funcs := [0x1000], targets }]
    entry := 0x1000
    returnBlocks := []
    entry_mem := by simp
    return_mem := by simp }]
  plts := []
  containing := by simp

theorem retouch_sameGraph_iff_return :
    let p := loneBlock [{ type := .ret, trg := sink, interproc := true }]
    let s := (ofEmpty id id).tryParseAPI (fun _ => []) p
    s.cfg.SameGraph (s.retouch (fun _ => []) p).cfg := by
  intro p s
  refine (retouch_sameGraph_iff (fun _ => []) p s (.insert _)).mpr fun entry member edge inside => ?_
  simp only [p, loneBlock, firstBlocks, unseen, List.flatMap_cons, List.flatMap_nil, List.map_cons,
    List.map_nil, List.append_nil, List.not_mem_nil, if_false, List.mem_singleton] at member
  subst member
  rw [List.mem_singleton.mp inside]
  exact .inr (.inl ⟨rfl, rfl⟩)

def selfJump : ParseResult := loneBlock [{ type := .direct, trg := 0x1000, interproc := false }]

theorem selfJump_simplifies :
    ((ofEmpty id id).tryParseAPI (fun _ => []) selfJump).cfg.simplifyCfg.isSome := by decide

/-- A block that jumps to itself: the collapsed graph has one edge, which is hidden, and `retouch`
adds a second one. -/
theorem retouch_duplicates : ∃ s, Inserted (fun _ => []) selfJump s ∧
    (∀ e ∈ s.cfg.edges, (s.cfg.edge e).hidden) ∧
      ¬ s.cfg.SameGraph (s.retouch (fun _ => []) selfJump).cfg := by
  refine ⟨_, .collapse (.insert (ofEmpty id id)) (Option.some_get selfJump_simplifies).symm,
    by decide, fun same => ?_⟩
  have := same.card_edges
  revert this
  decide

end Insertion

end PathArmor.Analyzer

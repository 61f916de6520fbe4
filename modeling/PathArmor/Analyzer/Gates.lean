import PathArmor.Analyzer.History
import PathArmor.Analyzer.ValidPath

/-!
# Gates into the program

Branches that enter the program from outside have no source in the graph: callbacks are looked up
from the address `ADDRESS_TAKEN` and the loader's call of `main` from the address 0. The blocks at
these addresses only stand for their edges, and validation must not add to them.
-/

namespace PathArmor.Analyzer

namespace Cfg

/-- The block `gate` at the address `v` leads to `targets` and nowhere else. -/
structure Gate (g : Cfg) (v : Address) (gate : BlockId) (targets : Set Address) : Prop where
  last : g.findBbByLastInsnAddress v = some gate
  start : g.findBb v = some gate
  leaves : ∀ e ∈ g.outgoing gate,
    (g.edge e).intraProcedural = false ∧ (g.block (g.target e)).isDummy = false
  leads : ∀ y, (∃ e ∈ g.outgoing gate, (g.block (g.target e)).startAddress = y) ↔ y ∈ targets
  functions : ∀ entry ∈ g.functions, entry.1 ≠ v ∧ (g.func entry.2).baseAddr ≠ v

/-- A new edge that leaves its function. -/
def linkInter (g : Cfg) (source target : BlockId) (type : ArmsEdgeType) : Cfg :=
  ((g.link source target).setType g.edgeCount type).setInterprocedural g.edgeCount

theorem linkInter_edge {g : Cfg} {source target : BlockId}
    (bound : source < g.blockCount ∧ target < g.blockCount) (type : ArmsEdgeType) :
    (g.linkInter source target type).edge = Function.update g.edge g.edgeCount
      ((ArmsEdge.setType { source, target } type).setInterprocedural) := by
  simp [linkInter, setInterprocedural, updateEdge, link_edge bound]

namespace Gate
variable {g g' : Cfg} {v a b : Address} {gate : BlockId} {targets : Set Address}
  {e : EdgeId}

theorem findEdge_iff (closed : g.Gate v gate targets) (y : Address) :
    (g.findEdge v y).isSome ↔ y ∈ targets := by
  rw [findEdge_isSome, closed.last, ← closed.leads y]
  simp

theorem allocated (closed : g.Gate v gate targets) : gate < g.blockCount :=
  findBb_lt closed.start

theorem of_frame (closed : g.Gate v gate targets)
    (last : g'.findBbByLastInsnAddress v = g.findBbByLastInsnAddress v)
    (start : g'.findBb v = g.findBb v) (outgoing : g'.outgoing gate = g.outgoing gate)
    (edges : ∀ e ∈ g.outgoing gate,
      (g'.edge e).intraProcedural = (g.edge e).intraProcedural ∧ g'.target e = g.target e)
    (blocks : ∀ c < g.blockCount, (g'.block c).startAddress = (g.block c).startAddress ∧
      (g'.block c).isDummy = (g.block c).isDummy)
    (functions : ∀ entry ∈ g'.functions, entry.1 ≠ v ∧ (g'.func entry.2).baseAddr ≠ v) :
    g'.Gate v gate targets := by
  have targetLt (e : EdgeId) (member : e ∈ g.outgoing gate) : g.target e < g.blockCount :=
    (g.endpoint_lt e (g.outgoing_lt gate e member)).2
  refine ⟨last.trans closed.last, start.trans closed.start, ?_, ?_, functions⟩
  · rw [outgoing]
    intro e member
    rw [(edges e member).1, (edges e member).2, (blocks _ (targetLt e member)).2]
    exact closed.leaves e member
  · intro y
    rw [outgoing, ← closed.leads y]
    constructor
    · rintro ⟨e, member, leads⟩
      rw [(edges e member).2, (blocks _ (targetLt e member)).1] at leads
      exact ⟨e, member, leads⟩
    · rintro ⟨e, member, leads⟩
      refine ⟨e, member, ?_⟩
      rw [(edges e member).2, (blocks _ (targetLt e member)).1]
      exact leads

/-! ## Updates that miss the gate -/

theorem newBlock (closed : g.Gate v gate targets) (start endAddress last : Address) (isDummy : Bool)
    (funcs : List FuncId) : (g.newBlock start endAddress last isDummy funcs).Gate v gate targets := by
  apply closed.of_frame
  · rfl
  · rfl
  · exact newBlock_outgoing gate
  · exact fun _ _ => ⟨rfl, rfl⟩
  · intro c old
    rw [newBlock_block_of_ne old.ne]
    exact ⟨rfl, rfl⟩
  · exact closed.functions

theorem storeBb (closed : g.Gate v gate targets) {c : BlockId}
    (start : (g.block c).startAddress ≠ v) (last : (g.block c).lastInsnAddress ≠ v) :
    (g.storeBb c).Gate v gate targets := by
  unfold Cfg.storeBb
  split_ifs
  · apply closed.of_frame
    · exact Function.update_of_ne last.symm _ _
    · exact Function.update_of_ne start.symm _ _
    · rfl
    · exact fun _ _ => ⟨rfl, rfl⟩
    · exact fun _ _ => ⟨rfl, rfl⟩
    · exact closed.functions
  · exact closed

theorem storeByte (closed : g.Gate v gate targets) (other : a ≠ v) :
    (g.storeByte a).Gate v gate targets := by
  apply (closed.newBlock a (a + 1) a false []).storeBb
  · rw [newBlock_block_self]
    exact other
  · rw [newBlock_block_self]
    exact other

theorem link (closed : g.Gate v gate targets) {bb : BlockId} (other : bb ≠ gate) (cc : BlockId) :
    (g.link bb cc).Gate v gate targets := by
  apply closed.of_frame
  · unfold Cfg.link findBbByLastInsnAddress
    split_ifs <;> rfl
  · exact congrFun (link_start2bb bb cc) v
  · exact link_outgoing_of_ne other.symm
  · intro e member
    have edge : (g.link bb cc).edge e = g.edge e := by
      unfold Cfg.link
      split_ifs
      · exact Function.update_of_ne (g.outgoing_lt gate e member).ne _ _
      · rfl
    rw [target, edge]
    exact ⟨rfl, rfl⟩
  · exact fun c _ => link_data bb cc c
  · have same : (g.link bb cc).functions = g.functions := by
      unfold Cfg.link
      split_ifs <;> rfl
    rw [same, link_func]
    exact closed.functions

theorem updateEdge (closed : g.Gate v gate targets) (elsewhere : e ∉ g.outgoing gate)
    (change : ArmsEdge → ArmsEdge) (keepsSource : ∀ x, (change x).source = x.source)
    (keepsTarget : ∀ x, (change x).target = x.target) :
    (g.updateEdge e change keepsSource keepsTarget).Gate v gate targets := by
  apply closed.of_frame
  · rfl
  · rfl
  · rfl
  · intro x member
    have differs : x ≠ e := fun same => elsewhere (same ▸ member)
    rw [updateEdge_target, updateEdge_edge, Function.update_of_ne differs]
    exact ⟨rfl, rfl⟩
  · exact fun _ _ => ⟨rfl, rfl⟩
  · exact closed.functions

theorem setType (closed : g.Gate v gate targets) (elsewhere : e ∉ g.outgoing gate)
    (type : ArmsEdgeType) : (g.setType e type).Gate v gate targets :=
  closed.updateEdge elsewhere _ _ _

theorem setIntraprocedural (closed : g.Gate v gate targets) (elsewhere : e ∉ g.outgoing gate) :
    (g.setIntraprocedural e).Gate v gate targets :=
  closed.updateEdge elsewhere _ _ _

theorem setInterprocedural (closed : g.Gate v gate targets) (elsewhere : e ∉ g.outgoing gate) :
    (g.setInterprocedural e).Gate v gate targets :=
  closed.updateEdge elsewhere _ _ _

theorem not_mem_outgoing (closed : g.Gate v gate targets) (leads : g.Leads e a b) (other : a ≠ v) :
    e ∉ g.outgoing gate := by
  intro member
  have last := leads.last
  rw [source_of_mem member, (g.last2bb_last v gate closed.last).2] at last
  exact other last.symm

theorem setHidden (closed : g.Gate v gate targets) (x : EdgeId) (hidden : Bool) :
    (g.setHidden x hidden).Gate v gate targets := by
  have edge (y : EdgeId) : ((g.setHidden x hidden).edge y).intraProcedural =
      (g.edge y).intraProcedural := by
    rw [setHidden_edge]
    rcases eq_or_ne y x with rfl | other
    · rw [Function.update_self]
      rfl
    · rw [Function.update_of_ne other]
  apply closed.of_frame
  · rfl
  · rfl
  · rfl
  · exact fun y _ => ⟨edge y, updateEdge_target x y⟩
  · exact fun _ _ => ⟨rfl, rfl⟩
  · exact closed.functions

/-! ## Opening a gate -/

theorem register (allocated : gate < g.blockCount) (start : (g.block gate).startAddress = v)
    (last : (g.block gate).lastInsnAddress = v) (outgoing : g.outgoing gate = [])
    (functions : ∀ entry ∈ g.functions, entry.1 ≠ v ∧ (g.func entry.2).baseAddr ≠ v) :
    (g.storeBb gate).Gate v gate ∅ := by
  obtain ⟨block, -, -, -, sameFunctions, sameFunc⟩ := storeBb_same (g := g) gate
  constructor
  · simp [Cfg.storeBb, allocated, findBbByLastInsnAddress, last]
  · rw [← start]
    exact findBb_storeBb allocated
  · simp [Cfg.outgoing, block, outgoing]
  · simp [Cfg.outgoing, block, outgoing]
  · rw [sameFunctions, sameFunc]
    exact functions

theorem storeByte_new
    (functions : ∀ entry ∈ g.functions, entry.1 ≠ v ∧ (g.func entry.2).baseAddr ≠ v) :
    (g.storeByte v).Gate v g.blockCount ∅ := by
  refine register (Nat.lt_succ_self _) ?_ ?_ ?_ functions
  · rw [newBlock_block_self]
  · rw [newBlock_block_self]
  · rw [newBlock_outgoing]
    exact g.outgoing_of_not_lt (lt_irrefl _)

theorem linkInter (closed : g.Gate v gate targets) {cc : BlockId} (allocated : cc < g.blockCount)
    (real : (g.block cc).isDummy = false) (type : ArmsEdgeType) :
    (g.linkInter gate cc type).Gate v gate (insert (g.block cc).startAddress targets) := by
  have bound : gate < g.blockCount ∧ cc < g.blockCount := ⟨closed.allocated, allocated⟩
  have member (e : EdgeId) : e ∈ (g.linkInter gate cc type).outgoing gate ↔
      e = g.edgeCount ∨ e ∈ g.outgoing gate := by
    change e ∈ (g.link gate cc).outgoing gate ↔ _
    rw [mem_outgoing_link bound]
    simp
  have new : (g.linkInter gate cc type).edge g.edgeCount =
      (ArmsEdge.setType { source := gate, target := cc } type).setInterprocedural := by
    rw [linkInter_edge bound, Function.update_self]
  have old {e : EdgeId} (before : e ∈ g.outgoing gate) :
      (g.linkInter gate cc type).edge e = g.edge e := by
    rw [linkInter_edge bound, Function.update_of_ne (g.outgoing_lt gate e before).ne]
  have data (c : BlockId) := link_data (g := g) gate cc c
  refine ⟨?_, ?_, ?_, ?_, ?_⟩
  · change (g.link gate cc).findBbByLastInsnAddress v = some gate
    simp only [Cfg.link, bound, and_self, dite_true, findBbByLastInsnAddress]
    exact closed.last
  · exact (congrFun (link_start2bb gate cc) v).trans closed.start
  · intro e outgoing
    rcases (member e).mp outgoing with rfl | before
    · rw [target, new]
      refine ⟨rfl, ?_⟩
      rw [ArmsEdge.setInterprocedural, ArmsEdge.setType_target]
      exact ((data cc).2).trans real
    · rw [target, old before]
      exact ⟨(closed.leaves e before).1, ((data _).2).trans (closed.leaves e before).2⟩
  · intro y
    rw [Set.mem_insert_iff, ← closed.leads y]
    constructor
    · rintro ⟨e, outgoing, leads⟩
      rcases (member e).mp outgoing with rfl | before
      · rw [target, new, ArmsEdge.setInterprocedural, ArmsEdge.setType_target] at leads
        exact .inl (leads.symm.trans (data cc).1)
      · rw [target, old before] at leads
        exact .inr ⟨e, before, ((data _).1).symm.trans leads⟩
    · rintro (rfl | ⟨e, before, leads⟩)
      · refine ⟨g.edgeCount, (member _).mpr (.inl rfl), ?_⟩
        rw [target, new, ArmsEdge.setInterprocedural, ArmsEdge.setType_target]
        exact (data cc).1
      · refine ⟨e, (member e).mpr (.inr before), ?_⟩
        rw [target, old before]
        exact ((data _).1).trans leads
  · have same : (g.link gate cc).functions = g.functions := (link_same bound).2.1
    change ∀ entry ∈ (g.link gate cc).functions, entry.1 ≠ v ∧
      ((g.link gate cc).func entry.2).baseAddr ≠ v
    rw [same, link_func]
    exact closed.functions

/-- An edge out of another block. -/
theorem linkInter_of_ne (closed : g.Gate v gate targets) {bb : BlockId} (other : bb ≠ gate)
    (cc : BlockId) (type : ArmsEdgeType) : (g.linkInter bb cc type).Gate v gate targets := by
  have linked := closed.link other cc
  have elsewhere : g.edgeCount ∉ (g.link bb cc).outgoing gate := by
    rw [link_outgoing_of_ne other.symm]
    exact fun member => lt_irrefl _ (g.outgoing_lt gate _ member)
  exact (linked.setType elsewhere type).setInterprocedural elsewhere

/-! ## New edges -/

theorem linkTarget (closed : g.Gate v gate targets) {bb : BlockId} (other : bb ≠ gate) (b : Address) :
    let targeted : Cfg × BlockId := match g.findBb b with
      | some cc => (g, cc)
      | none => (g.storeByte b, g.blockCount)
    (targeted.1.link bb targeted.2).Gate v gate targets := by
  cases found : g.findBb b with
  | some cc => exact closed.link other cc
  | none =>
      have missing : b ≠ v := by
        rintro rfl
        rw [closed.start] at found
        cases found
      exact (closed.storeByte missing).link other _

theorem createAndAddEdge (closed : g.Gate v gate targets) (other : a ≠ v) (b : Address) :
    (g.createAndAddEdge a b).1.Gate v gate targets := by
  unfold Cfg.createAndAddEdge
  cases sourceBb : g.findBbByLastInsnAddress a with
  | some bb =>
      refine closed.linkTarget ?_ b
      rintro rfl
      have last := (g.last2bb_last a bb sourceBb).2
      rw [(g.last2bb_last v bb closed.last).2] at last
      exact other last.symm
  | none => exact (closed.storeByte other).linkTarget closed.allocated.ne' b

theorem addIntraJump (closed : g.Gate v gate targets) (other : a ≠ v) (b : Address) :
    (g.addIntraJump a b).1.Gate v gate targets := by
  have leads := createAndAddEdge_leads g a b
  have created := closed.createAndAddEdge other b
  have typed := created.setType (created.not_mem_outgoing leads other) .indirectJmp
  exact typed.setIntraprocedural (typed.not_mem_outgoing (leads.setType _ _) other)

theorem addInterEdge (closed : g.Gate v gate targets) (other : a ≠ v) (b : Address)
    (type : ArmsEdgeType) : (g.addInterEdge a b type).1.Gate v gate targets := by
  have leads := createAndAddEdge_leads g a b
  have created := closed.createAndAddEdge other b
  have typed := created.setType (created.not_mem_outgoing leads other) type
  exact typed.setInterprocedural (typed.not_mem_outgoing (leads.setType _ _) other)

theorem updateFunction (closed : g.Gate v gate targets) (f : FuncId)
    {change : ArmsFunction → ArmsFunction} {keepsBlocks : ∀ x, (change x).basicBlocks = x.basicBlocks}
    (keepsBase : ∀ x, (change x).baseAddr = x.baseAddr) :
    (g.updateFunction f change keepsBlocks).Gate v gate targets := by
  apply closed.of_frame
  · rfl
  · rfl
  · rfl
  · exact fun _ _ => ⟨rfl, rfl⟩
  · exact fun _ _ => ⟨rfl, rfl⟩
  · intro entry member
    have old := closed.functions entry member
    simp only [Cfg.updateFunction, Function.update_apply]
    split_ifs with same
    · rw [keepsBase, ← same]
      exact old
    · exact old

theorem findFunction_base (closed : g.Gate v gate targets) {f : FuncId}
    (found : g.findFunction a = some f) : a ≠ v ∧ (g.func f).baseAddr ≠ v := by
  obtain ⟨entry, member, rfl⟩ := Option.map_eq_some_iff.mp found
  have key := List.find?_some member
  rw [beq_iff_eq] at key
  rw [← key]
  exact closed.functions entry (List.mem_of_find?_eq_some member)

theorem storeNewFunction (closed : g.Gate v gate targets) (funname : String) (other : b ≠ v) :
    ((g.newFunction { baseAddr := b, funname }).storeFunction g.funcCount).Gate v gate targets := by
  have registered : (g.newFunction { baseAddr := b, funname }).storeFunction g.funcCount =
      { g.newFunction { baseAddr := b, funname } with
        functions := insertFunction (b, g.funcCount) g.functions } := by
    simp [storeFunction, newFunction]
  rw [registered]
  apply closed.of_frame
  · simp [newFunction, findBbByLastInsnAddress]
  · simp [newFunction, findBb]
  · simp [newFunction]
  · simp [newFunction]
  · simp [newFunction]
  · intro entry member
    have base : ((g.newFunction { baseAddr := b, funname }).func entry.2).baseAddr =
        if entry.2 = g.funcCount then b else (g.func entry.2).baseAddr := by
      simp only [newFunction, List.not_mem_nil, false_implies, implies_true, dite_true,
        Function.update_apply]
      split_ifs <;> rfl
    rw [base]
    rcases mem_of_mem_insertFunction member with rfl | old
    · simpa using other
    · have kept := closed.functions entry old
      split_ifs
      · exact ⟨kept.1, other⟩
      · exact kept

theorem createDummyFunction (closed : g.Gate v gate targets) (funname : String) (other : b ≠ v) :
    (g.createDummyFunction funname b).1.Gate v gate targets ∧
      ((g.createDummyFunction funname b).1.func (g.createDummyFunction funname b).2).baseAddr ≠ v := by
  unfold Cfg.createDummyFunction
  cases found : g.findFunction b with
  | some f => exact ⟨closed, (closed.findFunction_base found).2⟩
  | none =>
      have stored := closed.storeNewFunction funname other
      dsimp only
      have base : ((g.newFunction { baseAddr := b, funname }).storeFunction g.funcCount).func
          g.funcCount = { baseAddr := b, funname } := by
        simp [storeFunction, newFunction]
      generalize (g.newFunction { baseAddr := b, funname }).storeFunction g.funcCount = g₁ at *
      have block := stored.newBlock b (b + 1) b true [g.funcCount]
      constructor
      · refine (block.storeBb ?_ ?_).updateFunction _ fun _ => rfl
        · rw [newBlock_block_self]
          exact other
        · rw [newBlock_block_self]
          exact other
      · simp only [Cfg.updateFunction, Function.update_self]
        rw [(storeBb_same _).2.2.2.2.2]
        change (g₁.func g.funcCount).baseAddr ≠ v
        rw [base]
        exact other

theorem setIsLibDummy (closed : g.Gate v gate targets) (f : FuncId) :
    (g.setIsLibDummy f).Gate v gate targets :=
  closed.updateFunction f fun _ => rfl

end Gate

end Cfg

open Cfg

section
variable {g : Cfg} {v : Address} {gate : BlockId} {targets : Set Address}

theorem createAndAddEdge_func (g : Cfg) (a b : Address) : (g.createAndAddEdge a b).1.func = g.func := by
  have stored (g : Cfg) (a : Address) : (g.storeByte a).func = g.func := (storeBb_same _).2.2.2.2.2
  have linked (g : Cfg) (bb : BlockId) :
      let targeted : Cfg × BlockId := match g.findBb b with
        | some cc => (g, cc)
        | none => (g.storeByte b, g.blockCount)
      (targeted.1.link bb targeted.2).func = g.func := by
    cases g.findBb b with
    | some cc => exact link_func bb cc
    | none => exact (link_func _ _).trans (stored g b)
  unfold Cfg.createAndAddEdge
  cases g.findBbByLastInsnAddress a with
  | some bb => exact linked g bb
  | none => exact (linked (g.storeByte a) _).trans (stored g a)

theorem addInterEdge_func (g : Cfg) (a b : Address) (type : ArmsEdgeType) :
    (g.addInterEdge a b type).1.func = g.func := createAndAddEdge_func g a b

theorem addRetEdge_gate (closed : g.Gate v gate targets) {base : Address} (other : base ≠ v)
    (cc : BlockId) : (addRetEdge base g cc).Gate v gate targets := by
  unfold addRetEdge
  cases g.getFallthroughBb cc with
  | none => exact closed
  | some bb => exact closed.addInterEdge other _ _

theorem forEachEdge_gate {edges : Cfg → List EdgeId} {body : Cfg → EdgeId → Option Cfg}
    (step : ∀ {g e g'}, body g e = some g' → g.Gate v gate targets → g'.Gate v gate targets)
    {fuel i : Nat} {g' : Cfg} (run : forEachEdge edges body fuel i g = some g')
    (closed : g.Gate v gate targets) : g'.Gate v gate targets :=
  forEachEdge_rel (R := fun g g' => g.Gate v gate targets → g'.Gate v gate targets)
    (fun _ => id) (fun first second closed => second (first closed)) step run closed

theorem addRetEdges_gate {fuel : Nat} {base : Address} (other : base ≠ v) {g' : Cfg} {into : EdgeId}
    (run : addRetEdges fuel base g into = some g') (closed : g.Gate v gate targets) :
    g'.Gate v gate targets := by
  obtain ⟨g₁, looped, rfl⟩ := Option.map_eq_some_iff.mp run
  refine addRetEdge_gate (forEachEdge_gate ?_ looped closed) other _
  intro g out g' stepped closed
  split at stepped
  · cases stepped
    exact closed
  · refine forEachEdge_gate ?_ stepped closed
    intro g caller g' stepped closed
    cases stepped
    exact addRetEdge_gate closed other _

theorem jitAddPltGotEdge_gate {fuel : Nat} {g' : Cfg} {a b : Address} {e : EdgeId}
    (added : jitAddPltGotEdge fuel g a b = .ok (some (g', e))) (other : b ≠ v)
    (closed : g.Gate v gate targets) : a ≠ v ∧ g'.Gate v gate targets := by
  unfold jitAddPltGotEdge at added
  cases function : g.findFunction a with
  | none => simp [function] at added
  | some plt =>
      have source := (closed.findFunction_base function).1
      refine ⟨source, ?_⟩
      simp only [function] at added
      split_ifs at added with isPlt
      swap
      · simp at added
      obtain ⟨dummy, base⟩ := closed.createDummyFunction (g.func plt).funname other
      generalize g.createDummyFunction (g.func plt).funname b = shlib at added dummy base
      have jump := (dummy.setIsLibDummy shlib.2).addInterEdge source b .interIndirectJmp
      have sameBase : (((shlib.1.setIsLibDummy shlib.2).addInterEdge a b .interIndirectJmp).1.func
          shlib.2).baseAddr = (shlib.1.func shlib.2).baseAddr := by
        rw [addInterEdge_func]
        simp [Cfg.setIsLibDummy, Cfg.updateFunction]
      generalize (shlib.1.setIsLibDummy shlib.2).addInterEdge a b .interIndirectJmp = edge
        at added jump sameBase
      rw [← sameBase] at base
      cases entry : edge.1.findBb (edge.1.func plt).baseAddr with
      | none => simp [entry] at added
      | some bb =>
          simp only [entry] at added
          generalize (edge.1.func shlib.2).baseAddr = from' at added base
          cases looped : forEachEdge (·.incoming bb) (addRetEdges fuel from') fuel 0 edge.1 with
          | none => simp [looped] at added
          | some last =>
              simp only [looped, Except.ok.injEq, Option.some.injEq, Prod.mk.injEq] at added
              obtain ⟨rfl, -⟩ := added
              exact forEachEdge_gate (fun run => addRetEdges_gate base run) looped jump

end

/-! ## Rounds -/

/-- What the tables must not do at the address of a gate. -/
structure Tables.Avoids (t : Tables) (v : Address) (targets : Set Address) : Prop where
  gots : ∀ entry ∈ t.pltGot, entry.2 ∉ [v, t.offsets.indirectCallSource, t.offsets.loadFrom,
    t.offsets.armorLibReturn, t.offsets.pthreadCreate, t.offsets.pthreadCreateReturn]
  retouch : ∀ target g gate, g.Gate v gate targets → (t.retouch target g).Gate v gate targets

section
variable {t : Tables} {fuel : Nat} {v : Address} {gate : BlockId} {targets : Set Address}

theorem jitNormalizeAddr_got (avoids : t.Avoids v targets) {entry : Address × Address}
    (member : entry ∈ t.pltGot) {g : Cfg} {lastLibCall : Address}
    (known : (jitNormalizeAddr t.offsets g lastLibCall entry.2).1 ≠ jitAddrUnknown) :
    (jitNormalizeAddr t.offsets g lastLibCall entry.2).1 ≠ v := by
  have plain := avoids.gots entry member
  simp only [List.mem_cons, List.not_mem_nil, or_false, not_or] at plain
  obtain ⟨other, notCall, notLoad, notReturn, notCreate, notCreated⟩ := plain
  simp only [jitNormalizeAddr, notCall, notLoad, notReturn, notCreate, notCreated, if_false,
    or_self] at known ⊢
  split_ifs at known ⊢
  · exact other
  · exact other
  · exact absurd rfl known

theorem mem_pltGot_of_scan {origA origB : Address} {pltGot : List (Address × Address)}
    (scan : scanPltGot origA origB pltGot = .inPlt) : (origA, origB) ∈ pltGot := by
  induction pltGot with
  | nil => simp [scanPltGot] at scan
  | cons entry rest ih =>
      obtain ⟨plt, got⟩ := entry
      unfold scanPltGot at scan
      split_ifs at scan with here
      · rw [here.1, here.2]
        exact List.mem_cons_self
      · exact List.mem_cons_of_mem _ (ih scan)

theorem intraJump_eq_none_of_gate {g : Cfg} (closed : g.Gate v gate targets) (b : Address) :
    g.intraJump v b = none := by
  have dummy : g.allowsFromDummy v b = false := by
    simp only [allowsFromDummy, closed.last]
    split
    case h_1 f outgoing =>
      have real := (closed.leaves f (by rw [outgoing]; exact List.mem_singleton_self f)).2
      rw [real, Bool.false_and]
    case h_2 => rfl
  have jumps : g.allowsFromJumps v = false := by
    simp only [allowsFromJumps, closed.last, intraProceduralIndirectJumpTargetsOnly]
    split_ifs with empty
    · rfl
    · obtain ⟨e, member⟩ := List.exists_mem_of_length_pos (Nat.pos_of_ne_zero empty)
      rw [List.all_eq_false]
      exact ⟨e, member, by simp [(closed.leaves e member).1]⟩
  simp [intraJump, dummy, jumps]

theorem lookupEdge_gate {s : Progress} {entry : Address × Address} {a b : Address}
    (closed : s.cfg.Gate v gate targets)
    (target : scanPltGot entry.1 entry.2 t.pltGot = .inPlt → b ≠ v) :
    (lookupEdge t fuel s entry a b).1.cfg.Gate v gate targets ∧
      ((lookupEdge t fuel s entry a b).2 = none → a = v → b ∈ targets) := by
  unfold lookupEdge
  cases found : s.cfg.findEdge a b with
  | some e =>
      refine ⟨closed, fun _ source => ?_⟩
      rw [← closed.findEdge_iff, ← source, found]
      rfl
  | none =>
      cases learned : s.cfg.intraJump a b with
      | some edge =>
          have other : a ≠ v := by
            rintro rfl
            rw [intraJump_eq_none_of_gate closed] at learned
            cases learned
          unfold intraJump at learned
          split_ifs at learned
          obtain rfl := Option.some.inj learned
          exact ⟨closed.addIntraJump other b, fun _ source => absurd source other⟩
      | none =>
          dsimp only
          unfold lookupPltGot
          cases scan : scanPltGot entry.1 entry.2 t.pltGot with
          | unsupported => exact ⟨closed, by simp [Progress.stop]⟩
          | missing => exact ⟨closed, by simp [Progress.stop]⟩
          | inPlt =>
              cases added : jitAddPltGotEdge fuel s.cfg a b with
              | error h => exact ⟨closed, by simp [Progress.stop]⟩
              | ok result =>
                  cases result with
                  | none => exact ⟨closed, by simp [Progress.stop]⟩
                  | some edge =>
                      obtain ⟨other, closed'⟩ := jitAddPltGotEdge_gate added (target scan) closed
                      exact ⟨closed', fun _ source => absurd source other⟩

theorem jitRound_gate (fuel : Nat) (avoids : t.Avoids v targets) {s : Progress} (entry : Address × Address)
    (closed : s.cfg.Gate v gate targets) :
    (jitRound t fuel s entry).1.cfg.Gate v gate targets ∧
      ((jitRound t fuel s entry).2 = none →
        ∀ g a b, searched t s entry = some (g, a, b) → a = v → b ∈ targets) := by
  cases search : searched t s entry with
  | none =>
      unfold searched at search
      dsimp only at search
      split_ifs at search with unknown
      simp only [jitRound, unknown, if_true]
      exact ⟨closed, by simp [Progress.stop]⟩
  | some asked =>
      obtain ⟨g, a, b⟩ := asked
      have shape := search
      unfold searched at shape
      dsimp only at shape
      split_ifs at shape with unknown
      simp only [Option.some.injEq, Prod.mk.injEq] at shape
      obtain ⟨graph, -, target⟩ := shape
      have parsed : g.Gate v gate targets := by
        rw [← graph]
        unfold retouched
        split_ifs
        · exact avoids.retouch _ _ _ closed
        · exact closed
      have normalized (scan : scanPltGot entry.1 entry.2 t.pltGot = .inPlt) : b ≠ v := by
        rw [not_or] at unknown
        rw [← target]
        exact jitNormalizeAddr_got avoids (mem_pltGot_of_scan scan) unknown.2
      rw [jitRound_of_searched search]
      obtain ⟨closed', allowed⟩ := lookupEdge_gate (t := t) (s := { (normalizeEntry t s entry).1 with cfg := g })
        (a := a) parsed normalized
      refine ⟨closed', fun goesOn g' a' b' same source => ?_⟩
      simp only [Option.some.injEq, Prod.mk.injEq] at same
      obtain ⟨-, rfl, rfl⟩ := same
      exact allowed goesOn source

theorem jitRounds_gate (fuel : Nat) (avoids : t.Avoids v targets) (entries : List (Address × Address))
    {s : Progress} (closed : s.cfg.Gate v gate targets) :
    (jitRounds t fuel entries s).1.cfg.Gate v gate targets ∧
      ((jitRounds t fuel entries s).2 = none → ∀ round ∈ rounds t fuel entries s,
        ∀ g a b, searched t round.1 round.2 = some (g, a, b) → a = v → b ∈ targets) := by
  induction entries generalizing s with
  | nil => exact ⟨closed, by simp [rounds]⟩
  | cons entry entries ih =>
      obtain ⟨closed', allowed⟩ := jitRound_gate fuel avoids entry closed
      rw [jitRounds, rounds]
      cases ran : jitRound t fuel s entry with
      | mk s₁ reason =>
          rw [ran] at closed' allowed
          cases reason with
          | some reason => exact ⟨closed', by simp⟩
          | none =>
              obtain ⟨rest, allowedRest⟩ := ih closed'
              refine ⟨rest, fun goesOn round member => ?_⟩
              rcases List.mem_cons.mp member with rfl | later
              · exact allowed rfl
              · exact allowedRest goesOn round later

theorem jitValidateLbr_gate (avoids : t.Avoids v targets) {d d' : Daemon} {lbr : Lbr} {verdict : Verdict}
    (validated : jitValidateLbr t fuel d lbr = .ok (verdict, d'))
    (closed : d.cfg.Gate v gate targets) : d'.cfg.Gate v gate targets := by
  have rounds := (jitRounds_gate fuel avoids (lookups t (prepared t lbr))
    (s := { cfg := d.cfg, lastLibCall := d.lastLibCall, edges := [] }) closed).1
  unfold jitValidateLbr at validated
  dsimp only at validated
  split at validated
  case h_1 s ran =>
    rw [ran] at rounds
    unfold searchPath at validated
    dsimp only at validated
    split at validated <;> cases validated <;> exact rounds
  case h_2 s v ran =>
    rw [ran] at rounds
    cases validated
    exact rounds
  case h_3 => cases validated

theorem jitValidateAll_gate (avoids : t.Avoids v targets) {d d' : Daemon} {history : List Lbr}
    (validated : jitValidateAll t fuel history d = .ok d')
    (closed : d.cfg.Gate v gate targets) : d'.cfg.Gate v gate targets := by
  induction history generalizing d with
  | nil =>
      cases validated
      exact closed
  | cons lbr history ih =>
      cases first : jitValidateLbr t fuel d lbr with
      | error h => simp [jitValidateAll, first] at validated
      | ok result =>
          simp only [jitValidateAll, first] at validated
          exact ih validated (jitValidateLbr_gate avoids first closed)

end

/-- `parse` may be called back. -/
def callbackProgram : Cfg := (callProgram.storeByte addressTaken).linkInter 4 2 .indirectCall

def callbackLbr : Lbr := .ofEntries [(0x7000, 0x400200), (0x400218, 0x40010d)]

theorem callbackProgram_gate : callbackProgram.Gate addressTaken 4 {0x400200} := by
  have opened : (callProgram.storeByte addressTaken).Gate addressTaken 4 ∅ := by
    refine Gate.storeByte_new ?_
    decide +kernel
  have start : ((callProgram.storeByte addressTaken).block 2).startAddress = 0x400200 := by
    decide +kernel
  rw [← insert_empty_eq, ← start]
  exact opened.linkInter (by decide +kernel) (by decide +kernel) .indirectCall

end PathArmor.Analyzer

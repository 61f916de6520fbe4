import PathArmor.Analyzer.Collapse
import PathArmor.Analyzer.EdgeSets
import PathArmor.Analyzer.Insert

/-!
# Rules for what building the graph keeps

The functions that build and collapse the graph only allocate and register blocks, link and relabel
edges. What these steps keep, the functions keep. A parse never gives an edge the type of a call
fallthrough, so the rules do not ask about that type.
-/

namespace PathArmor.Analyzer
open PathArmor.Library

theorem copyEdgeType_ne_callFt {edge : ParseEdge} (other : edge.type ≠ .callFt) (indirect : Bool) :
    copyEdgeType edge indirect ≠ .callFt := by
  obtain ⟨type, trg, interproc, typed⟩ := edge
  cases type with
  | callFt => exact absurd rfl other
  | noEdge => exact absurd rfl typed
  | call => cases indirect <;> simp [copyEdgeType]
  | indirect | direct => cases interproc <;> simp [copyEdgeType]
  | condTaken | condNotTaken | fallthrough | catchEdge | ret => simp [copyEdgeType]

namespace Cfg

structure Kept (P : Cfg → Prop) : Prop where
  sameHeap : ∀ {g g'}, SameHeap g g' → P g → P g'
  newBlock : ∀ {g} start endAddress last isDummy funcs, P g →
    P (g.newBlock start endAddress last isDummy funcs)
  storeBb : ∀ {g} b, P g → P (g.storeBb b)
  link : ∀ {g} source target, P g → P (g.link source target)
  setType : ∀ {g} e {type}, type ≠ ArmsEdgeType.callFt → P g → P (g.setType e type)
  setHidden : ∀ {g} e hidden, P g → P (g.setHidden e hidden)

namespace Kept
variable {P : Cfg → Prop} (kept : Kept P) {g : Cfg} (holds : P g)
include kept holds

theorem createAndAddEdge (source target : Address) : P (g.createAndAddEdge source target).1 := by
  unfold Cfg.createAndAddEdge
  cases g.findBbByLastInsnAddress source with
  | some bb =>
      dsimp only
      cases g.findBb target with
      | some cc => exact kept.link bb cc holds
      | none => exact kept.link _ _ (kept.storeBb _ (kept.newBlock _ _ _ _ _ holds))
  | none =>
      have stored := kept.storeBb g.blockCount
        (kept.newBlock source (source + 1) source false [] holds)
      dsimp only
      generalize (g.newBlock source (source + 1) source false []).storeBb g.blockCount = g₁ at *
      cases g₁.findBb target with
      | some cc => exact kept.link _ cc stored
      | none => exact kept.link _ _ (kept.storeBb _ (kept.newBlock _ _ _ _ _ stored))

theorem storeMissingBb (b : BlockId) : P (g.storeMissingBb b) := by
  unfold Cfg.storeMissingBb
  split_ifs
  · exact kept.storeBb b holds
  · exact holds

theorem createAndAddBlockEdge {source target : BlockId} {created : Cfg × EdgeId}
    (out : g.createAndAddBlockEdge source target = some created) : P created.1 := by
  simp only [Cfg.createAndAddBlockEdge] at out
  split_ifs at out
  obtain rfl := Option.some.inj out
  exact kept.link _ _ (kept.storeMissingBb (kept.storeMissingBb holds source) target)

theorem createAndAddEdgeBetween {source target : Option BlockId} {created : Cfg × Option EdgeId}
    (out : g.createAndAddEdgeBetween source target = some created) : P created.1 := by
  cases source with
  | none =>
      obtain rfl := Option.some.inj out
      exact holds
  | some source =>
      cases target with
      | none =>
          obtain rfl := Option.some.inj out
          exact holds
      | some target =>
          obtain ⟨linked, found, rfl⟩ := Option.map_eq_some_iff.mp out
          exact kept.createAndAddBlockEdge holds found

theorem createRetEdges (funCaller : Option FuncId) (funCallee : FuncId) (bbCallSite : BlockId) :
    P (g.createRetEdges funCaller funCallee bbCallSite) := by
  unfold Cfg.createRetEdges
  split
  · exact holds
  · split_ifs
    · exact List.foldlRecOn _ _ holds fun g holds retSite _ =>
        kept.setType _ (by decide) (kept.link retSite _ holds)
    · exact holds

end Kept

/-! ## Parsing -/

namespace Kept
variable {P : Cfg → Prop} (kept : Kept P)
include kept

section
variable {s : Insertion} (holds : P s.cfg)
include holds

theorem addEdge (source target : BlockId) {type : ArmsEdgeType} (other : type ≠ .callFt) :
    P (s.addEdge source target type).cfg :=
  kept.setType _ other (kept.link source target holds)

theorem createCallEdge (callSite : BlockId) (callTarget : Address) {type : ArmsEdgeType}
    (other : type ≠ .callFt) : P (s.createCallEdge callSite callTarget type).cfg := by
  unfold Insertion.createCallEdge
  cases s.cfg.findBb callTarget with
  | none => exact holds
  | some target => exact kept.addEdge holds callSite target other

theorem createRetEdgesAt (callSite : BlockId) (target : Address) :
    P (s.createRetEdges callSite target).cfg := by
  unfold Insertion.createRetEdges
  split
  · refine List.foldlRecOn (motive := fun s : Insertion => P s.cfg) _ _ holds fun s holds f _ => ?_
    exact List.foldlRecOn (motive := fun s : Insertion => P s.cfg) _ _ holds fun s holds retSite _ =>
      kept.addEdge holds retSite _ (by decide)
  · exact holds

theorem handleInterproceduralCall (callSite : BlockId) (target : Address) {type : ArmsEdgeType}
    (other : type ≠ .callFt) : P (s.handleInterproceduralCall callSite target type).cfg := by
  have called := kept.createCallEdge holds callSite target other
  simp only [Insertion.handleInterproceduralCall]
  split_ifs
  · exact kept.createRetEdgesAt called callSite target
  · exact called

theorem insertEdge (resolver : Address → List Address) (armsFun : Option FuncId) (source : BlockId)
    (block : ParseBlock) (edge : ParseEdge) :
    P (Insertion.insertEdge resolver armsFun source block s edge).cfg := by
  unfold Insertion.insertEdge
  split_ifs with callFt
  · exact holds
  · exact holds
  · have other := copyEdgeType_ne_callFt callFt (edge.trg == sink)
    cases Insertion.findTarget s.cfg edge with
    | some target => exact kept.addEdge holds source target other
    | none =>
        dsimp only
        split_ifs
        · exact List.foldlRecOn (motive := fun s : Insertion => P s.cfg) _ _ holds fun s holds t _ =>
            kept.handleInterproceduralCall holds source t (by decide)
        · refine kept.addEdge ?_ source _ other
          exact kept.newBlock _ _ _ _ _ holds

theorem insertEdges (resolver : Address → List Address) (p : ParseResult) :
    P (s.insertEdges resolver p).cfg := by
  rw [Insertion.insertEdges_eq]
  refine List.foldlRecOn (motive := fun s : Insertion => P s.cfg) _ _ holds fun s holds entry _ => ?_
  simp only [Insertion.insertBlockEdges]
  cases s.cfg.findBb entry.2.start with
  | none => exact holds
  | some source =>
      exact List.foldlRecOn (motive := fun s : Insertion => P s.cfg) _ _ holds fun s holds edge _ =>
        kept.insertEdge holds resolver _ source entry.2 edge

end

theorem createBb {g : Cfg} (holds : P g) (blockAddress : BlockId → Nat) (block : ParseBlock) :
    P (g.createBb blockAddress block) := by
  by_cases missing : g.findBb block.start = none
  · exact kept.sameHeap (createBb_same missing) (kept.storeBb _ (kept.newBlock _ _ _ _ _ holds))
  · rwa [createBb_of_found missing]

theorem insertFunctionsAndBbs {s : Insertion} (holds : P s.cfg) (p : ParseResult) :
    P (s.insertFunctionsAndBbs p).cfg := by
  have functions : P (p.funcs.foldl createFunction s.cfg) :=
    kept.sameHeap (.foldl (fun func _ _ => .createFunction func) _) holds
  have blocks : P (s.insertBlocks p) :=
    List.foldlRecOn p.blocks _ functions fun g holds block _ =>
      kept.createBb holds s.blockAddress block
  exact kept.sameHeap (Insertion.insertFunctionsAndBbs_same p _) blocks

theorem parseAll {s : Insertion} (holds : P s.cfg) (p : ParseResult) : P (s.parseAll p).cfg := by
  have range := kept.sameHeap (Insertion.setModuleRange_same p s) holds
  have inserted := kept.insertFunctionsAndBbs range p
  exact kept.sameHeap (Insertion.markPlts_same p _) inserted

theorem tryParseAPI {s : Insertion} (holds : P s.cfg) (resolver : Address → List Address)
    (p : ParseResult) : P (s.tryParseAPI resolver p).cfg :=
  kept.insertEdges (kept.parseAll holds p) resolver p

theorem retouch {s : Insertion} (holds : P s.cfg) (resolver : Address → List Address)
    (p : ParseResult) : P (s.retouch resolver p).cfg :=
  kept.insertEdges (kept.insertFunctionsAndBbs (kept.parseAll holds p) p) resolver p

/-! ## Collapsing -/

theorem recordExit {s : Collapse} (holds : P s.cfg) (bb cc : BlockId) :
    Returns (s.recordExit bb cc) True fun s => P s.cfg := by
  unfold Collapse.recordExit createFastpath
  split_ifs
  · exact .of_some holds
  · exact .of_some holds
  · cases created : s.cfg.createAndAddBlockEdge bb cc with
    | none => exact .of_none trivial
    | some added =>
        exact .of_some (kept.setType _ (by decide) (kept.createAndAddBlockEdge holds created))

theorem scanEdge {s : Collapse} (holds : P s.cfg) (bb cc : BlockId) (w : Worklist BlockId)
    (e : EdgeId) : Returns (scanEdge bb cc (s, w) e) True fun state => P state.1.cfg := by
  simp only [Cfg.scanEdge]
  split_ifs
  · exact .of_some holds
  · exact (kept.recordExit holds bb cc).map fun _ => id
  · exact .of_some (kept.setHidden e true holds)

theorem searchBlock {s : Collapse} (holds : P s.cfg) (bb cc : BlockId) (w : Worklist BlockId) :
    Returns (searchBlock bb cc (s, w)) True fun state => P state.1.cfg := by
  have entered : Returns (if (s.cfg.outgoing cc).length = 0 then s.recordExit bb cc else some s) True
      fun s => P s.cfg := by
    split_ifs
    · exact kept.recordExit holds bb cc
    · exact .of_some holds
  refine entered.bind fun s holds => Returns.foldlM_invariant ?_ holds
  intro e _ state holds
  exact kept.scanEdge holds bb cc state.2 e

/-- Of a graph that fails an assertion nothing is said. -/
theorem simplifyCfg {g : Cfg} (holds : P g) : Returns g.simplifyCfg True P := by
  have collapseBlock (bb : BlockId) (g : Cfg) (holds : P g) : Returns (g.collapseBlock bb) True P :=
    (Worklist.search_invariant (fun cc _ w holds => kept.searchBlock holds bb cc w) holds).map
      fun _ => id
  refine Returns.foldlM_invariant (fun entry _ g holds => ?_) holds
  unfold collapseFunction
  split_ifs
  · exact .of_some holds
  · exact Returns.foldlM_invariant (fun bb _ g holds => collapseBlock bb g holds) holds

end Kept

end Cfg

end PathArmor.Analyzer

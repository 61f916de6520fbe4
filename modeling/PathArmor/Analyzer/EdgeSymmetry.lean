import PathArmor.Analyzer.GraphRules
import PathArmor.Library.Transition

/-!
# Edges are stored symmetrically

The search forward and the search backward see the same graph as long as every edge is in the sets
of both its ends. Adding and unlinking edges keeps this; dropping a call fallthrough edge need not,
because each end picks the edge that goes by itself.
-/

namespace PathArmor.Analyzer
open PathArmor.Library

namespace Cfg
variable (g : Cfg)

/-- An edge is in the outgoing set of its source if and only if it is in the incoming set of its
target, and in no set of another block. -/
structure Symmetric : Prop where
  both : ∀ e, e ∈ g.outgoing (g.source e) ↔ e ∈ g.incoming (g.target e)
  onlySource : ∀ e b, e ∈ g.outgoing b → b = g.source e
  onlyTarget : ∀ e b, e ∈ g.incoming b → b = g.target e

/-- The call fallthrough edge that comes first among those that leave `b` comes first among those
that enter its target. -/
def DropsOneEdge (b : BlockId) : Prop :=
  ∀ e ∈ g.firstCallFt (g.outgoing b), e ∈ g.firstCallFt (g.incoming (g.target e))

instance (b : BlockId) : Decidable (g.DropsOneEdge b) :=
  inferInstanceAs (Decidable (∀ e ∈ g.firstCallFt (g.outgoing b), _))

end Cfg

inductive EdgeOp
  | createAndAddEdge (source target : Address)
  | createAndAddEdgeBetween (source target : Option BlockId)
  | createCallEdge (bbCallSite : BlockId) (callTarget : Address) (type : ArmsEdgeType)
  | createCallEdgeBetween (funCaller funCallee : Option FuncId) (callSite callTarget : Address)
      (type : ArmsEdgeType)
  | createRetEdges (bbCallSite : BlockId) (target : Address)
  | createRetEdgesBetween (funCaller : Option FuncId) (funCallee : FuncId) (bbCallSite : BlockId)
  | dropCallFtEdge (bb : BlockId)
  | unlink (e : EdgeId)

def EdgeOp.Plain : EdgeOp → Prop
  | .createCallEdge .. | .createCallEdgeBetween .. | .dropCallFtEdge _ | .unlink _ => False
  | _ => True

namespace Insertion

def onCfg (s : Insertion) (change : Cfg → Cfg) : Insertion := { s with cfg := change s.cfg }

/-- The members of `CFG`, `ArmsBasicBlock` and `ArmsEdge` that change the sets of edges. A failed
assertion ends the run. -/
def edgeOps : System Insertion EdgeOp where
  step s
    | .createAndAddEdge source target => some (s.onCfg fun g => (g.createAndAddEdge source target).1)
    | .createAndAddEdgeBetween source target =>
        (s.cfg.createAndAddEdgeBetween source target).map fun (g, _) => { s with cfg := g }
    | .createCallEdge site target type => some (s.createCallEdge site target type)
    | .createCallEdgeBetween caller callee site target type =>
        some (s.onCfg fun g => (g.createCallEdge caller callee site target type).1)
    | .createRetEdges site target => some (s.createRetEdges site target)
    | .createRetEdgesBetween caller callee site =>
        some (s.onCfg (·.createRetEdges caller callee site))
    | .dropCallFtEdge b => some (s.onCfg (·.dropCallFtEdge b))
    | .unlink e => some (s.onCfg (·.unlink e))

/-- If the operation drops a call fallthrough edge, then it drops one and the same at both ends. -/
def DropsMatch (s : Insertion) : EdgeOp → Prop
  | .dropCallFtEdge b => s.cfg.DropsOneEdge b
  | .createCallEdgeBetween caller callee site target type => edgeTypeIsCall type →
      ∀ b c, s.cfg.findBbByLastInsnAddress site = some b → s.cfg.getFunction b = caller →
        s.cfg.findBb target = some c → s.cfg.getFunction c = callee → s.cfg.DropsOneEdge b
  | _ => True

end Insertion

namespace Cfg
variable {g : Cfg} {b : BlockId} {e f : EdgeId}

theorem symmetric_iff : g.Symmetric ↔ g.departing = g.arriving := by
  constructor
  · intro symmetric
    ext e
    exact symmetric.both e
  · intro same
    exact ⟨fun e => Set.ext_iff.mp same e, fun e b member => (g.outgoing_source b e member).symm,
      fun e b member => (g.incoming_target b e member).symm⟩

/-! ## Edges are added at both ends -/

namespace Symmetric

theorem of_same {g' : Cfg} (symmetric : g.Symmetric) (outgoing : ∀ b, g'.outgoing b = g.outgoing b)
    (incoming : ∀ b, g'.incoming b = g.incoming b) (source : ∀ e, g'.source e = g.source e)
    (target : ∀ e, g'.target e = g.target e) : g'.Symmetric where
  both e := by
    rw [outgoing, incoming, source, target]
    exact symmetric.both e
  onlySource e b member := by
    rw [source]
    exact symmetric.onlySource e b (outgoing b ▸ member)
  onlyTarget e b member := by
    rw [target]
    exact symmetric.onlyTarget e b (incoming b ▸ member)

theorem of_sameHeap {g' : Cfg} (symmetric : g.Symmetric) (same : SameHeap g g') : g'.Symmetric := by
  apply symmetric.of_same
  · intro b
    rw [outgoing, same.block]
  · intro b
    rw [incoming, same.block]
  · intro e
    rw [source, same.edge]
  · intro e
    rw [target, same.edge]

theorem updateEdge (symmetric : g.Symmetric) (e : EdgeId) (change : ArmsEdge → ArmsEdge)
    (keepsSource : ∀ x, (change x).source = x.source)
    (keepsTarget : ∀ x, (change x).target = x.target) :
    (g.updateEdge e change keepsSource keepsTarget).Symmetric := by
  apply symmetric.of_same
  · exact fun _ => rfl
  · exact fun _ => rfl
  · exact updateEdge_source e
  · exact updateEdge_target e

theorem setType (symmetric : g.Symmetric) (e : EdgeId) (type : ArmsEdgeType) :
    (g.setType e type).Symmetric := symmetric.updateEdge e _ _ _

theorem newBlock (symmetric : g.Symmetric) (start endAddress last : Address) (isDummy : Bool)
    (funcs : List FuncId) : (g.newBlock start endAddress last isDummy funcs).Symmetric :=
  symmetric.of_same newBlock_outgoing newBlock_incoming (fun _ => rfl) (fun _ => rfl)

theorem storeBb (symmetric : g.Symmetric) (b : BlockId) : (g.storeBb b).Symmetric := by
  obtain ⟨block, edge, -⟩ := storeBb_same (g := g) b
  apply symmetric.of_same <;> intro x
  · rw [outgoing, block]
  · rw [incoming, block]
  · rw [source, edge]
  · rw [target, edge]

theorem link (symmetric : g.Symmetric) (source target : BlockId) :
    (g.link source target).Symmetric := by
  by_cases bound : source < g.blockCount ∧ target < g.blockCount
  · rw [symmetric_iff, link_departing bound, link_arriving bound, symmetric_iff.mp symmetric]
  · rwa [Cfg.link, dif_neg bound]

theorem unlink (symmetric : g.Symmetric) (e : EdgeId) : (g.unlink e).Symmetric := by
  have departing : (g.unlink e).departing = g.departing \ {e} := by
    rw [Cfg.unlink, deleteIncomingEdge_departing, deleteOutgoingEdge_departing rfl]
  have target : (g.deleteOutgoingEdge (g.source e) e).target e = g.target e := rfl
  have arriving : (g.unlink e).arriving = g.arriving \ {e} := by
    rw [Cfg.unlink, deleteIncomingEdge_arriving target, deleteOutgoingEdge_arriving]
  rw [symmetric_iff, departing, arriving, symmetric_iff.mp symmetric]

end Symmetric

theorem symmetric_kept : Kept Symmetric where
  sameHeap same symmetric := symmetric.of_sameHeap same
  newBlock _ _ _ _ _ symmetric := symmetric.newBlock _ _ _ _ _
  storeBb b symmetric := symmetric.storeBb b
  link source target symmetric := symmetric.link source target
  setType e _ _ symmetric := symmetric.setType e _
  setHidden e _ symmetric := symmetric.updateEdge e _ _ _

end Cfg

/-! ## Call fallthrough edges are dropped at both ends -/

namespace Cfg
variable {g : Cfg} {b : BlockId} {e f : EdgeId}

theorem Symmetric.exists_enters (symmetric : g.Symmetric)
    (leaves : g.firstCallFt (g.outgoing b) = some e) :
    ∃ f, g.firstCallFt (g.incoming (g.target e)) = some f := by
  have departs : g.IsEdge e := isEdge_of_mem (mem_of_firstCallFt leaves)
  have arrives : e ∈ g.incoming (g.target e) := (symmetric.both e).mp departs
  apply Option.ne_none_iff_exists'.mp
  intro none
  exact List.find?_eq_none.mp none e arrives (by simp [type_of_firstCallFt leaves])

theorem dropCallFtEdge_symmetric_iff (symmetric : g.Symmetric) :
    (g.dropCallFtEdge b).Symmetric ↔ g.DropsOneEdge b := by
  cases leaves : g.firstCallFt (g.outgoing b) with
  | none => simp [dropCallFtEdge, DropsOneEdge, leaves, symmetric]
  | some e =>
      have departs : e ∈ g.departing := isEdge_of_mem (mem_of_firstCallFt leaves)
      obtain ⟨f, enters⟩ := symmetric.exists_enters leaves
      obtain ⟨departing, arriving⟩ := dropCallFtEdge_ends leaves enters
      have one : g.DropsOneEdge b ↔ f = e := by simp [DropsOneEdge, leaves, enters]
      rw [symmetric_iff, departing, arriving, ← symmetric_iff.mp symmetric, one]
      constructor
      · intro same
        by_contra other
        have kept : e ∈ g.departing \ {f} := ⟨departs, fun equal => other equal.symm⟩
        rw [← same] at kept
        exact kept.2 rfl
      · rintro rfl
        rfl

/-! ## A call edge replaces a call fallthrough edge -/

theorem startEdge_dropCallFtEdge {site target : BlockId} {type : ArmsEdgeType}
    (bound : site < g.blockCount ∧ target < g.blockCount) (symmetric : g.Symmetric)
    (isCall : edgeTypeIsCall type) :
    ((g.startEdge site target type).dropCallFtEdge site).departing =
        insert g.edgeCount (g.dropCallFtEdge site).departing ∧
      ((g.startEdge site target type).dropCallFtEdge site).arriving =
        (g.dropCallFtEdge site).arriving := by
  have leaves' := startEdge_leaves bound isCall
  cases leaves : g.firstCallFt (g.outgoing site) with
  | none =>
      rw [leaves] at leaves'
      simp only [dropCallFtEdge, leaves, leaves']
      exact ⟨startEdge_departing bound, startEdge_arriving bound⟩
  | some e =>
      obtain ⟨f, enters⟩ := symmetric.exists_enters leaves
      have before := dropCallFtEdge_ends leaves enters
      have after := dropCallFtEdge_ends (leaves'.trans leaves) ((startEdge_enters bound leaves).trans enters)
      have apart : g.edgeCount ≠ e := (g.outgoing_lt site e (mem_of_firstCallFt leaves)).ne'
      rw [before.1, before.2, after.1, after.2, startEdge_departing bound, startEdge_arriving bound,
        Set.insert_sdiff_singleton_comm apart]
      exact ⟨rfl, rfl⟩

theorem symmetric_of_insert {g' : Cfg} (departing : g'.departing = insert g.edgeCount g.departing)
    (arriving : g'.arriving = insert g.edgeCount g.arriving) : g'.Symmetric ↔ g.Symmetric := by
  rw [symmetric_iff, symmetric_iff, departing, arriving]
  constructor
  · intro same
    rw [← Set.insert_sdiff_self_of_notMem g.edgeCount_not_departing, same,
      Set.insert_sdiff_self_of_notMem g.edgeCount_not_arriving]
  · intro same
    rw [same]

/-- The far end learns of the edge last. -/
theorem attachIncoming_symmetric_iff {h : Cfg} {target : BlockId}
    (departing : g.departing = insert h.edgeCount h.departing) (arriving : g.arriving = h.arriving)
    (ends : g.target h.edgeCount = target) (allocated : h.edgeCount < g.edgeCount) :
    (g.attachIncoming target h.edgeCount).Symmetric ↔ h.Symmetric := by
  apply symmetric_of_insert
  · rw [attachIncoming_departing, departing]
  · rw [attachIncoming_arriving ends allocated, arriving]

/-- The edge is made if both blocks are found, each in its function, and the graph stays as it is
otherwise. -/
theorem createCallEdge_cases (caller callee : Option FuncId) (callSite callTarget : Address)
    (type : ArmsEdgeType) :
    (∃ site target, (g.findBbByLastInsnAddress callSite = some site ∧ g.getFunction site = caller ∧
        g.findBb callTarget = some target ∧ g.getFunction target = callee) ∧
      (site < g.blockCount ∧ target < g.blockCount) ∧
      (g.createCallEdge caller callee callSite callTarget type).1 =
        (if edgeTypeIsCall type then (g.startEdge site target type).dropCallFtEdge site
          else g.startEdge site target type).attachIncoming target g.edgeCount) ∨
    (∀ site target, g.findBbByLastInsnAddress callSite = some site → g.getFunction site = caller →
        g.findBb callTarget = some target → g.getFunction target ≠ callee) ∧
      (g.createCallEdge caller callee callSite callTarget type).1 = g := by
  unfold createCallEdge
  cases siteFound : g.findBbByLastInsnAddress callSite with
  | none => simp
  | some site =>
      cases targetFound : g.findBb callTarget with
      | none => simp
      | some target =>
          by_cases owned : g.getFunction site = caller ∧ g.getFunction target = callee
          · refine .inl ⟨site, target, ⟨rfl, owned.1, rfl, owned.2⟩, ?_, if_pos owned⟩
            exact ⟨findBbByLastInsnAddress_lt siteFound, findBb_lt targetFound⟩
          · refine .inr ⟨fun b c foundB callerB foundC calleeC => owned ?_, if_neg owned⟩
            obtain rfl := Option.some.inj foundB
            obtain rfl := Option.some.inj foundC
            exact ⟨callerB, calleeC⟩

theorem createCallEdge_symmetric_iff (symmetric : g.Symmetric) {caller callee : Option FuncId}
    {callSite callTarget : Address} {type : ArmsEdgeType} :
    (g.createCallEdge caller callee callSite callTarget type).1.Symmetric ↔
      (edgeTypeIsCall type → ∀ b c, g.findBbByLastInsnAddress callSite = some b →
        g.getFunction b = caller → g.findBb callTarget = some c → g.getFunction c = callee →
        g.DropsOneEdge b) := by
  rcases g.createCallEdge_cases caller callee callSite callTarget type with
    ⟨site, target, ⟨siteFound, siteOwned, targetFound, targetOwned⟩, bound, created⟩ |
      ⟨missing, unchanged⟩
  · have ends : (g.startEdge site target type).target g.edgeCount = target := by
      rw [Cfg.target, startEdge_edge_new bound, ArmsEdge.setType_target]
    have allocated : g.edgeCount < (g.startEdge site target type).edgeCount := by
      rw [(startEdge_same bound).2]
      exact Nat.lt_succ_self _
    rw [created]
    split_ifs with isCall
    · have same := dropCallFtEdge_same (g := g) site
      have started := dropCallFtEdge_same (g := g.startEdge site target type) site
      obtain ⟨departing, arriving⟩ := startEdge_dropCallFtEdge bound symmetric isCall
      rw [← same.2] at departing ends allocated ⊢
      rw [attachIncoming_symmetric_iff departing arriving, dropCallFtEdge_symmetric_iff symmetric]
      · simp [isCall, siteFound, siteOwned, targetFound, targetOwned]
      · rwa [Cfg.target, started.1]
      · rwa [started.2]
    · rw [attachIncoming_symmetric_iff (startEdge_departing bound) (startEdge_arriving bound) ends
        allocated]
      simp [isCall, symmetric]
  · rw [unchanged]
    refine iff_of_true symmetric fun _ b c foundB callerB foundC calleeC => ?_
    exact absurd calleeC (missing b c foundB callerB foundC)

end Cfg

/-! ## Runs -/

namespace Insertion
open Cfg

/-- What building the graph keeps, the operations keep that only add edges of other types. -/
theorem step_kept {P : Cfg → Prop} (kept : Kept P) {s s' : Insertion} {op : EdgeOp}
    (holds : P s.cfg) (stepped : edgeOps.step s op = some s') (plain : op.Plain) : P s'.cfg := by
  cases op with
  | createAndAddEdge source target =>
      obtain rfl := Option.some.inj stepped
      exact kept.createAndAddEdge holds source target
  | createAndAddEdgeBetween source target =>
      obtain ⟨created, out, rfl⟩ := Option.map_eq_some_iff.mp stepped
      exact kept.createAndAddEdgeBetween holds out
  | createRetEdges site target =>
      obtain rfl := Option.some.inj stepped
      exact kept.createRetEdgesAt holds site target
  | createRetEdgesBetween caller callee site =>
      obtain rfl := Option.some.inj stepped
      exact kept.createRetEdges holds caller callee site
  | createCallEdge | createCallEdgeBetween | dropCallFtEdge | unlink => exact plain.elim

theorem step_symmetric_iff {s s' : Insertion} {op : EdgeOp} (symmetric : s.cfg.Symmetric)
    (stepped : edgeOps.step s op = some s') : s'.cfg.Symmetric ↔ s.DropsMatch op := by
  cases op with
  | createCallEdge site target type =>
      obtain rfl := Option.some.inj stepped
      refine iff_of_true ?_ trivial
      unfold createCallEdge
      cases s.cfg.findBb target with
      | none => exact symmetric
      | some callTarget => exact (symmetric.link site callTarget).setType _ type
  | createCallEdgeBetween caller callee site target type =>
      obtain rfl := Option.some.inj stepped
      exact createCallEdge_symmetric_iff symmetric
  | dropCallFtEdge b =>
      obtain rfl := Option.some.inj stepped
      exact dropCallFtEdge_symmetric_iff symmetric
  | unlink e =>
      obtain rfl := Option.some.inj stepped
      exact iff_of_true (symmetric.unlink e) trivial
  | createAndAddEdge | createAndAddEdgeBetween | createRetEdges | createRetEdgesBetween =>
      exact iff_of_true (step_kept symmetric_kept symmetric stepped trivial) trivial

/-- Only the edge between given blocks is guarded by assertions. -/
theorem dropsMatch_of_stuck {s : Insertion} {op : EdgeOp} (stuck : edgeOps.step s op = none) :
    s.DropsMatch op := by
  cases op with
  | createAndAddEdgeBetween source target => trivial
  | _ => cases stuck

/-- Edges stay stored at both ends exactly as long as each call fallthrough edge that is dropped is
the first one at both ends. -/
theorem edgeOps_symmetric_iff (s : Insertion) (symmetric : s.cfg.Symmetric) (ops : List EdgeOp) :
    (∀ done s', done <+: ops → edgeOps.exec s done = some s' → s'.cfg.Symmetric) ↔
      ∀ done op s', done ++ [op] <+: ops → edgeOps.exec s done = some s' → s'.DropsMatch op :=
  edgeOps.exec_invariant_iff (fun _ _ _ => step_symmetric_iff) (fun _ _ => dropsMatch_of_stuck)
    symmetric ops

theorem ofEmpty_symmetric (edgeAddress : EdgeId → Nat) (blockAddress : BlockId → Nat) :
    (ofEmpty edgeAddress blockAddress).cfg.Symmetric :=
  ⟨fun _ => Iff.rfl, fun _ _ member => absurd member List.not_mem_nil,
    fun _ _ member => absurd member List.not_mem_nil⟩

/-- Two calls that end at the same address, one within the other, each with an edge to the block
behind it. -/
def sharedFallthrough : List EdgeOp :=
  [.createAndAddEdge 0x1000 0x1005, .createAndAddEdge 0x1003 0x1005,
    .createCallEdge 0 0x1005 .callFt, .createCallEdge 2 0x1005 .callFt]

/-- The first block has the first edge at both ends. -/
theorem edgeOps_symmetric_first : ∃ s',
    edgeOps.exec (ofEmpty id id) (sharedFallthrough ++ [.dropCallFtEdge 0]) = some s' ∧
      s'.cfg.Symmetric := by
  have additions : ∀ op ∈ sharedFallthrough, ∀ s : Insertion, s.DropsMatch op := by
    simp [sharedFallthrough, DropsMatch]
  have throughout := (edgeOps_symmetric_iff _ (ofEmpty_symmetric id id)
    (sharedFallthrough ++ [.dropCallFtEdge 0])).mpr
  refine ⟨_, rfl, throughout ?_ _ _ (List.prefix_refl _) rfl⟩
  intro done op s' isPrefix executed
  cases List.prefix_concat_iff.mp isPrefix with
  | inl whole =>
      obtain ⟨rfl, last⟩ := List.append_inj' whole rfl
      obtain rfl := List.singleton_inj.mp last
      obtain rfl := Option.some.inj executed
      change Cfg.DropsOneEdge _ 0
      decide
  | inr earlier => exact additions op (earlier.subset (by simp)) s'

/-- The second block drops its own edge, and its target the one from the first block. -/
theorem drop_leaves_halves : (ofEmpty id id).cfg.Symmetric ∧
    ∃ s', edgeOps.exec (ofEmpty id id) (sharedFallthrough ++ [.dropCallFtEdge 2]) = some s' ∧
      2 ∈ s'.cfg.outgoing 0 ∧ 2 ∉ s'.cfg.incoming 1 ∧
      3 ∉ s'.cfg.outgoing 2 ∧ 3 ∈ s'.cfg.incoming 1 ∧ ¬ s'.cfg.Symmetric := by
  refine ⟨ofEmpty_symmetric id id, _, rfl, by decide, by decide, by decide, by decide, ?_⟩
  intro symmetric
  have both := symmetric.both 3
  revert both
  decide

end Insertion

/-! ## One call fallthrough edge into each block -/

namespace Cfg
variable {g g' : Cfg} {b : BlockId} {e : EdgeId}

def SingleCallFt (g : Cfg) : Prop :=
  ∀ b e f, e ∈ g.incoming b → f ∈ g.incoming b → (g.edge e).type = .callFt →
    (g.edge f).type = .callFt → e = f

theorem Symmetric.dropsOneEdge (symmetric : g.Symmetric) (single : g.SingleCallFt) (b : BlockId) :
    g.DropsOneEdge b := by
  intro e leaves
  obtain ⟨f, enters⟩ := symmetric.exists_enters leaves
  have departs : g.IsEdge e := isEdge_of_mem (mem_of_firstCallFt leaves)
  obtain rfl : f = e := single _ f e (mem_of_firstCallFt enters) ((symmetric.both e).mp departs)
    (type_of_firstCallFt enters) (type_of_firstCallFt leaves)
  exact enters

namespace SingleCallFt

theorem of_old (single : g.SingleCallFt) (old : ∀ b, ∀ e ∈ g'.incoming b,
    (g'.edge e).type = .callFt → e ∈ g.incoming b ∧ (g.edge e).type = .callFt) :
    g'.SingleCallFt := by
  intro b e f entersE entersF typeE typeF
  obtain ⟨oldE, typeE⟩ := old b e entersE typeE
  obtain ⟨oldF, typeF⟩ := old b f entersF typeF
  exact single b e f oldE oldF typeE typeF

theorem of_subset (single : g.SingleCallFt) (edge : g'.edge = g.edge)
    (fewer : ∀ b, g'.incoming b ⊆ g.incoming b) : g'.SingleCallFt :=
  single.of_old fun b _ enters type => ⟨fewer b enters, edge ▸ type⟩

theorem newBlock (single : g.SingleCallFt) (start endAddress last : Address) (isDummy : Bool)
    (funcs : List FuncId) : (g.newBlock start endAddress last isDummy funcs).SingleCallFt :=
  single.of_subset rfl fun b => by rw [newBlock_incoming]; exact List.Subset.refl _

theorem storeBb (single : g.SingleCallFt) (b : BlockId) : (g.storeBb b).SingleCallFt := by
  obtain ⟨block, edge, -⟩ := storeBb_same (g := g) b
  refine single.of_subset edge fun c => ?_
  rw [incoming, block]
  exact List.Subset.refl _

theorem link (single : g.SingleCallFt) (source target : BlockId) :
    (g.link source target).SingleCallFt := by
  by_cases bound : source < g.blockCount ∧ target < g.blockCount
  · refine single.of_old fun b e enters type => ?_
    rw [link_edge bound] at type
    rcases (mem_incoming_link bound).mp enters with ⟨-, rfl⟩ | old
    · rw [Function.update_self] at type
      cases type
    · rw [Function.update_of_ne (g.incoming_lt b e old).ne] at type
      exact ⟨old, type⟩
  · rwa [Cfg.link, dif_neg bound]

theorem setType (single : g.SingleCallFt) (e : EdgeId) {type : ArmsEdgeType}
    (other : type ≠ .callFt) : (g.setType e type).SingleCallFt := by
  refine single.of_old fun b x enters typeX => ⟨enters, ?_⟩
  rw [setType_edge] at typeX
  rcases eq_or_ne x e with rfl | apart
  · rw [Function.update_self, ArmsEdge.setType_type] at typeX
    exact absurd typeX other
  · rwa [Function.update_of_ne apart] at typeX

theorem deleteOutgoingEdge (single : g.SingleCallFt) (b : BlockId) (e : EdgeId) :
    (g.deleteOutgoingEdge b e).SingleCallFt := by
  refine single.of_subset rfl fun c => ?_
  rw [Cfg.deleteOutgoingEdge, setEdges_incoming]
  split_ifs with here
  · rw [here]
    exact List.Subset.refl _
  · exact List.Subset.refl _

theorem deleteIncomingEdge (single : g.SingleCallFt) (b : BlockId) (e : EdgeId) :
    (g.deleteIncomingEdge b e).SingleCallFt := by
  refine single.of_subset rfl fun c => ?_
  rw [Cfg.deleteIncomingEdge, setEdges_incoming]
  split_ifs with here
  · rw [here]
    exact List.erase_subset
  · exact List.Subset.refl _

theorem dropCallFtEdge (single : g.SingleCallFt) (b : BlockId) :
    (g.dropCallFtEdge b).SingleCallFt := by
  unfold Cfg.dropCallFtEdge dropIncomingCallFtEdge
  cases g.firstCallFt (g.outgoing b) with
  | none => exact single
  | some e =>
      dsimp only
      cases g.firstCallFt (g.incoming (g.target e)) with
      | none => exact single.deleteOutgoingEdge b e
      | some f => exact (single.deleteIncomingEdge _ f).deleteOutgoingEdge b e

theorem startEdge (single : g.SingleCallFt) {site target : BlockId} {type : ArmsEdgeType}
    (bound : site < g.blockCount ∧ target < g.blockCount) :
    (g.startEdge site target type).SingleCallFt := by
  refine single.of_old fun b e enters typeE => ?_
  rw [startEdge_incoming bound] at enters
  rw [startEdge_edge_old bound (g.incoming_lt b e enters)] at typeE
  exact ⟨enters, typeE⟩

theorem attachIncoming (single : g.SingleCallFt) (b : BlockId)
    (other : (g.edge e).type ≠ .callFt) : (g.attachIncoming b e).SingleCallFt := by
  unfold Cfg.attachIncoming
  split_ifs
  · refine single.of_old fun c x enters type => ⟨?_, type⟩
    rw [setEdges_incoming] at enters
    split_ifs at enters with here
    · rcases g.mem_insertEdge.mp enters with rfl | old
      · exact absurd type other
      · rwa [here]
    · exact enters
  · exact single

theorem createCallEdge (single : g.SingleCallFt) (caller callee : Option FuncId)
    (callSite callTarget : Address) {type : ArmsEdgeType} (other : type ≠ .callFt) :
    (g.createCallEdge caller callee callSite callTarget type).1.SingleCallFt := by
  rcases g.createCallEdge_cases caller callee callSite callTarget type with
    ⟨site, target, -, bound, created⟩ | ⟨-, unchanged⟩
  · have started : ((g.startEdge site target type).edge g.edgeCount).type ≠ .callFt := by
      rw [startEdge_edge_new bound, ArmsEdge.setType_type]
      exact other
    rw [created]
    split_ifs
    · refine ((single.startEdge bound).dropCallFtEdge site).attachIncoming target ?_
      rwa [(dropCallFtEdge_same site).1]
    · exact (single.startEdge bound).attachIncoming target started
  · rwa [unchanged]

end SingleCallFt

theorem singleCallFt_kept : Kept SingleCallFt where
  sameHeap same single := single.of_subset same.edge fun b => by
    rw [incoming, same.block]
    exact List.Subset.refl _
  newBlock _ _ _ _ _ single := single.newBlock _ _ _ _ _
  storeBb b single := single.storeBb b
  link source target single := single.link source target
  setType e _ other single := single.setType e other
  setHidden e _ single := single.of_old fun b x enters type =>
    ⟨enters, (setHidden_type e x _).symm.trans type⟩

end Cfg

/-- The operations that may add a call fallthrough edge. -/
def EdgeOp.AddsCallFt : EdgeOp → Prop
  | .createCallEdge _ _ type => type = .callFt
  | .createCallEdgeBetween _ _ _ _ type => type = .callFt
  | _ => False

namespace Insertion
open Cfg

theorem step_singleCallFt {s s' : Insertion} {op : EdgeOp} (single : s.cfg.SingleCallFt)
    (adds : ¬ op.AddsCallFt) (stepped : edgeOps.step s op = some s') : s'.cfg.SingleCallFt := by
  cases op with
  | createCallEdge site target type =>
      obtain rfl := Option.some.inj stepped
      exact singleCallFt_kept.createCallEdge single site target adds
  | createCallEdgeBetween caller callee site target type =>
      obtain rfl := Option.some.inj stepped
      exact single.createCallEdge caller callee site target adds
  | dropCallFtEdge b =>
      obtain rfl := Option.some.inj stepped
      exact single.dropCallFtEdge b
  | unlink e =>
      obtain rfl := Option.some.inj stepped
      exact (single.deleteOutgoingEdge _ e).deleteIncomingEdge _ e
  | createAndAddEdge | createAndAddEdgeBetween | createRetEdges | createRetEdgesBetween =>
      exact step_kept singleCallFt_kept single stepped trivial

/-- As long as no second call fallthrough edge into a block appears, the two ends agree about the
edge to drop. -/
theorem exec_symmetric_of_single {s s' : Insertion} {ops : List EdgeOp}
    (symmetric : s.cfg.Symmetric) (single : s.cfg.SingleCallFt)
    (adds : ∀ op ∈ ops, ¬ op.AddsCallFt) (executed : edgeOps.exec s ops = some s') :
    s'.cfg.Symmetric ∧ s'.cfg.SingleCallFt := by
  have run : edgeOps.Run (fun _ op => ¬ op.AddsCallFt) s ops s' :=
    .of_exec (fun op member _ => adds op member) executed
  refine run.invariant (P := fun s => s.cfg.Symmetric ∧ s.cfg.SingleCallFt) ?_ ⟨symmetric, single⟩
  rintro s op s' ⟨symmetric, single⟩ adds stepped
  refine ⟨(step_symmetric_iff symmetric stepped).mpr ?_, step_singleCallFt single adds stepped⟩
  cases op with
  | dropCallFtEdge b => exact symmetric.dropsOneEdge single b
  | createCallEdgeBetween caller callee site target type =>
      exact fun _ b _ _ _ _ _ => symmetric.dropsOneEdge single b
  | _ => trivial

/-- The graph of a parse, before and after its functions are collapsed. -/
theorem tryParseAPI_symmetric (edgeAddress : EdgeId → Nat) (blockAddress : BlockId → Nat)
    (resolver : Address → List Address) (p : ParseResult) :
    let g := ((ofEmpty edgeAddress blockAddress).tryParseAPI resolver p).cfg
    (g.Symmetric ∧ g.SingleCallFt) ∧
      ∀ g', g.simplifyCfg = some g' → g'.Symmetric ∧ g'.SingleCallFt := by
  have empty : (ofEmpty edgeAddress blockAddress).cfg.SingleCallFt :=
    fun _ _ _ member => absurd member List.not_mem_nil
  have symmetric := symmetric_kept.tryParseAPI (ofEmpty_symmetric edgeAddress blockAddress) resolver p
  have single := singleCallFt_kept.tryParseAPI empty resolver p
  refine ⟨⟨symmetric, single⟩, fun g' collapsed => ⟨?_, ?_⟩⟩
  · exact (symmetric_kept.simplifyCfg symmetric).elim_some collapsed
  · exact (singleCallFt_kept.simplifyCfg single).elim_some collapsed

end Insertion

end PathArmor.Analyzer

import Mathlib.Data.List.Find
import PathArmor.Analyzer.Cfg

/-!
# The two ends of an edge

An edge is stored at both ends: the search forward reads the outgoing set of its source, the search
backward the incoming set of its target. The operations update the two sets one after the other.
-/

namespace PathArmor.Analyzer

namespace Cfg
variable (g : Cfg)

/-- The edges that `b` may hold. -/
structure Fits (b : BlockId) (outgoing incoming : List EdgeId) : Prop where
  leaves : ∀ e ∈ outgoing, g.source e = b ∧ e < g.edgeCount
  enters : ∀ e ∈ incoming, g.target e = b ∧ e < g.edgeCount
  outgoing_nodup : outgoing.Nodup
  incoming_nodup : incoming.Nodup

theorem fits (b : BlockId) : g.Fits b (g.outgoing b) (g.incoming b) where
  leaves e member := ⟨g.outgoing_source b e member, g.outgoing_lt b e member⟩
  enters e member := ⟨g.incoming_target b e member, g.incoming_lt b e member⟩
  outgoing_nodup := g.outgoing_nodup b
  incoming_nodup := g.incoming_nodup b

variable {g} in
theorem Fits.sublist {b : BlockId} {outgoing incoming outgoing' incoming' : List EdgeId}
    (fits : g.Fits b outgoing incoming) (fewerOut : outgoing'.Sublist outgoing)
    (fewerIn : incoming'.Sublist incoming) : g.Fits b outgoing' incoming' where
  leaves e member := fits.leaves e (fewerOut.subset member)
  enters e member := fits.enters e (fewerIn.subset member)
  outgoing_nodup := fits.outgoing_nodup.sublist fewerOut
  incoming_nodup := fits.incoming_nodup.sublist fewerIn

def setEdges (b : BlockId) (outgoing incoming : List EdgeId) (fits : g.Fits b outgoing incoming) :
    Cfg :=
  let changed := { g.block b with outgoingEdges := outgoing, incomingEdges := incoming }
  have fitting (c : BlockId) : g.Fits c (Function.update g.block b changed c).outgoingEdges
      (Function.update g.block b changed c).incomingEdges := by
    rcases eq_or_ne c b with rfl | other
    · rwa [Function.update_self]
    · rw [Function.update_of_ne other]
      exact g.fits c
  have addresses (c : BlockId) :
      (Function.update g.block b changed c).startAddress = (g.block c).startAddress ∧
        (Function.update g.block b changed c).lastInsnAddress = (g.block c).lastInsnAddress := by
    rcases eq_or_ne c b with rfl | other
    · rw [Function.update_self]
      exact ⟨rfl, rfl⟩
    · rw [Function.update_of_ne other]
      exact ⟨rfl, rfl⟩
  { g with
    block := Function.update g.block b changed
    outgoing_source := fun c e member => ((fitting c).leaves e member).1
    outgoing_lt := fun c e member => ((fitting c).leaves e member).2
    outgoing_nodup := fun c => (fitting c).outgoing_nodup
    incoming_target := fun c e member => ((fitting c).enters e member).1
    incoming_lt := fun c e member => ((fitting c).enters e member).2
    incoming_nodup := fun c => (fitting c).incoming_nodup
    start2bb_start := fun a c found => by rw [(addresses c).1]; exact g.start2bb_start a c found
    last2bb_last := fun a c found => by rw [(addresses c).2]; exact g.last2bb_last a c found }

/-- The edge is allocated and in no set yet. -/
def newEdge (source target : BlockId) (type : ArmsEdgeType) : Cfg :=
  if bound : source < g.blockCount ∧ target < g.blockCount then
    let fresh : ArmsEdge := ArmsEdge.setType { source, target } type
    have old {e : EdgeId} (bound : e < g.edgeCount) :
        Function.update g.edge g.edgeCount fresh e = g.edge e :=
      Function.update_of_ne bound.ne _ _
    { g with
      edge := Function.update g.edge g.edgeCount fresh
      edgeCount := g.edgeCount + 1
      outgoing_source := fun b e member => by
        rw [old (g.outgoing_lt b e member)]
        exact g.outgoing_source b e member
      outgoing_lt := fun b e member => Nat.lt_succ_of_lt (g.outgoing_lt b e member)
      incoming_target := fun b e member => by
        rw [old (g.incoming_lt b e member)]
        exact g.incoming_target b e member
      incoming_lt := fun b e member => Nat.lt_succ_of_lt (g.incoming_lt b e member)
      endpoint_lt := fun e below => by
        rcases Nat.lt_succ_iff_lt_or_eq.mp below with below | rfl
        · rw [old below]
          exact g.endpoint_lt e below
        · simpa [fresh] using bound }
  else g

def attachOutgoing (b : BlockId) (e : EdgeId) : Cfg :=
  if fresh : g.source e = b ∧ e < g.edgeCount ∧ e ∉ g.outgoing b then
    g.setEdges b (g.insertEdge e (g.outgoing b)) (g.incoming b)
      { g.fits b with
        leaves := fun x member => by
          rcases g.mem_insertEdge.mp member with rfl | member
          · exact ⟨fresh.1, fresh.2.1⟩
          · exact (g.fits b).leaves x member
        outgoing_nodup := g.nodup_insertEdge (g.outgoing_nodup b) fresh.2.2 }
  else g

def attachIncoming (b : BlockId) (e : EdgeId) : Cfg :=
  if fresh : g.target e = b ∧ e < g.edgeCount ∧ e ∉ g.incoming b then
    g.setEdges b (g.outgoing b) (g.insertEdge e (g.incoming b))
      { g.fits b with
        enters := fun x member => by
          rcases g.mem_insertEdge.mp member with rfl | member
          · exact ⟨fresh.1, fresh.2.1⟩
          · exact (g.fits b).enters x member
        incoming_nodup := g.nodup_insertEdge (g.incoming_nodup b) fresh.2.2 }
  else g

def deleteOutgoingEdge (b : BlockId) (e : EdgeId) : Cfg :=
  g.setEdges b ((g.outgoing b).erase e) (g.incoming b)
    ((g.fits b).sublist List.erase_sublist (.refl _))

def deleteIncomingEdge (b : BlockId) (e : EdgeId) : Cfg :=
  g.setEdges b (g.outgoing b) ((g.incoming b).erase e)
    ((g.fits b).sublist (.refl _) List.erase_sublist)

def unlink (e : EdgeId) : Cfg :=
  (g.deleteOutgoingEdge (g.source e) e).deleteIncomingEdge (g.target e) e

def firstCallFt (edges : List EdgeId) : Option EdgeId :=
  edges.find? fun e => (g.edge e).type == .callFt

def dropIncomingCallFtEdge (b : BlockId) : Cfg :=
  match g.firstCallFt (g.incoming b) with
  | none => g
  | some e => g.deleteIncomingEdge b e

def dropCallFtEdge (b : BlockId) : Cfg :=
  match g.firstCallFt (g.outgoing b) with
  | none => g
  | some e => (g.dropIncomingCallFtEdge (g.target e)).deleteOutgoingEdge b e

/-- A new edge, of which only the source knows. -/
def startEdge (source target : BlockId) (type : ArmsEdgeType) : Cfg :=
  (g.newEdge source target type).attachOutgoing source g.edgeCount

/-- The call edge between two given functions. A block in several functions or in none counts as one
without a function. -/
def createCallEdge (funCaller funCallee : Option FuncId) (callSite callTarget : Address)
    (type : ArmsEdgeType) : Cfg × Option BlockId :=
  let bbCallSite := g.findBbByLastInsnAddress callSite
  (match bbCallSite, g.findBb callTarget with
    | some site, some target =>
        if g.getFunction site = funCaller ∧ g.getFunction target = funCallee then
          let edgeCall := g.edgeCount
          let g := g.startEdge site target type
          let g := if edgeTypeIsCall type then g.dropCallFtEdge site else g
          g.attachIncoming target edgeCall
        else g
    | _, _ => g, bbCallSite)

def createRetEdges (funCaller : Option FuncId) (funCallee : FuncId) (bbCallSite : BlockId) : Cfg :=
  match g.findBb (g.block bbCallSite).endAddress with
  | none => g
  | some retTarget =>
      if g.getFunction retTarget = funCaller then
        (g.func funCallee).exitPoints.foldl
          (fun g retSite => (g.link retSite retTarget).setType g.edgeCount .ret) g
      else g

end Cfg

/-! ## What the updates do at either end -/

namespace Cfg
variable {g : Cfg} {b : BlockId} {e f : EdgeId}

def departing (g : Cfg) : Set EdgeId := {e | e ∈ g.outgoing (g.source e)}

def arriving (g : Cfg) : Set EdgeId := {e | e ∈ g.incoming (g.target e)}

theorem mem_departing_iff (source : g.source e = b) : e ∈ g.departing ↔ e ∈ g.outgoing b := by
  subst source
  rfl

theorem mem_arriving_iff (target : g.target e = b) : e ∈ g.arriving ↔ e ∈ g.incoming b := by
  subst target
  rfl

theorem mem_departing : e ∈ g.departing ↔ ∃ b, e ∈ g.outgoing b :=
  ⟨fun member => ⟨_, member⟩, fun ⟨_, member⟩ => isEdge_of_mem member⟩

theorem mem_arriving : e ∈ g.arriving ↔ ∃ b, e ∈ g.incoming b := by
  constructor
  · intro member
    exact ⟨_, member⟩
  · rintro ⟨b, member⟩
    exact (mem_arriving_iff (g.incoming_target b e member)).mpr member

section SetEdges
variable {outgoing incoming : List EdgeId} (fits : g.Fits b outgoing incoming)

theorem setEdges_outgoing (c : BlockId) : (g.setEdges b outgoing incoming fits).outgoing c =
    if c = b then outgoing else g.outgoing c := by
  rcases eq_or_ne c b with rfl | other
  · simp [Cfg.outgoing, setEdges]
  · simp [Cfg.outgoing, setEdges, other]

theorem setEdges_incoming (c : BlockId) : (g.setEdges b outgoing incoming fits).incoming c =
    if c = b then incoming else g.incoming c := by
  rcases eq_or_ne c b with rfl | other
  · simp [Cfg.incoming, setEdges]
  · simp [Cfg.incoming, setEdges, other]

theorem mem_departing_setEdges : e ∈ (g.setEdges b outgoing incoming fits).departing ↔
    if g.source e = b then e ∈ outgoing else e ∈ g.departing := by
  rw [mem_departing_iff (g := g.setEdges b outgoing incoming fits) (b := g.source e) rfl,
    setEdges_outgoing]
  split_ifs <;> rfl

theorem mem_arriving_setEdges : e ∈ (g.setEdges b outgoing incoming fits).arriving ↔
    if g.target e = b then e ∈ incoming else e ∈ g.arriving := by
  rw [mem_arriving_iff (g := g.setEdges b outgoing incoming fits) (b := g.target e) rfl,
    setEdges_incoming]
  split_ifs <;> rfl

end SetEdges

theorem setEdges_departing {incoming : List EdgeId} (fits : g.Fits b (g.outgoing b) incoming) :
    (g.setEdges b (g.outgoing b) incoming fits).departing = g.departing := by
  ext e
  rw [mem_departing_setEdges]
  split_ifs with here
  · exact (mem_departing_iff here).symm
  · rfl

theorem setEdges_arriving {outgoing : List EdgeId} (fits : g.Fits b outgoing (g.incoming b)) :
    (g.setEdges b outgoing (g.incoming b) fits).arriving = g.arriving := by
  ext e
  rw [mem_arriving_setEdges]
  split_ifs with here
  · exact (mem_arriving_iff here).symm
  · rfl

theorem deleteOutgoingEdge_departing (source : g.source e = b) :
    (g.deleteOutgoingEdge b e).departing = g.departing \ {e} := by
  ext x
  rw [deleteOutgoingEdge, mem_departing_setEdges, Set.mem_sdiff, Set.mem_singleton_iff]
  split_ifs with here
  · rw [(g.outgoing_nodup b).mem_erase_iff, and_comm, mem_departing_iff here]
  · refine (and_iff_left ?_).symm
    rintro rfl
    exact here source

theorem deleteIncomingEdge_arriving (target : g.target e = b) :
    (g.deleteIncomingEdge b e).arriving = g.arriving \ {e} := by
  ext x
  rw [deleteIncomingEdge, mem_arriving_setEdges, Set.mem_sdiff, Set.mem_singleton_iff]
  split_ifs with here
  · rw [(g.incoming_nodup b).mem_erase_iff, and_comm, mem_arriving_iff here]
  · refine (and_iff_left ?_).symm
    rintro rfl
    exact here target

theorem deleteOutgoingEdge_arriving : (g.deleteOutgoingEdge b e).arriving = g.arriving :=
  setEdges_arriving _

theorem deleteIncomingEdge_departing : (g.deleteIncomingEdge b e).departing = g.departing :=
  setEdges_departing _

theorem attachOutgoing_departing (source : g.source e = b) (allocated : e < g.edgeCount) :
    (g.attachOutgoing b e).departing = insert e g.departing := by
  ext x
  rw [attachOutgoing, Set.mem_insert_iff]
  split_ifs with fresh
  · rw [mem_departing_setEdges]
    split_ifs with here
    · rw [mem_insertEdge, mem_departing_iff here]
    · refine (or_iff_right ?_).symm
      rintro rfl
      exact here source
  · refine (or_iff_right_of_imp ?_).symm
    rintro rfl
    by_contra absent
    exact fresh ⟨source, allocated, fun member => absent ((mem_departing_iff source).mpr member)⟩

theorem attachIncoming_arriving (target : g.target e = b) (allocated : e < g.edgeCount) :
    (g.attachIncoming b e).arriving = insert e g.arriving := by
  ext x
  rw [attachIncoming, Set.mem_insert_iff]
  split_ifs with fresh
  · rw [mem_arriving_setEdges]
    split_ifs with here
    · rw [mem_insertEdge, mem_arriving_iff here]
    · refine (or_iff_right ?_).symm
      rintro rfl
      exact here target
  · refine (or_iff_right_of_imp ?_).symm
    rintro rfl
    by_contra absent
    exact fresh ⟨target, allocated, fun member => absent ((mem_arriving_iff target).mpr member)⟩

theorem attachOutgoing_arriving : (g.attachOutgoing b e).arriving = g.arriving := by
  unfold attachOutgoing
  split_ifs
  · exact setEdges_arriving _
  · rfl

theorem attachIncoming_departing : (g.attachIncoming b e).departing = g.departing := by
  unfold attachIncoming
  split_ifs
  · exact setEdges_departing _
  · rfl

section NewEdge
variable {source target : BlockId} {type : ArmsEdgeType}
  (bound : source < g.blockCount ∧ target < g.blockCount)
include bound

theorem newEdge_edge : (g.newEdge source target type).edge =
    Function.update g.edge g.edgeCount (ArmsEdge.setType { source, target } type) := by
  simp [newEdge, bound]

theorem newEdge_edgeCount : (g.newEdge source target type).edgeCount = g.edgeCount + 1 := by
  simp [newEdge, bound]

theorem newEdge_block : (g.newEdge source target type).block = g.block := by
  simp [newEdge, bound]

end NewEdge

theorem link_departing {source target : BlockId}
    (bound : source < g.blockCount ∧ target < g.blockCount) :
    (g.link source target).departing = insert g.edgeCount g.departing := by
  ext e
  rw [Set.mem_insert_iff, mem_departing, mem_departing]
  simp only [mem_outgoing_link bound, exists_or, exists_eq_left]

theorem link_arriving {source target : BlockId}
    (bound : source < g.blockCount ∧ target < g.blockCount) :
    (g.link source target).arriving = insert g.edgeCount g.arriving := by
  ext e
  rw [Set.mem_insert_iff, mem_arriving, mem_arriving]
  simp only [mem_incoming_link bound, exists_or, exists_eq_left]

/-! ## The call fallthrough edge that is dropped -/

theorem mem_of_firstCallFt {edges : List EdgeId} (first : g.firstCallFt edges = some e) : e ∈ edges :=
  List.mem_of_find?_eq_some first

theorem type_of_firstCallFt {edges : List EdgeId} (first : g.firstCallFt edges = some e) :
    (g.edge e).type = .callFt := by
  simpa using List.find?_some first

/-- The edge that goes is chosen anew at the other end. -/
theorem dropCallFtEdge_ends (leaves : g.firstCallFt (g.outgoing b) = some e)
    (enters : g.firstCallFt (g.incoming (g.target e)) = some f) :
    (g.dropCallFtEdge b).departing = g.departing \ {e} ∧
      (g.dropCallFtEdge b).arriving = g.arriving \ {f} := by
  have source : g.source e = b := source_of_mem (mem_of_firstCallFt leaves)
  have kept : (g.deleteIncomingEdge (g.target e) f).source e = b := source
  have target : g.target f = g.target e := g.incoming_target _ f (mem_of_firstCallFt enters)
  simp only [dropCallFtEdge, leaves, dropIncomingCallFtEdge, enters]
  rw [deleteOutgoingEdge_departing kept, deleteIncomingEdge_departing, deleteOutgoingEdge_arriving,
    deleteIncomingEdge_arriving target]
  exact ⟨rfl, rfl⟩

theorem firstCallFt_congr {g' : Cfg} {edges : List EdgeId}
    (same : ∀ e ∈ edges, g'.edge e = g.edge e) : g'.firstCallFt edges = g.firstCallFt edges :=
  List.find?_congr fun e member => by rw [same e member]

theorem firstCallFt_insertEdge {h : Cfg} {edges : List EdgeId} (other : (g.edge e).type ≠ .callFt) :
    g.firstCallFt (h.insertEdge e edges) = g.firstCallFt edges := by
  unfold firstCallFt insertEdge
  induction edges with
  | nil => simp [other]
  | cons x rest ih =>
      rw [List.orderedInsert_cons]
      split_ifs
      · simp [other]
      · rw [List.find?_cons, List.find?_cons, ih]

theorem dropCallFtEdge_same (b : BlockId) : (g.dropCallFtEdge b).edge = g.edge ∧
    (g.dropCallFtEdge b).edgeCount = g.edgeCount := by
  unfold dropCallFtEdge dropIncomingCallFtEdge
  cases g.firstCallFt (g.outgoing b) with
  | none => exact ⟨rfl, rfl⟩
  | some e =>
      dsimp only
      cases g.firstCallFt (g.incoming (g.target e)) with
      | none => exact ⟨rfl, rfl⟩
      | some f => exact ⟨rfl, rfl⟩

theorem edgeCount_not_departing : g.edgeCount ∉ g.departing :=
  fun member => lt_irrefl _ (g.outgoing_lt _ _ member)

theorem edgeCount_not_arriving : g.edgeCount ∉ g.arriving :=
  fun member => lt_irrefl _ (g.incoming_lt _ _ member)

section StartEdge
variable {site target : BlockId} {type : ArmsEdgeType}
  (bound : site < g.blockCount ∧ target < g.blockCount)
include bound

theorem newEdge_departing : (g.newEdge site target type).departing = g.departing := by
  ext e
  simp only [mem_departing, outgoing, newEdge_block bound]

theorem newEdge_arriving : (g.newEdge site target type).arriving = g.arriving := by
  ext e
  simp only [mem_arriving, incoming, newEdge_block bound]

theorem newEdge_source : (g.newEdge site target type).source g.edgeCount = site := by
  rw [source, newEdge_edge bound, Function.update_self, ArmsEdge.setType_source]

theorem startEdge_same : (g.startEdge site target type).edge = (g.newEdge site target type).edge ∧
    (g.startEdge site target type).edgeCount = g.edgeCount + 1 := by
  have count : (g.newEdge site target type).edgeCount = g.edgeCount + 1 := newEdge_edgeCount bound
  rw [startEdge, attachOutgoing, ← count]
  split_ifs
  · exact ⟨rfl, rfl⟩
  · exact ⟨rfl, rfl⟩

theorem startEdge_departing :
    (g.startEdge site target type).departing = insert g.edgeCount g.departing := by
  have allocated : g.edgeCount < (g.newEdge site target type).edgeCount := by
    rw [newEdge_edgeCount bound]
    exact Nat.lt_succ_self _
  rw [startEdge, attachOutgoing_departing (newEdge_source bound) allocated, newEdge_departing bound]

theorem startEdge_arriving : (g.startEdge site target type).arriving = g.arriving := by
  rw [startEdge, attachOutgoing_arriving, newEdge_arriving bound]

theorem startEdge_outgoing : (g.startEdge site target type).outgoing site =
    (g.newEdge site target type).insertEdge g.edgeCount (g.outgoing site) := by
  have fresh : (g.newEdge site target type).source g.edgeCount = site ∧
      g.edgeCount < (g.newEdge site target type).edgeCount ∧
      g.edgeCount ∉ (g.newEdge site target type).outgoing site := by
    refine ⟨newEdge_source bound, ?_, ?_⟩
    · rw [newEdge_edgeCount bound]
      exact Nat.lt_succ_self _
    · rw [outgoing, newEdge_block bound]
      exact fun member => lt_irrefl _ (g.outgoing_lt site _ member)
  rw [startEdge, attachOutgoing, dif_pos fresh, setEdges_outgoing, if_pos rfl, outgoing,
    newEdge_block bound]

theorem startEdge_incoming (c : BlockId) :
    (g.startEdge site target type).incoming c = g.incoming c := by
  have kept (b : BlockId) : (g.newEdge site target type).incoming b = g.incoming b := by
    rw [incoming, newEdge_block bound]
  rw [startEdge, attachOutgoing]
  split_ifs
  · rw [setEdges_incoming, kept, kept]
    split_ifs with here
    · rw [here]
    · rfl
  · exact kept c

theorem startEdge_edge_old (old : e < g.edgeCount) :
    (g.startEdge site target type).edge e = g.edge e := by
  rw [(startEdge_same bound).1, newEdge_edge bound, Function.update_of_ne old.ne]

theorem startEdge_edge_new :
    (g.startEdge site target type).edge g.edgeCount = ArmsEdge.setType { source := site, target } type := by
  rw [(startEdge_same bound).1, newEdge_edge bound, Function.update_self]

/-- The new edge has no part in the choice of the edge that is dropped. -/
theorem startEdge_leaves (isCall : edgeTypeIsCall type) :
    (g.startEdge site target type).firstCallFt ((g.startEdge site target type).outgoing site) =
      g.firstCallFt (g.outgoing site) := by
  have other : ((g.startEdge site target type).edge g.edgeCount).type ≠ .callFt := by
    rw [startEdge_edge_new bound]
    cases type <;> simp [edgeTypeIsCall, ArmsEdge.setType] at isCall ⊢
  rw [startEdge_outgoing bound, firstCallFt_insertEdge other]
  exact firstCallFt_congr fun e member => startEdge_edge_old bound (g.outgoing_lt site e member)

theorem startEdge_enters (leaves : g.firstCallFt (g.outgoing site) = some e) :
    (g.startEdge site target type).firstCallFt
        ((g.startEdge site target type).incoming ((g.startEdge site target type).target e)) =
      g.firstCallFt (g.incoming (g.target e)) := by
  have old : e < g.edgeCount := g.outgoing_lt site e (mem_of_firstCallFt leaves)
  rw [startEdge_incoming bound, Cfg.target, startEdge_edge_old bound old]
  exact firstCallFt_congr fun f member => startEdge_edge_old bound (g.incoming_lt _ f member)

end StartEdge

end Cfg

end PathArmor.Analyzer

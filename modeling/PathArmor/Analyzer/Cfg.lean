import Mathlib.Data.List.Sort
import PathArmor.Analyzer.Edge
import PathArmor.Library.Walk

/-!
# The control flow graph

Blocks, edges and functions live in three heaps and are named by the order of their allocation,
as the sources number them by `id_`. The edge sets of a block are ordered by the heap address of
the edge: `edgeAddress` is the allocator's choice of that address for every edge, past and future,
so a statement about every `Cfg` is one about every iteration order.

A `Cfg` carries what every operation of the sources keeps: an edge stands only in the outgoing set
of its source and in the incoming set of its target, both are allocated, and the two address maps
lead to blocks that have that address.
-/

namespace PathArmor.Analyzer
open PathArmor.Library

structure ArmsBasicBlock where
  startAddress : Address
  endAddress : Address
  lastInsnAddress : Address
  isDummy : Bool := false
  funcs : List FuncId := []
  incomingEdges : List EdgeId := []
  outgoingEdges : List EdgeId := []

structure ArmsFunction where
  baseAddr : Address
  funname : String
  isPlt : Bool := false
  isLibDummy : Bool := false
  basicBlocks : List BlockId := []
  entryPoints : List BlockId := []
  exitPoints : List BlockId := []

structure Cfg where
  startAddr : Address
  endAddr : Address
  /-- The `std::map<address_t, ArmsFunction*>`, in address order. -/
  functions : List (Address × FuncId)
  start2bb : Address → Option BlockId
  last2bb : Address → Option BlockId
  func : FuncId → ArmsFunction
  funcCount : Nat
  block : BlockId → ArmsBasicBlock
  blockCount : Nat
  edge : EdgeId → ArmsEdge
  edgeCount : Nat
  edgeAddress : EdgeId → Nat
  outgoing_source : ∀ b e, e ∈ (block b).outgoingEdges → (edge e).source = b
  outgoing_lt : ∀ b e, e ∈ (block b).outgoingEdges → e < edgeCount
  outgoing_nodup : ∀ b, (block b).outgoingEdges.Nodup
  incoming_target : ∀ b e, e ∈ (block b).incomingEdges → (edge e).target = b
  incoming_lt : ∀ b e, e ∈ (block b).incomingEdges → e < edgeCount
  incoming_nodup : ∀ b, (block b).incomingEdges.Nodup
  endpoint_lt : ∀ e < edgeCount, (edge e).source < blockCount ∧ (edge e).target < blockCount
  start2bb_start : ∀ a b, start2bb a = some b → b < blockCount ∧ (block b).startAddress = a
  last2bb_last : ∀ a b, last2bb a = some b → b < blockCount ∧ (block b).lastInsnAddress = a
  basicBlocks_lt : ∀ f, ∀ b ∈ (func f).basicBlocks, b < blockCount

namespace Cfg

abbrev outgoing (g : Cfg) (b : BlockId) : List EdgeId := (g.block b).outgoingEdges
abbrev incoming (g : Cfg) (b : BlockId) : List EdgeId := (g.block b).incomingEdges
abbrev source (g : Cfg) (e : EdgeId) : BlockId := (g.edge e).source
abbrev target (g : Cfg) (e : EdgeId) : BlockId := (g.edge e).target

def IsEdge (g : Cfg) (e : EdgeId) : Prop := e ∈ g.outgoing (g.source e)

instance (g : Cfg) (e : EdgeId) : Decidable (g.IsEdge e) :=
  inferInstanceAs (Decidable (e ∈ g.outgoing (g.source e)))

theorem source_of_mem {g : Cfg} {b : BlockId} {e : EdgeId} (member : e ∈ g.outgoing b) :
    g.source e = b := g.outgoing_source b e member

theorem isEdge_of_mem {g : Cfg} {b : BlockId} {e : EdgeId} (member : e ∈ g.outgoing b) :
    g.IsEdge e := by
  rw [IsEdge, source_of_mem member]
  exact member

theorem IsEdge.lt {g : Cfg} {e : EdgeId} (isEdge : g.IsEdge e) : e < g.edgeCount :=
  g.outgoing_lt _ e isEdge

def empty (edgeAddress : EdgeId → Nat) : Cfg where
  startAddr := 0
  endAddr := 0
  functions := []
  start2bb := fun _ => none
  last2bb := fun _ => none
  func := fun _ => { baseAddr := 0, funname := "" }
  funcCount := 0
  block := fun _ => { startAddress := 0, endAddress := 0, lastInsnAddress := 0 }
  blockCount := 0
  edge := fun _ => { source := 0, target := 0 }
  edgeCount := 0
  edgeAddress := edgeAddress
  outgoing_source := by simp
  outgoing_lt := by simp
  outgoing_nodup := by simp
  incoming_target := by simp
  incoming_lt := by simp
  incoming_nodup := by simp
  endpoint_lt := by simp
  start2bb_start := by simp
  last2bb_last := by simp
  basicBlocks_lt := by simp

/-! ## Lookups -/

def findBb (g : Cfg) (startAddress : Address) : Option BlockId := g.start2bb startAddress

def findBbByLastInsnAddress (g : Cfg) (lastAddress : Address) : Option BlockId :=
  g.last2bb lastAddress

def findFunction (g : Cfg) (baseAddress : Address) : Option FuncId :=
  (g.functions.find? fun entry => entry.1 == baseAddress).map (·.2)

def findLibDummyByName (g : Cfg) (name : String) : Option FuncId :=
  (g.functions.find? fun entry =>
    (g.func entry.2).isLibDummy && (g.func entry.2).funname == name).map (·.2)

def findEdge (g : Cfg) (src dst : Address) : Option EdgeId :=
  match g.findBbByLastInsnAddress src with
  | none => none
  | some bb => (g.outgoing bb).find? fun e => (g.block (g.target e)).startAddress == dst

def addrInCfg (g : Cfg) (addr : Address) : Bool :=
  if g.startAddr ≤ addr && addr < g.endAddr then true
  else match g.findFunction addr with
    | some f => (g.func f).isPlt
    | none => match g.findBb addr with
      | some bb => !(g.block bb).isDummy
      | none => false

/-- Provided there is exactly one. -/
def getFunction (g : Cfg) (b : BlockId) : Option FuncId :=
  match (g.block b).funcs with
  | [f] => some f
  | _ => none

/-- The closest block after the last instruction, within the length of an x86 instruction. -/
def getFallthroughBb (g : Cfg) (b : BlockId) : Option BlockId :=
  (List.range' 1 15).findSome? fun i => g.findBb ((g.block b).lastInsnAddress + UInt64.ofNat i)

def intraProceduralIndirectJumpTargetsOnly (g : Cfg) (b : BlockId) : Bool :=
  if (g.outgoing b).length = 0 then false
  else (g.outgoing b).all fun e => (g.edge e).intraProcedural && (g.edge e).isIndirectJump

/-! ## Updates -/

section Updates
variable (g : Cfg)

def updateEdge (e : EdgeId) (change : ArmsEdge → ArmsEdge)
    (keepsSource : ∀ x, (change x).source = x.source)
    (keepsTarget : ∀ x, (change x).target = x.target) : Cfg :=
  have source (x : EdgeId) : (Function.update g.edge e (change (g.edge e)) x).source =
      (g.edge x).source := by
    rcases eq_or_ne x e with rfl | other
    · rw [Function.update_self, keepsSource]
    · rw [Function.update_of_ne other]
  have target (x : EdgeId) : (Function.update g.edge e (change (g.edge e)) x).target =
      (g.edge x).target := by
    rcases eq_or_ne x e with rfl | other
    · rw [Function.update_self, keepsTarget]
    · rw [Function.update_of_ne other]
  { g with
    edge := Function.update g.edge e (change (g.edge e))
    outgoing_source := fun b x member => (source x).trans (g.outgoing_source b x member)
    incoming_target := fun b x member => (target x).trans (g.incoming_target b x member)
    endpoint_lt := fun x bound => by rw [source, target]; exact g.endpoint_lt x bound }

def setType (e : EdgeId) (type : ArmsEdgeType) : Cfg :=
  g.updateEdge e (·.setType type) (fun x => x.setType_source type) (fun x => x.setType_target type)

def setIntraprocedural (e : EdgeId) : Cfg :=
  g.updateEdge e (·.setIntraprocedural) (fun _ => rfl) (fun _ => rfl)

def setInterprocedural (e : EdgeId) : Cfg :=
  g.updateEdge e (·.setInterprocedural) (fun _ => rfl) (fun _ => rfl)

def setHidden (e : EdgeId) (hidden : Bool) : Cfg :=
  g.updateEdge e (·.setHidden hidden) (fun _ => rfl) (fun _ => rfl)

theorem outgoing_of_not_lt {b : BlockId} (unallocated : ¬ b < g.blockCount) : g.outgoing b = [] := by
  refine List.eq_nil_iff_forall_not_mem.mpr fun e member => unallocated ?_
  rw [← g.outgoing_source b e member]
  exact (g.endpoint_lt e (g.outgoing_lt b e member)).1

theorem incoming_of_not_lt {b : BlockId} (unallocated : ¬ b < g.blockCount) : g.incoming b = [] := by
  refine List.eq_nil_iff_forall_not_mem.mpr fun e member => unallocated ?_
  rw [← g.incoming_target b e member]
  exact (g.endpoint_lt e (g.incoming_lt b e member)).2

def newBlock (startAddress endAddress lastInsnAddress : Address) (isDummy : Bool)
    (funcs : List FuncId) : Cfg :=
  let fresh : ArmsBasicBlock := { startAddress, endAddress, lastInsnAddress, isDummy, funcs }
  have old {b : BlockId} (bound : b < g.blockCount) :
      Function.update g.block g.blockCount fresh b = g.block b :=
    Function.update_of_ne bound.ne fresh g.block
  have outgoing (b : BlockId) :
      (Function.update g.block g.blockCount fresh b).outgoingEdges = g.outgoing b := by
    rcases eq_or_ne b g.blockCount with rfl | other
    · rw [Function.update_self, g.outgoing_of_not_lt (lt_irrefl _)]
    · rw [Function.update_of_ne other]
  have incoming (b : BlockId) :
      (Function.update g.block g.blockCount fresh b).incomingEdges = g.incoming b := by
    rcases eq_or_ne b g.blockCount with rfl | other
    · rw [Function.update_self, g.incoming_of_not_lt (lt_irrefl _)]
    · rw [Function.update_of_ne other]
  { g with
    block := Function.update g.block g.blockCount fresh
    blockCount := g.blockCount + 1
    outgoing_source := fun b e => by rw [outgoing]; exact g.outgoing_source b e
    outgoing_lt := fun b e => by rw [outgoing]; exact g.outgoing_lt b e
    outgoing_nodup := fun b => by rw [outgoing]; exact g.outgoing_nodup b
    incoming_target := fun b e => by rw [incoming]; exact g.incoming_target b e
    incoming_lt := fun b e => by rw [incoming]; exact g.incoming_lt b e
    incoming_nodup := fun b => by rw [incoming]; exact g.incoming_nodup b
    endpoint_lt := fun e bound => (g.endpoint_lt e bound).imp Nat.lt_succ_of_lt Nat.lt_succ_of_lt
    start2bb_start := fun a b found => by
      obtain ⟨bound, start⟩ := g.start2bb_start a b found
      exact ⟨Nat.lt_succ_of_lt bound, by rw [old bound]; exact start⟩
    last2bb_last := fun a b found => by
      obtain ⟨bound, last⟩ := g.last2bb_last a b found
      exact ⟨Nat.lt_succ_of_lt bound, by rw [old bound]; exact last⟩
    basicBlocks_lt := fun f b member => Nat.lt_succ_of_lt (g.basicBlocks_lt f b member) }

def storeBb (b : BlockId) : Cfg :=
  if bound : b < g.blockCount then
    { g with
      start2bb := Function.update g.start2bb (g.block b).startAddress (some b)
      last2bb := Function.update g.last2bb (g.block b).lastInsnAddress (some b)
      start2bb_start := fun a c found => by
        rcases eq_or_ne a (g.block b).startAddress with rfl | other
        · rw [Function.update_self, Option.some.injEq] at found
          exact found ▸ ⟨bound, rfl⟩
        · rw [Function.update_of_ne other] at found
          exact g.start2bb_start a c found
      last2bb_last := fun a c found => by
        rcases eq_or_ne a (g.block b).lastInsnAddress with rfl | other
        · rw [Function.update_self, Option.some.injEq] at found
          exact found ▸ ⟨bound, rfl⟩
        · rw [Function.update_of_ne other] at found
          exact g.last2bb_last a c found }
  else g

/-- Insertion into a `std::set<ArmsEdge*>`. -/
def insertEdge (e : EdgeId) (edges : List EdgeId) : List EdgeId :=
  edges.orderedInsert (fun x y => g.edgeAddress x ≤ g.edgeAddress y) e

def addOutgoingEdge (e : EdgeId) (b : ArmsBasicBlock) : ArmsBasicBlock :=
  { b with outgoingEdges := g.insertEdge e b.outgoingEdges }

def addIncomingEdge (e : EdgeId) (b : ArmsBasicBlock) : ArmsBasicBlock :=
  { b with incomingEdges := g.insertEdge e b.incomingEdges }

def linkBlocks (source target : BlockId) : BlockId → ArmsBasicBlock :=
  let sourced := Function.update g.block source (g.addOutgoingEdge g.edgeCount (g.block source))
  Function.update sourced target (g.addIncomingEdge g.edgeCount (sourced target))

theorem mem_insertEdge {x e : EdgeId} {edges : List EdgeId} :
    x ∈ g.insertEdge e edges ↔ x = e ∨ x ∈ edges := List.mem_orderedInsert _

theorem nodup_insertEdge {e : EdgeId} {edges : List EdgeId} (nodup : edges.Nodup)
    (fresh : e ∉ edges) : (g.insertEdge e edges).Nodup :=
  (List.perm_orderedInsert _ e edges).nodup_iff.mpr (List.nodup_cons.mpr ⟨fresh, nodup⟩)

theorem linkBlocks_apply (source target b : BlockId) :
    g.linkBlocks source target b =
      { g.block b with
        outgoingEdges := if b = source then g.insertEdge g.edgeCount (g.outgoing b) else g.outgoing b
        incomingEdges := if b = target then g.insertEdge g.edgeCount (g.incoming b)
          else g.incoming b } := by
  unfold linkBlocks
  rcases eq_or_ne b target with rfl | notTarget
  · rcases eq_or_ne b source with rfl | notSource
    · simp [addIncomingEdge, addOutgoingEdge]
    · simp [addIncomingEdge, notSource]
  · rcases eq_or_ne b source with rfl | notSource
    · simp [addOutgoingEdge, notTarget]
    · simp [notSource, notTarget]

def link (source target : BlockId) : Cfg :=
  if bound : source < g.blockCount ∧ target < g.blockCount then
    have old {e : EdgeId} (bound : e < g.edgeCount) :
        Function.update g.edge g.edgeCount { source, target } e = g.edge e :=
      Function.update_of_ne bound.ne _ _
    have freshOutgoing (b : BlockId) : g.edgeCount ∉ g.outgoing b :=
      fun member => lt_irrefl _ (g.outgoing_lt b _ member)
    have freshIncoming (b : BlockId) : g.edgeCount ∉ g.incoming b :=
      fun member => lt_irrefl _ (g.incoming_lt b _ member)
    { g with
      edge := Function.update g.edge g.edgeCount { source, target }
      edgeCount := g.edgeCount + 1
      block := g.linkBlocks source target
      outgoing_source := fun b e member => by
        simp only [linkBlocks_apply] at member
        split_ifs at member with sourced
        · rcases g.mem_insertEdge.mp member with rfl | member
          · simp [sourced]
          · rw [old (g.outgoing_lt b e member)]
            exact g.outgoing_source b e member
        · rw [old (g.outgoing_lt b e member)]
          exact g.outgoing_source b e member
      outgoing_lt := fun b e member => by
        simp only [linkBlocks_apply] at member
        split_ifs at member
        · rcases g.mem_insertEdge.mp member with rfl | member
          · exact Nat.lt_succ_self _
          · exact Nat.lt_succ_of_lt (g.outgoing_lt b e member)
        · exact Nat.lt_succ_of_lt (g.outgoing_lt b e member)
      outgoing_nodup := fun b => by
        simp only [linkBlocks_apply]
        split_ifs
        · exact g.nodup_insertEdge (g.outgoing_nodup b) (freshOutgoing b)
        · exact g.outgoing_nodup b
      incoming_target := fun b e member => by
        simp only [linkBlocks_apply] at member
        split_ifs at member with targeted
        · rcases g.mem_insertEdge.mp member with rfl | member
          · simp [targeted]
          · rw [old (g.incoming_lt b e member)]
            exact g.incoming_target b e member
        · rw [old (g.incoming_lt b e member)]
          exact g.incoming_target b e member
      incoming_lt := fun b e member => by
        simp only [linkBlocks_apply] at member
        split_ifs at member
        · rcases g.mem_insertEdge.mp member with rfl | member
          · exact Nat.lt_succ_self _
          · exact Nat.lt_succ_of_lt (g.incoming_lt b e member)
        · exact Nat.lt_succ_of_lt (g.incoming_lt b e member)
      incoming_nodup := fun b => by
        simp only [linkBlocks_apply]
        split_ifs
        · exact g.nodup_insertEdge (g.incoming_nodup b) (freshIncoming b)
        · exact g.incoming_nodup b
      endpoint_lt := fun e below => by
        rcases Nat.lt_succ_iff_lt_or_eq.mp below with below | rfl
        · rw [old below]
          exact g.endpoint_lt e below
        · simpa using bound
      start2bb_start := fun a b found => by
        simpa only [linkBlocks_apply] using g.start2bb_start a b found
      last2bb_last := fun a b found => by
        simpa only [linkBlocks_apply] using g.last2bb_last a b found }
  else g

/-- Missing end points become one-byte blocks outside every function. -/
def createAndAddEdge (source target : Address) : Cfg × EdgeId :=
  let (g, sourceBb) := match g.findBbByLastInsnAddress source with
    | some bb => (g, bb)
    | none => ((g.newBlock source (source + 1) source false []).storeBb g.blockCount, g.blockCount)
  let (g, targetBb) := match g.findBb target with
    | some bb => (g, bb)
    | none => ((g.newBlock target (target + 1) target false []).storeBb g.blockCount, g.blockCount)
  (g.link sourceBb targetBb, g.edgeCount)

def newFunction (fresh : ArmsFunction) : Cfg :=
  if allocated : ∀ b ∈ fresh.basicBlocks, b < g.blockCount then
    { g with
      func := Function.update g.func g.funcCount fresh
      funcCount := g.funcCount + 1
      basicBlocks_lt := fun f => by
        rcases eq_or_ne f g.funcCount with rfl | other
        · rw [Function.update_self]
          exact allocated
        · rw [Function.update_of_ne other]
          exact g.basicBlocks_lt f }
  else g

def updateFunction (f : FuncId) (change : ArmsFunction → ArmsFunction)
    (keepsBlocks : ∀ x, (change x).basicBlocks = x.basicBlocks) : Cfg :=
  { g with
    func := Function.update g.func f (change (g.func f))
    basicBlocks_lt := fun x => by
      rcases eq_or_ne x f with rfl | other
      · rw [Function.update_self, keepsBlocks]
        exact g.basicBlocks_lt x
      · rw [Function.update_of_ne other]
        exact g.basicBlocks_lt x }

def setIsLibDummy (f : FuncId) : Cfg :=
  g.updateFunction f (fun x => { x with isLibDummy := true }) (fun _ => rfl)

def insertFunction (entry : Address × FuncId) : List (Address × FuncId) → List (Address × FuncId)
  | [] => [entry]
  | x :: rest =>
      if entry.1 = x.1 then entry :: rest
      else if entry.1 < x.1 then entry :: x :: rest
      else x :: insertFunction entry rest

def storeFunction (f : FuncId) : Cfg :=
  { g with functions := insertFunction ((g.func f).baseAddr, f) g.functions }

def createDummyFunction (funname : String) (baseAddress : Address) : Cfg × FuncId :=
  match g.findFunction baseAddress with
  | some f => (g, f)
  | none =>
      let f := g.funcCount
      let g := (g.newFunction { baseAddr := baseAddress, funname }).storeFunction f
      let bb := g.blockCount
      let g := (g.newBlock baseAddress (baseAddress + 1) baseAddress true [f]).storeBb bb
      (g.updateFunction f (fun x => { x with entryPoints := [bb], exitPoints := [bb] })
        (fun _ => rfl), f)

end Updates

/-! ## What the updates change -/

section Changes
variable {g : Cfg}

theorem findBb_lt {a : Address} {b : BlockId} (found : g.findBb a = some b) : b < g.blockCount :=
  (g.start2bb_start a b found).1

theorem findBbByLastInsnAddress_lt {a : Address} {b : BlockId}
    (found : g.findBbByLastInsnAddress a = some b) : b < g.blockCount :=
  (g.last2bb_last a b found).1

section UpdateEdge
variable {change : ArmsEdge → ArmsEdge} {keepsSource : ∀ x, (change x).source = x.source}
  {keepsTarget : ∀ x, (change x).target = x.target}

theorem updateEdge_edge (e : EdgeId) : (g.updateEdge e change keepsSource keepsTarget).edge =
    Function.update g.edge e (change (g.edge e)) := rfl

theorem updateEdge_source (e x : EdgeId) :
    (g.updateEdge e change keepsSource keepsTarget).source x = g.source x := by
  rw [source, updateEdge_edge]
  rcases eq_or_ne x e with rfl | other
  · rw [Function.update_self, keepsSource]
  · rw [Function.update_of_ne other]

theorem updateEdge_target (e x : EdgeId) :
    (g.updateEdge e change keepsSource keepsTarget).target x = g.target x := by
  rw [target, updateEdge_edge]
  rcases eq_or_ne x e with rfl | other
  · rw [Function.update_self, keepsTarget]
  · rw [Function.update_of_ne other]

end UpdateEdge

@[simp] theorem setHidden_edge (e : EdgeId) (hidden : Bool) :
    (g.setHidden e hidden).edge = Function.update g.edge e ((g.edge e).setHidden hidden) := rfl

theorem setHidden_type (e x : EdgeId) (hidden : Bool) :
    ((g.setHidden e hidden).edge x).type = (g.edge x).type := by
  rw [setHidden_edge]
  rcases eq_or_ne x e with rfl | other
  · rw [Function.update_self]
    rfl
  · rw [Function.update_of_ne other]

@[simp] theorem setType_edge (e : EdgeId) (type : ArmsEdgeType) :
    (g.setType e type).edge = Function.update g.edge e ((g.edge e).setType type) := rfl

@[simp] theorem setType_block (e : EdgeId) (type : ArmsEdgeType) :
    (g.setType e type).block = g.block := rfl

section NewBlock
variable {startAddress endAddress last : Address} {isDummy : Bool} {funcs : List FuncId}

theorem newBlock_block_of_ne {b : BlockId} (other : b ≠ g.blockCount) :
    (g.newBlock startAddress endAddress last isDummy funcs).block b = g.block b :=
  Function.update_of_ne other _ _

theorem newBlock_block_self :
    (g.newBlock startAddress endAddress last isDummy funcs).block g.blockCount =
      { startAddress, endAddress, lastInsnAddress := last, isDummy, funcs } :=
  Function.update_self _ _ _

theorem newBlock_outgoing (b : BlockId) :
    (g.newBlock startAddress endAddress last isDummy funcs).outgoing b = g.outgoing b := by
  rcases eq_or_ne b g.blockCount with rfl | other
  · rw [outgoing, newBlock_block_self, g.outgoing_of_not_lt (lt_irrefl _)]
  · rw [outgoing, newBlock_block_of_ne other]

theorem newBlock_incoming (b : BlockId) :
    (g.newBlock startAddress endAddress last isDummy funcs).incoming b = g.incoming b := by
  rcases eq_or_ne b g.blockCount with rfl | other
  · rw [incoming, newBlock_block_self, g.incoming_of_not_lt (lt_irrefl _)]
  · rw [incoming, newBlock_block_of_ne other]

end NewBlock

theorem storeBb_same (b : BlockId) : (g.storeBb b).block = g.block ∧ (g.storeBb b).edge = g.edge ∧
    (g.storeBb b).blockCount = g.blockCount ∧ (g.storeBb b).edgeCount = g.edgeCount ∧
    (g.storeBb b).functions = g.functions ∧ (g.storeBb b).func = g.func := by
  unfold storeBb
  split_ifs <;> simp

theorem findBb_storeBb {b : BlockId} (allocated : b < g.blockCount) :
    (g.storeBb b).findBb (g.block b).startAddress = some b := by
  simp [storeBb, allocated, findBb]

theorem storeBb_start2bb {b : BlockId} (allocated : b < g.blockCount) :
    (g.storeBb b).start2bb = Function.update g.start2bb (g.block b).startAddress (some b) := by
  simp [storeBb, allocated]

theorem link_start2bb (source target : BlockId) : (g.link source target).start2bb = g.start2bb := by
  unfold link
  split_ifs <;> rfl

theorem link_func (source target : BlockId) : (g.link source target).func = g.func := by
  unfold link
  split_ifs <;> rfl

theorem link_blockCount (source target : BlockId) :
    (g.link source target).blockCount = g.blockCount := by
  unfold link
  split_ifs <;> rfl

theorem link_data (source target b : BlockId) :
    ((g.link source target).block b).startAddress = (g.block b).startAddress ∧
      ((g.link source target).block b).isDummy = (g.block b).isDummy := by
  unfold link
  split_ifs
  · simp [linkBlocks_apply]
  · exact ⟨rfl, rfl⟩

theorem link_outgoing_of_ne {source target b : BlockId} (other : b ≠ source) :
    (g.link source target).outgoing b = g.outgoing b := by
  unfold link
  split_ifs
  · simp [outgoing, linkBlocks_apply, other]
  · rfl

section Link
variable {source target : BlockId} (bound : source < g.blockCount ∧ target < g.blockCount)
include bound

theorem link_edgeCount : (g.link source target).edgeCount = g.edgeCount + 1 := by
  simp [link, bound]

theorem link_edge : (g.link source target).edge =
    Function.update g.edge g.edgeCount { source, target } := by
  simp [link, bound]

theorem link_block : (g.link source target).block = g.linkBlocks source target := by
  simp [link, bound]

theorem link_same : (g.link source target).blockCount = g.blockCount ∧
    (g.link source target).functions = g.functions ∧ (g.link source target).func = g.func := by
  simp [link, bound]

theorem mem_outgoing_link {b : BlockId} {e : EdgeId} :
    e ∈ (g.link source target).outgoing b ↔
      b = source ∧ e = g.edgeCount ∨ e ∈ g.outgoing b := by
  rw [outgoing, link_block bound, linkBlocks_apply]
  by_cases sourced : b = source
  · simp [sourced, mem_insertEdge]
  · simp [sourced]

theorem mem_incoming_link {b : BlockId} {e : EdgeId} :
    e ∈ (g.link source target).incoming b ↔
      b = target ∧ e = g.edgeCount ∨ e ∈ g.incoming b := by
  rw [incoming, link_block bound, linkBlocks_apply]
  by_cases targeted : b = target
  · simp [targeted, mem_insertEdge]
  · simp [targeted]

end Link

end Changes

def ofEdges (edgeAddress : EdgeId → Nat) (blocks : List (Address × Address))
    (edges : List (BlockId × BlockId × ArmsEdgeType)) : Cfg :=
  let stored := blocks.foldl (fun g (start, last) =>
    (g.newBlock start (last + 1) last false []).storeBb g.blockCount) (empty edgeAddress)
  edges.foldl (fun g (source, target, type) => (g.link source target).setType g.edgeCount type) stored

end Cfg

end PathArmor.Analyzer

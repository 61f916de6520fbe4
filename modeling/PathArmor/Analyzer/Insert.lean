import PathArmor.Analyzer.Cfg

/-!
# Building the graph from a parse

`DICFG` fills the graph with what Dyninst's parser reports: functions, their blocks, and for each
block its edges. An edge names its target by the start address of the block; where the parser does
not know the target, that is `sink`.
-/

namespace PathArmor.Analyzer

inductive ParseEdgeType
  | call | condTaken | condNotTaken | indirect | direct | fallthrough | catchEdge | callFt | ret
  | noEdge
  deriving DecidableEq, Repr

/-- An edge of a block has a type: the assertion in `copy_edge_type` holds. -/
structure ParseEdge where
  type : ParseEdgeType
  trg : Address
  interproc : Bool
  typed : type ≠ .noEdge := by decide

structure ParseBlock where
  start : Address
  endAddress : Address
  last : Address
  /-- The addresses of the functions that contain the block. -/
  funcs : List Address
  targets : List ParseEdge

/-- The entry block and the return blocks, given by their start addresses, are blocks of the
function. -/
structure ParseFunction where
  addr : Address
  name : String
  blocks : List ParseBlock
  entry : Address
  returnBlocks : List Address
  entry_mem : entry ∈ blocks.map (·.start)
  return_mem : ∀ a ∈ returnBlocks, a ∈ blocks.map (·.start)

/-- The parsed functions, with the ranges of the modules and the entries of the function binding
table. Blocks may be shared, also between functions that list different blocks at one address. -/
structure ParseResult where
  mods : List (Address × Address)
  funcs : List ParseFunction
  plts : List Address
  containing : ∀ func ∈ funcs, ∀ block ∈ func.blocks, ∀ a ∈ block.funcs, a ∈ funcs.map (·.addr)

def ParseResult.blocks (p : ParseResult) : List ParseBlock := p.funcs.flatMap (·.blocks)

/-- The address −1. -/
def sink : Address := 0xffffffffffffffff

def dummyAddr : Address := 0x2910

def copyEdgeType (edge : ParseEdge) (indirect : Bool) : ArmsEdgeType :=
  match edge.type, edge.typed with
  | .call, _ => if indirect then .indirectCall else .directCall
  | .condTaken, _ => .condTaken
  | .condNotTaken, _ => .condNotTaken
  | .indirect, _ => if edge.interproc then .interIndirectJmp else .indirectJmp
  | .direct, _ => if edge.interproc then .interDirectJmp else .directJmp
  | .fallthrough, _ => .fallthrough
  | .catchEdge, _ => .catchEdge
  | .callFt, _ => .callFt
  | .ret, _ => .ret
  | .noEdge, typed => absurd rfl typed

namespace Cfg
variable (g : Cfg)

/-- Insertion into a `std::set<ArmsBasicBlock*>`; `blockAddress` is where the blocks lie. -/
def insertBlock (blockAddress : BlockId → Nat) (b : BlockId) (blocks : List BlockId) :
    List BlockId :=
  if b ∈ blocks then blocks
  else blocks.orderedInsert (fun x y => blockAddress x ≤ blockAddress y) b

theorem mem_insertBlock {blockAddress : BlockId → Nat} {b x : BlockId} {blocks : List BlockId} :
    x ∈ insertBlock blockAddress b blocks ↔ x = b ∨ x ∈ blocks := by
  unfold insertBlock
  split_ifs with known
  · exact ⟨.inr, fun either => either.elim (fun same => same ▸ known) id⟩
  · exact List.mem_orderedInsert _

def addBb (blockAddress : BlockId → Nat) (f : FuncId) (b : BlockId) : Cfg :=
  if bound : b < g.blockCount then
    { g with
      func := Function.update g.func f
        { g.func f with basicBlocks := insertBlock blockAddress b (g.func f).basicBlocks }
      basicBlocks_lt := fun x c member => by
        rcases eq_or_ne x f with rfl | other
        · rw [Function.update_self] at member
          rcases mem_insertBlock.mp member with rfl | old
          · exact bound
          · exact g.basicBlocks_lt x c old
        · rw [Function.update_of_ne other] at member
          exact g.basicBlocks_lt x c member }
  else g

def addEntryBlock (blockAddress : BlockId → Nat) (f : FuncId) (b : BlockId) : Cfg :=
  g.updateFunction f
    (fun x => { x with entryPoints := insertBlock blockAddress b x.entryPoints }) (fun _ => rfl)

def addExitBlock (blockAddress : BlockId → Nat) (f : FuncId) (b : BlockId) : Cfg :=
  g.updateFunction f
    (fun x => { x with exitPoints := insertBlock blockAddress b x.exitPoints }) (fun _ => rfl)

def setIsPlt (f : FuncId) : Cfg :=
  g.updateFunction f (fun x => { x with isPlt := true }) (fun _ => rfl)

def markFunctionAsPlt (baseAddress : Address) : Cfg :=
  match g.findFunction baseAddress with
  | none => g
  | some f => g.setIsPlt f

/-- The range of the module grows; an address of 0 counts as not set. -/
def widen (first last : Address) : Cfg :=
  { g with
    startAddr := if g.startAddr = 0 ∨ first < g.startAddr then first else g.startAddr
    endAddr := if g.endAddr = 0 ∨ last > g.endAddr then last else g.endAddr }

def createFunction (func : ParseFunction) : Cfg :=
  if (g.findFunction func.addr).isSome then g
  else (g.newFunction { baseAddr := func.addr, funname := func.name }).storeFunction g.funcCount

def createBb (blockAddress : BlockId → Nat) (block : ParseBlock) : Cfg :=
  if (g.findBb block.start).isSome then g
  else
    let containing := block.funcs.filterMap g.findFunction
    let b := g.blockCount
    let g := (g.newBlock block.start block.endAddress block.last false containing).storeBb b
    containing.foldl (fun g cf => g.addBb blockAddress cf b) g

end Cfg

/-- The graph under construction with what else its construction reads and writes: where the blocks
lie, which ones are marked as exit blocks, and the process-wide counter of the dummy blocks. -/
structure Insertion where
  cfg : Cfg
  blockAddress : BlockId → Nat
  isExitBlock : BlockId → Bool
  numDummyBlocks : UInt64

namespace Insertion

def ofEmpty (edgeAddress : EdgeId → Nat) (blockAddress : BlockId → Nat) : Insertion where
  cfg := Cfg.empty edgeAddress
  blockAddress := blockAddress
  isExitBlock _ := false
  numDummyBlocks := 0

section Model
variable (resolver : Address → List Address) (p : ParseResult) (s : Insertion)

def markReturnBlock (f : FuncId) (s : Insertion) (a : Address) : Insertion :=
  match s.cfg.findBb a with
  | none => s
  | some b => { s with
      cfg := s.cfg.addExitBlock s.blockAddress f b
      isExitBlock := Function.update s.isExitBlock b true }

def markBlocks (s : Insertion) (func : ParseFunction) : Insertion :=
  match s.cfg.findFunction func.addr, s.cfg.findBb func.entry with
  | some f, some b => func.returnBlocks.foldl (markReturnBlock f)
      { s with cfg := s.cfg.addEntryBlock s.blockAddress f b }
  | _, _ => s

/-- A failed lookup would be a null pointer in the sources; by `lookups_succeed` none fails. -/
def insertFunctionsAndBbs : Insertion :=
  let functions := p.funcs.foldl Cfg.createFunction s.cfg
  let blocks := p.funcs.foldl (fun g func => func.blocks.foldl (·.createBb s.blockAddress ·) g) functions
  p.funcs.foldl markBlocks { s with cfg := blocks }

def addEdge (source target : BlockId) (type : ArmsEdgeType) : Insertion :=
  { s with cfg := (s.cfg.link source target).setType s.cfg.edgeCount type }

/-- The block is not registered, and `armsFun` does not list it. -/
def createDummyBasicBlock (armsFun : Option FuncId) : Insertion × BlockId :=
  let numDummyBlocks := s.numDummyBlocks + 1
  let addr := dummyAddr + numDummyBlocks
  ({ s with
      cfg := s.cfg.newBlock addr addr addr true armsFun.toList
      numDummyBlocks }, s.cfg.blockCount)

def createCallEdge (callSite : BlockId) (callTarget : Address) (type : ArmsEdgeType) : Insertion :=
  match s.cfg.findBb callTarget with
  | none => s
  | some target => s.addEdge callSite target type

def createRetEdges (callSite : BlockId) (target : Address) : Insertion :=
  match s.cfg.findBb (s.cfg.block callSite).endAddress, s.cfg.findBb target with
  | some retTarget, some callTarget =>
      (s.cfg.block callTarget).funcs.foldl (fun s f =>
        (s.cfg.func f).exitPoints.foldl (fun s retSite => s.addEdge retSite retTarget .ret) s) s
  | _, _ => s

def handleInterproceduralCall (callSite : BlockId) (target : Address) (type : ArmsEdgeType) :
    Insertion :=
  let s := s.createCallEdge callSite target type
  if edgeTypeIsIndirect type && !s.isExitBlock callSite then s.createRetEdges callSite target else s

def findTarget (g : Cfg) (edge : ParseEdge) : Option BlockId :=
  if edge.trg = sink then none else g.findBb edge.trg

def resolved (block : ParseBlock) (edge : ParseEdge) : List Address :=
  if edge.type = .call then resolver block.last else []

def insertEdge (armsFun : Option FuncId) (source : BlockId) (block : ParseBlock) (s : Insertion)
    (edge : ParseEdge) : Insertion :=
  if edge.type = .callFt then s
  else if edge.type = .ret ∧ edge.trg = sink then s
  else match findTarget s.cfg edge with
    | some target => s.addEdge source target (copyEdgeType edge (edge.trg == sink))
    | none =>
        let targets := resolved resolver block edge
        if targets ≠ [] then
          targets.foldl (fun s t => s.handleInterproceduralCall source t .indirectCall) s
        else
          let (s, target) := s.createDummyBasicBlock armsFun
          s.addEdge source target (copyEdgeType edge (edge.trg == sink))

def insertBlockEdges (s : Insertion) (entry : ParseFunction × ParseBlock) : Insertion :=
  let (func, block) := entry
  match s.cfg.findBb block.start with
  | none => s
  | some source => block.targets.foldl
      (insertEdge resolver (s.cfg.findFunction func.addr) source block) s

/-- The set of the starts that were seen lives for one call. -/
def insertEdges : Insertion :=
  (p.funcs.foldl (fun acc func => func.blocks.foldl (fun (s, seen) block =>
    if block.start ∈ seen then (s, seen)
    else (s.insertBlockEdges resolver (func, block), block.start :: seen)) acc) (s, [])).1

def setModuleRange : Insertion :=
  { s with cfg := p.mods.foldl (fun g range => g.widen range.1 range.2) s.cfg }

def markPlts : Insertion :=
  { s with cfg := p.plts.foldl (fun g a => (g.widen a a).markFunctionAsPlt a) s.cfg }

def parseAll : Insertion := ((s.setModuleRange p).insertFunctionsAndBbs p).markPlts p

/-- `try_ParseAPI`, from any state. -/
def tryParseAPI : Insertion := (s.parseAll p).insertEdges resolver p

def retouch : Insertion := ((s.parseAll p).insertFunctionsAndBbs p).insertEdges resolver p

end Model

end Insertion

/-! ## Functions and blocks -/

namespace Cfg
variable {g g' g'' : Cfg}

variable (g) in
/-- Blocks, edges and the registered start addresses are as they were. -/
structure SameHeap (g' : Cfg) : Prop where
  block : g'.block = g.block
  blockCount : g'.blockCount = g.blockCount
  edge : g'.edge = g.edge
  edgeCount : g'.edgeCount = g.edgeCount
  start2bb : g'.start2bb = g.start2bb

namespace SameHeap

theorem refl (g : Cfg) : SameHeap g g := ⟨rfl, rfl, rfl, rfl, rfl⟩

theorem trans (first : SameHeap g g') (second : SameHeap g' g'') : SameHeap g g'' :=
  ⟨second.block.trans first.block, second.blockCount.trans first.blockCount,
    second.edge.trans first.edge, second.edgeCount.trans first.edgeCount,
    second.start2bb.trans first.start2bb⟩

theorem foldl {β : Type} {step : Cfg → β → Cfg} {xs : List β}
    (same : ∀ x ∈ xs, ∀ g, SameHeap g (step g x)) (g : Cfg) : SameHeap g (xs.foldl step g) :=
  List.foldlRecOn xs step (.refl g) fun g' before x member => before.trans (same x member g')

theorem addBb (blockAddress : BlockId → Nat) (f : FuncId) (b : BlockId) :
    SameHeap g (g.addBb blockAddress f b) := by
  unfold Cfg.addBb
  split_ifs
  · exact ⟨rfl, rfl, rfl, rfl, rfl⟩
  · exact .refl g

theorem createFunction (func : ParseFunction) : SameHeap g (g.createFunction func) := by
  unfold Cfg.createFunction
  split_ifs
  · exact .refl g
  · refine ⟨?_, ?_, ?_, ?_, ?_⟩ <;> simp [Cfg.storeFunction, Cfg.newFunction]

theorem markFunctionAsPlt (a : Address) : SameHeap g (g.markFunctionAsPlt a) := by
  unfold Cfg.markFunctionAsPlt
  cases g.findFunction a with
  | none => exact .refl g
  | some f => exact ⟨rfl, rfl, rfl, rfl, rfl⟩

theorem widen (first last : Address) : SameHeap g (g.widen first last) := ⟨rfl, rfl, rfl, rfl, rfl⟩

end SameHeap

theorem createBb_of_found {blockAddress : BlockId → Nat} {block : ParseBlock}
    (found : g.findBb block.start ≠ none) : g.createBb blockAddress block = g := by
  rw [createBb, if_pos (Option.isSome_iff_ne_none.mpr found)]

/-- The new block with its functions. -/
theorem createBb_same {blockAddress : BlockId → Nat} {block : ParseBlock}
    (missing : g.findBb block.start = none) :
    SameHeap ((g.newBlock block.start block.endAddress block.last false
      (block.funcs.filterMap g.findFunction)).storeBb g.blockCount)
      (g.createBb blockAddress block) := by
  rw [createBb, missing]
  exact .foldl (fun f _ g => .addBb blockAddress f _) _

theorem createBb_start2bb {blockAddress : BlockId → Nat} {block : ParseBlock}
    (missing : g.findBb block.start = none) : (g.createBb blockAddress block).start2bb =
      Function.update g.start2bb block.start (some g.blockCount) := by
  rw [(createBb_same missing).start2bb, storeBb_start2bb (Nat.lt_succ_self _)]
  simp [newBlock]

theorem createBb_functions (blockAddress : BlockId → Nat) (block : ParseBlock) :
    (g.createBb blockAddress block).functions = g.functions := by
  have added (f : FuncId) (b : BlockId) (h : Cfg) :
      (h.addBb blockAddress f b).functions = h.functions := by
    unfold addBb
    split_ifs <;> rfl
  unfold createBb
  split_ifs
  · rfl
  · refine List.foldlRecOn (motive := fun h : Cfg => h.functions = g.functions) _ _ ?_
      fun h same f _ => (added f _ h).trans same
    exact (storeBb_same (g := g.newBlock _ _ _ _ _) _).2.2.2.2.1

theorem findBb_createBb {blockAddress : BlockId → Nat} {block : ParseBlock} {a : Address} :
    (g.createBb blockAddress block).findBb a ≠ none ↔ a = block.start ∨ g.findBb a ≠ none := by
  by_cases missing : g.findBb block.start = none
  · rw [findBb, createBb_start2bb missing]
    rcases eq_or_ne a block.start with rfl | other
    · simp
    · simp [other, findBb]
  · rw [createBb_of_found missing]
    refine ⟨.inr, fun either => either.elim (fun same => ?_) id⟩
    rwa [same]

theorem findBb_createBbs {blockAddress : BlockId → Nat} {blocks : List ParseBlock} {a : Address} :
    (blocks.foldl (·.createBb blockAddress ·) g).findBb a ≠ none ↔
      a ∈ blocks.map (·.start) ∨ g.findBb a ≠ none := by
  induction blocks generalizing g with
  | nil => simp
  | cons block rest ih => rw [List.foldl_cons, ih, findBb_createBb, List.map_cons, List.mem_cons,
      or_left_comm, or_assoc]

theorem mem_insertFunction {entry : Address × FuncId} {functions : List (Address × FuncId)}
    {a : Address} : a ∈ (insertFunction entry functions).map (·.1) ↔
      a = entry.1 ∨ a ∈ functions.map (·.1) := by
  induction functions with
  | nil => simp [insertFunction]
  | cons x rest ih =>
      unfold insertFunction
      split_ifs with same before
      · simp [← same]
      · simp
      · rw [List.map_cons, List.mem_cons, ih, List.map_cons, List.mem_cons, or_left_comm]

theorem mem_of_mem_insertFunction {x entry : Address × FuncId}
    {functions : List (Address × FuncId)} (member : x ∈ insertFunction entry functions) :
    x = entry ∨ x ∈ functions := by
  induction functions with
  | nil => exact .inl (List.mem_singleton.mp member)
  | cons y rest ih =>
      unfold insertFunction at member
      split_ifs at member
      · exact (List.mem_cons.mp member).imp_right (List.mem_cons_of_mem _)
      · exact List.mem_cons.mp member
      · rcases List.mem_cons.mp member with rfl | later
        · exact .inr List.mem_cons_self
        · exact (ih later).imp_right (List.mem_cons_of_mem _)

theorem findFunction_ne_none_iff {a : Address} :
    g.findFunction a ≠ none ↔ a ∈ g.functions.map (·.1) := by
  rw [ne_eq, findFunction, Option.map_eq_none_iff, List.find?_eq_none]
  simp

theorem findFunction_createFunction {func : ParseFunction} {a : Address} :
    (g.createFunction func).findFunction a ≠ none ↔ a = func.addr ∨ g.findFunction a ≠ none := by
  unfold createFunction
  split_ifs with known
  · refine ⟨.inr, fun either => either.elim (fun same => ?_) id⟩
    rw [same]
    exact Option.isSome_iff_ne_none.mp known
  · rw [findFunction_ne_none_iff, findFunction_ne_none_iff, storeFunction, mem_insertFunction]
    simp [newFunction]

theorem findFunction_createFunctions {funcs : List ParseFunction} {a : Address} :
    (funcs.foldl createFunction g).findFunction a ≠ none ↔
      a ∈ funcs.map (·.addr) ∨ g.findFunction a ≠ none := by
  induction funcs generalizing g with
  | nil => simp
  | cons func rest ih => rw [List.foldl_cons, ih, findFunction_createFunction, List.map_cons,
      List.mem_cons, or_left_comm, or_assoc]

end Cfg

namespace Insertion
open Cfg

theorem markReturnBlock_same (f : FuncId) (s : Insertion) (a : Address) :
    SameHeap s.cfg (s.markReturnBlock f a).cfg := by
  unfold markReturnBlock
  cases s.cfg.findBb a with
  | none => exact .refl _
  | some b => exact ⟨rfl, rfl, rfl, rfl, rfl⟩

theorem markBlocks_same (s : Insertion) (func : ParseFunction) :
    SameHeap s.cfg (s.markBlocks func).cfg := by
  unfold markBlocks
  split
  · next f b _ _ =>
      exact List.foldlRecOn (motive := fun s' : Insertion => SameHeap s.cfg s'.cfg) _ _
        ⟨rfl, rfl, rfl, rfl, rfl⟩ fun s' before a _ => before.trans (markReturnBlock_same f s' a)
  · exact .refl _

section Passes
variable (p : ParseResult) (s : Insertion)

/-- The graph with the functions and blocks of `p`, before its blocks are marked. -/
def insertBlocks : Cfg := p.blocks.foldl (·.createBb s.blockAddress ·) (p.funcs.foldl createFunction s.cfg)

theorem insertFunctionsAndBbs_same :
    SameHeap (s.insertBlocks p) (s.insertFunctionsAndBbs p).cfg := by
  have blocks : p.funcs.foldl (fun g func => func.blocks.foldl (·.createBb s.blockAddress ·) g)
      (p.funcs.foldl createFunction s.cfg) = s.insertBlocks p := by
    rw [insertBlocks, ParseResult.blocks, List.foldl_flatMap]
  rw [insertFunctionsAndBbs, blocks]
  exact List.foldlRecOn (motive := fun s' : Insertion => SameHeap (s.insertBlocks p) s'.cfg) _ _
    (.refl _) fun s' before func _ => before.trans (markBlocks_same s' func)

/-- The functions a block names are there before the blocks are inserted, and a function with its
entry and return blocks is there when they are marked. -/
theorem lookups_succeed :
    (∀ block ∈ p.blocks, ∀ a ∈ block.funcs,
      (p.funcs.foldl createFunction s.cfg).findFunction a ≠ none) ∧
    ∀ func ∈ p.funcs, (s.insertBlocks p).findFunction func.addr ≠ none ∧
      ∀ a ∈ func.entry :: func.returnBlocks, (s.insertBlocks p).findBb a ≠ none := by
  have functions : (s.insertBlocks p).functions = (p.funcs.foldl createFunction s.cfg).functions :=
    List.foldlRecOn
      (motive := fun g : Cfg => g.functions = (p.funcs.foldl createFunction s.cfg).functions) _ _ rfl
      fun g same block _ => (createBb_functions s.blockAddress block).trans same
  refine ⟨fun block member a contains => ?_, fun func member => ⟨?_, fun a marked => ?_⟩⟩
  · obtain ⟨func, listed, inside⟩ := List.mem_flatMap.mp member
    exact findFunction_createFunctions.mpr (.inl (p.containing func listed block inside a contains))
  · rw [findFunction_ne_none_iff, functions, ← findFunction_ne_none_iff]
    exact findFunction_createFunctions.mpr (.inl (List.mem_map_of_mem member))
  · have start : a ∈ func.blocks.map (·.start) := by
      rcases List.mem_cons.mp marked with rfl | returns
      · exact func.entry_mem
      · exact func.return_mem a returns
    obtain ⟨block, inside, rfl⟩ := List.mem_map.mp start
    exact findBb_createBbs.mpr (.inl (List.mem_map_of_mem (List.mem_flatMap.mpr ⟨func, member, inside⟩)))

theorem findBb_insertFunctionsAndBbs {a : Address} :
    (s.insertFunctionsAndBbs p).cfg.findBb a ≠ none ↔
      a ∈ p.blocks.map (·.start) ∨ s.cfg.findBb a ≠ none := by
  have functions : SameHeap s.cfg (p.funcs.foldl createFunction s.cfg) :=
    .foldl (fun func _ _ => .createFunction func) _
  rw [findBb, (insertFunctionsAndBbs_same p s).start2bb, insertBlocks, ← findBb, findBb_createBbs,
    findBb, functions.start2bb]
  rfl

/-- Blocks that are registered already are not inserted again. -/
theorem insertFunctionsAndBbs_again (inserted : ∀ block ∈ p.blocks, s.cfg.findBb block.start ≠ none) :
    SameHeap s.cfg (s.insertFunctionsAndBbs p).cfg := by
  have functions : SameHeap s.cfg (p.funcs.foldl createFunction s.cfg) :=
    .foldl (fun func _ _ => .createFunction func) _
  have blocks : s.insertBlocks p = p.funcs.foldl createFunction s.cfg :=
    List.foldlRecOn (motive := fun g => g = p.funcs.foldl createFunction s.cfg) _ _ rfl
      fun g same block member => by
        rw [same, createBb_of_found]
        rw [findBb, functions.start2bb]
        exact inserted block member
  exact functions.trans (blocks ▸ insertFunctionsAndBbs_same p s)

theorem setModuleRange_same : SameHeap s.cfg (s.setModuleRange p).cfg :=
  .foldl (fun range _ _ => .widen range.1 range.2) _

theorem markPlts_same : SameHeap s.cfg (s.markPlts p).cfg :=
  .foldl (fun a _ _ => (SameHeap.widen a a).trans (.markFunctionAsPlt a)) _

theorem findBb_parseAll {a : Address} : (s.parseAll p).cfg.findBb a ≠ none ↔
    a ∈ p.blocks.map (·.start) ∨ s.cfg.findBb a ≠ none := by
  rw [findBb, parseAll, (markPlts_same p _).start2bb, ← findBb, findBb_insertFunctionsAndBbs, findBb,
    (setModuleRange_same p s).start2bb]
  rfl

theorem parseAll_again (inserted : ∀ block ∈ p.blocks, s.cfg.findBb block.start ≠ none) :
    SameHeap s.cfg (s.parseAll p).cfg := by
  have range := setModuleRange_same p s
  refine range.trans ((insertFunctionsAndBbs_again p _ fun block member => ?_).trans
    (markPlts_same p _))
  rw [findBb, range.start2bb]
  exact inserted block member

end Passes

/-! ## Edges -/

/-- What `insertEdges` does not change. -/
structure Frame (g g' : Cfg) : Prop where
  start2bb : g'.start2bb = g.start2bb
  func : g'.func = g.func

theorem Frame.trans {g g' g'' : Cfg} (first : Frame g g') (second : Frame g' g'') : Frame g g'' :=
  ⟨second.start2bb.trans first.start2bb, second.func.trans first.func⟩

/-- Where an inserted edge may start: at a registered block, or at an exit block of a function. -/
def IsSource (g : Cfg) (b : BlockId) : Prop :=
  (∃ a, g.findBb a = some b) ∨ ∃ f, b ∈ (g.func f).exitPoints

theorem Frame.isSource_iff {g g' : Cfg} (frame : Frame g g') {b : BlockId} :
    IsSource g' b ↔ IsSource g b := by
  simp only [IsSource, findBb, frame.start2bb, frame.func]

/-- All that the insertion of edges does is to add edges and dummy blocks. -/
inductive Adds (s : Insertion) : Insertion → Prop
  | refl : Adds s s
  | edge {s' : Insertion} {source : BlockId} (before : Adds s s') (isSource : IsSource s.cfg source)
      (target : BlockId) (type : ArmsEdgeType) : Adds s (s'.addEdge source target type)
  | dummy {s' : Insertion} (before : Adds s s') (armsFun : Option FuncId) :
      Adds s (s'.createDummyBasicBlock armsFun).1

namespace Adds
variable {s s' s'' : Insertion}

theorem frame (adds : Adds s s') : Frame s.cfg s'.cfg := by
  induction adds with
  | refl => exact ⟨rfl, rfl⟩
  | edge _ _ target _ ih => exact ih.trans ⟨link_start2bb _ target, link_func _ target⟩
  | dummy _ _ ih => exact ih.trans ⟨rfl, rfl⟩

theorem trans (first : Adds s s') (second : Adds s' s'') : Adds s s'' := by
  induction second with
  | refl => exact first
  | edge _ isSource target type ih => exact ih.edge (first.frame.isSource_iff.mp isSource) target type
  | dummy _ armsFun ih => exact ih.dummy armsFun

theorem foldl {β : Type} {step : Insertion → β → Insertion} {xs : List β}
    (adds : ∀ x ∈ xs, ∀ s', Frame s.cfg s'.cfg → Adds s' (step s' x)) : Adds s (xs.foldl step s) :=
  List.foldlRecOn xs step .refl fun s' before x member =>
    before.trans (adds x member s' before.frame)

end Adds

section
variable {s : Insertion} {callSite : BlockId}

theorem createCallEdge_adds (isSource : IsSource s.cfg callSite) (target : Address)
    (type : ArmsEdgeType) : Adds s (s.createCallEdge callSite target type) := by
  unfold createCallEdge
  cases s.cfg.findBb target with
  | none => exact .refl
  | some b => exact .edge .refl isSource b type

theorem createRetEdges_adds (callSite : BlockId) (target : Address) :
    Adds s (s.createRetEdges callSite target) := by
  unfold createRetEdges
  split
  · refine .foldl fun f _ s₁ _ => .foldl fun retSite member s₂ frame => .edge .refl ?_ _ _
    exact frame.isSource_iff.mpr (.inr ⟨f, member⟩)
  · exact .refl

theorem handleInterproceduralCall_adds (isSource : IsSource s.cfg callSite) (target : Address)
    (type : ArmsEdgeType) : Adds s (s.handleInterproceduralCall callSite target type) := by
  have called := createCallEdge_adds isSource target type
  simp only [handleInterproceduralCall]
  split_ifs
  · exact called.trans (createRetEdges_adds callSite target)
  · exact called

variable {resolver : Address → List Address}

theorem insertEdge_adds {source : BlockId} (isSource : IsSource s.cfg source)
    (armsFun : Option FuncId) (block : ParseBlock) (edge : ParseEdge) :
    Adds s (insertEdge resolver armsFun source block s edge) := by
  unfold insertEdge
  split_ifs
  · exact .refl
  · exact .refl
  · cases findTarget s.cfg edge with
    | some target => exact .edge .refl isSource target _
    | none =>
        dsimp only
        split_ifs
        · exact .foldl fun t _ s₁ frame =>
            handleInterproceduralCall_adds (frame.isSource_iff.mpr isSource) t _
        · exact .edge (.dummy .refl armsFun) isSource _ _

theorem insertBlockEdges_adds (entry : ParseFunction × ParseBlock) :
    Adds s (s.insertBlockEdges resolver entry) := by
  obtain ⟨func, block⟩ := entry
  simp only [insertBlockEdges]
  cases found : s.cfg.findBb block.start with
  | none => exact .refl
  | some source =>
      exact .foldl fun edge _ s₁ frame =>
        insertEdge_adds (frame.isSource_iff.mpr (.inl ⟨_, found⟩)) _ _ edge

end

/-- The blocks whose edges are inserted: the first one at each start address. -/
def unseen (seen : List Address) :
    List (ParseFunction × ParseBlock) → List (ParseFunction × ParseBlock)
  | [] => []
  | entry :: rest =>
      if entry.2.start ∈ seen then unseen seen rest
      else entry :: unseen (entry.2.start :: seen) rest

def firstBlocks (p : ParseResult) : List (ParseFunction × ParseBlock) :=
  unseen [] (p.funcs.flatMap fun func => func.blocks.map (func, ·))

theorem insertEdges_eq (resolver : Address → List Address) (p : ParseResult) (s : Insertion) :
    s.insertEdges resolver p = (firstBlocks p).foldl (insertBlockEdges resolver) s := by
  let step : Insertion × List Address → ParseFunction × ParseBlock → Insertion × List Address :=
    fun (s, seen) entry => if entry.2.start ∈ seen then (s, seen)
      else (s.insertBlockEdges resolver entry, entry.2.start :: seen)
  have loop (entries : List (ParseFunction × ParseBlock)) (s : Insertion) (seen : List Address) :
      (entries.foldl step (s, seen)).1 =
        (unseen seen entries).foldl (insertBlockEdges resolver) s := by
    induction entries generalizing s seen with
    | nil => rfl
    | cons entry rest ih =>
        rw [List.foldl_cons, unseen]
        by_cases known : entry.2.start ∈ seen
        · simp only [step, known, if_true]
          exact ih s seen
        · simp only [step, known, if_false]
          exact ih _ _
  rw [firstBlocks, ← loop, List.foldl_flatMap]
  simp only [List.foldl_map]
  rfl

theorem insertEdges_adds {resolver : Address → List Address} {p : ParseResult} {s : Insertion} :
    Adds s (s.insertEdges resolver p) := by
  rw [insertEdges_eq]
  exact .foldl fun entry _ _ _ => insertBlockEdges_adds entry

theorem findBb_tryParseAPI (resolver : Address → List Address) (p : ParseResult) (s : Insertion)
    {a : Address} : (s.tryParseAPI resolver p).cfg.findBb a ≠ none ↔
      a ∈ p.blocks.map (·.start) ∨ s.cfg.findBb a ≠ none := by
  rw [findBb, tryParseAPI, insertEdges_adds.frame.start2bb]
  exact findBb_parseAll p s

end Insertion

end PathArmor.Analyzer

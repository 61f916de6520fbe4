import PathArmor.Analyzer.Collapse
import PathArmor.Analyzer.Insert

/-!
# Collapsing a graph with dummy blocks

A branch without a known target gets a dummy block. Its address is made up, counting on from
`dummyAddr`, and it is not registered before a fastpath leads to it. By then a parsed block may have
been registered at that address, as in a position independent executable, and the assertion that the
block found there is the end of the fastpath fails.
-/

namespace PathArmor.Analyzer

namespace Cfg
variable {g g' : Cfg}

variable (g) in
/-- What every graph built from a parse satisfies: its real blocks are the registered ones, and
dummy blocks lie in no function and have no outgoing edges. -/
structure Built : Prop where
  real : ∀ b < g.blockCount, (g.block b).isDummy = false → g.Registered b
  registered : ∀ a b, g.findBb a = some b → (g.block b).isDummy = false
  inside : ∀ f, ∀ b ∈ (g.func f).basicBlocks, (g.block b).isDummy = false
  exits : ∀ f, ∀ b ∈ (g.func f).exitPoints, b < g.blockCount ∧ (g.block b).isDummy = false
  deadEnd : ∀ b, (g.block b).isDummy → g.outgoing b = []

variable (g) in
/-- A dummy block to which `simplifyCfg` creates a fastpath. -/
def StrayDummy (d : BlockId) : Prop :=
  (g.block d).isDummy ∧ ∃ bb, g.InOrdinaryFunction bb ∧ g.internal.Reach bb d

namespace Built

theorem endpoint_iff (built : g.Built) {d : BlockId} (dummy : (g.block d).isDummy) :
    g.Endpoint d ↔ g.StrayDummy d := by
  have outside {b : BlockId} (ordinary : g.InOrdinaryFunction b) : (g.block b).isDummy = false := by
    obtain ⟨entry, -, -, member⟩ := ordinary
    exact built.inside entry.2 b member
  constructor
  · rintro ⟨c, shortcut | shortcut⟩
    · simp [outside shortcut.ordinary] at dummy
    · exact ⟨dummy, c, shortcut.ordinary, shortcut.reach⟩
  · rintro ⟨-, bb, ordinary, reach⟩
    refine ⟨bb, .inr ⟨ordinary, reach, ?_, .inl (built.deadEnd d dummy)⟩⟩
    rintro rfl
    simp [outside ordinary] at dummy

theorem registered_of_endpoint (built : g.Built) {b : BlockId} (endpoint : g.Endpoint b)
    (real : (g.block b).isDummy = false) : g.findBb (g.block b).startAddress = some b :=
  built.real b endpoint.allocated real

theorem unambiguous_iff (built : g.Built) : g.Unambiguous ↔ ∀ d, g.StrayDummy d →
    g.findBb (g.block d).startAddress = none ∧ ∀ d', g.StrayDummy d' →
      (g.block d').startAddress = (g.block d).startAddress → d' = d := by
  constructor
  · intro unambiguous d stray
    have endpoint := (built.endpoint_iff stray.1).mpr stray
    constructor
    · cases found : g.findBb (g.block d).startAddress with
      | none => rfl
      | some c =>
          have real := built.registered _ c found
          rw [unambiguous d c endpoint (.inl found)] at real
          simp [stray.1] at real
    · intro d' stray' same
      exact unambiguous d d' endpoint (.inr ⟨(built.endpoint_iff stray'.1).mpr stray', same⟩)
  · intro free b c endpoint clash
    cases dummyB : (g.block b).isDummy with
    | true =>
        obtain ⟨missing, only⟩ := free b ((built.endpoint_iff dummyB).mp endpoint)
        rcases clash with found | ⟨endpointC, same⟩
        · simp [missing] at found
        · cases dummyC : (g.block c).isDummy with
          | true => exact only c ((built.endpoint_iff dummyC).mp endpointC) same
          | false =>
              have found := built.registered_of_endpoint endpointC dummyC
              simp [same, missing] at found
    | false =>
        have foundB := built.registered_of_endpoint endpoint dummyB
        rcases clash with found | ⟨endpointC, same⟩
        · exact Option.some.inj (found.symm.trans foundB)
        · cases dummyC : (g.block c).isDummy with
          | true =>
              have missing := (free c ((built.endpoint_iff dummyC).mp endpointC)).1
              simp [same, foundB] at missing
          | false =>
              have found := built.registered_of_endpoint endpointC dummyC
              rw [same] at found
              exact Option.some.inj (found.symm.trans foundB)

/-! ## Inserting functions and blocks -/

theorem empty (edgeAddress : EdgeId → Nat) : (Cfg.empty edgeAddress).Built := by
  refine ⟨?_, ?_, ?_, ?_, ?_⟩ <;> simp [Cfg.empty, findBb]

theorem of_sameHeap (built : g.Built) (same : g.SameHeap g')
    (inside : ∀ f, ∀ b ∈ (g'.func f).basicBlocks, (g.block b).isDummy = false)
    (exits : ∀ f, ∀ b ∈ (g'.func f).exitPoints, b < g.blockCount ∧ (g.block b).isDummy = false) :
    g'.Built where
  real b := by
    rw [same.blockCount, same.block, Registered, findBb, same.start2bb, same.block]
    exact built.real b
  registered a b := by
    rw [findBb, same.start2bb, same.block]
    exact built.registered a b
  inside := by rwa [same.block]
  exits := by rwa [same.block, same.blockCount]
  deadEnd b := by
    rw [outgoing, same.block]
    exact built.deadEnd b

/-- A function changes in what its blocks are, and the new ones are real. -/
theorem of_func (built : g.Built) (same : g.SameHeap g') {f : FuncId} {change : ArmsFunction}
    (func : g'.func = Function.update g.func f change)
    (inside : ∀ b ∈ change.basicBlocks, b ∉ (g.func f).basicBlocks → (g.block b).isDummy = false)
    (exits : ∀ b ∈ change.exitPoints, b ∉ (g.func f).exitPoints →
      b < g.blockCount ∧ (g.block b).isDummy = false) : g'.Built := by
  refine built.of_sameHeap same (fun x b member => ?_) fun x b member => ?_
  · rw [func] at member
    rcases eq_or_ne x f with rfl | other
    · rw [Function.update_self] at member
      by_cases old : b ∈ (g.func x).basicBlocks
      · exact built.inside x b old
      · exact inside b member old
    · rw [Function.update_of_ne other] at member
      exact built.inside x b member
  · rw [func] at member
    rcases eq_or_ne x f with rfl | other
    · rw [Function.update_self] at member
      by_cases old : b ∈ (g.func x).exitPoints
      · exact built.exits x b old
      · exact exits b member old
    · rw [Function.update_of_ne other] at member
      exact built.exits x b member

theorem createFunction (built : g.Built) (func : ParseFunction) : (g.createFunction func).Built := by
  have same := SameHeap.createFunction (g := g) func
  unfold Cfg.createFunction at same ⊢
  split_ifs at same ⊢
  · exact built
  · have added : ((g.newFunction { baseAddr := func.addr, funname := func.name }).storeFunction
        g.funcCount).func =
        Function.update g.func g.funcCount { baseAddr := func.addr, funname := func.name } := by
      simp [storeFunction, newFunction]
    exact built.of_func same added (by simp) (by simp)

theorem addBb (built : g.Built) {b : BlockId} (real : (g.block b).isDummy = false)
    (blockAddress : BlockId → Nat) (f : FuncId) : (g.addBb blockAddress f b).Built := by
  have same := SameHeap.addBb (g := g) blockAddress f b
  unfold Cfg.addBb at same ⊢
  split_ifs at same ⊢
  · refine built.of_func same rfl (fun c member new => ?_) fun c member new => absurd member new
    rcases mem_insertBlock.mp member with rfl | old
    · exact real
    · exact absurd old new
  · exact built

theorem newBlock (built : g.Built) {start : Address} (missing : g.findBb start = none)
    (endAddress last : Address) (funcs : List FuncId) :
    ((g.newBlock start endAddress last false funcs).storeBb g.blockCount).Built := by
  obtain ⟨block, -, blockCount, -, -, func⟩ :=
    storeBb_same (g := g.newBlock start endAddress last false funcs) g.blockCount
  have stored : ((g.newBlock start endAddress last false funcs).storeBb g.blockCount).start2bb =
      Function.update g.start2bb start (some g.blockCount) := by
    rw [storeBb_start2bb (Nat.lt_succ_self _), newBlock_block_self]
    rfl
  have old {b : BlockId} (bound : b < g.blockCount) :
      (g.newBlock start endAddress last false funcs).block b = g.block b :=
    newBlock_block_of_ne bound.ne
  refine ⟨fun b bound real => ?_, fun a b found => ?_, fun f b member => ?_, fun f b member => ?_,
    fun b dummy => ?_⟩
  · rw [Registered, findBb, stored, block]
    rcases Nat.lt_succ_iff_lt_or_eq.mp (blockCount ▸ bound) with bound | rfl
    · rw [block, old bound] at real
      have found := built.real b bound real
      rw [old bound, Function.update_of_ne]
      · exact found
      · rintro same
        rw [Registered, same, missing] at found
        cases found
    · rw [newBlock_block_self, Function.update_self]
  · rw [findBb, stored] at found
    rw [block]
    rcases eq_or_ne a start with rfl | other
    · rw [Function.update_self, Option.some.injEq] at found
      rw [← found, newBlock_block_self]
    · rw [Function.update_of_ne other] at found
      rw [old (g.start2bb_start a b found).1]
      exact built.registered a b found
  · rw [func] at member
    rw [block, old (g.basicBlocks_lt f b member)]
    exact built.inside f b member
  · rw [func] at member
    obtain ⟨bound, real⟩ := built.exits f b member
    rw [block, blockCount, old bound]
    exact ⟨Nat.lt_succ_of_lt bound, real⟩
  · rw [block] at dummy
    rw [outgoing, block]
    refine (newBlock_outgoing b).trans (built.deadEnd b ?_)
    rcases eq_or_ne b g.blockCount with rfl | other
    · simp [newBlock_block_self] at dummy
    · rwa [newBlock_block_of_ne other] at dummy

theorem createBb (built : g.Built) (blockAddress : BlockId → Nat) (block : ParseBlock) :
    (g.createBb blockAddress block).Built := by
  by_cases missing : g.findBb block.start = none
  · have added := built.newBlock missing block.endAddress block.last
      (block.funcs.filterMap g.findFunction)
    rw [Cfg.createBb, missing]
    refine (List.foldlRecOn (motive := fun g' => g'.Built ∧ Cfg.SameHeap _ g') _ _
      ⟨added, .refl _⟩ fun g' kept f _ => ?_).1
    obtain ⟨built', same⟩ := kept
    refine ⟨built'.addBb ?_ blockAddress f, same.trans (.addBb blockAddress f _)⟩
    rw [same.block, (storeBb_same _).1, newBlock_block_self]
  · rwa [createBb_of_found missing]

theorem addExitBlock (built : g.Built) {a : Address} {b : BlockId} (found : g.findBb a = some b)
    (blockAddress : BlockId → Nat) (f : FuncId) : (g.addExitBlock blockAddress f b).Built := by
  refine built.of_func ⟨rfl, rfl, rfl, rfl, rfl⟩ rfl (fun c member new => absurd member new)
    fun c member new => ?_
  rcases mem_insertBlock.mp member with rfl | old
  · exact ⟨(g.start2bb_start a c found).1, built.registered a c found⟩
  · exact absurd old new

theorem addEntryBlock (built : g.Built) (blockAddress : BlockId → Nat) (f : FuncId) (b : BlockId) :
    (g.addEntryBlock blockAddress f b).Built :=
  built.of_func ⟨rfl, rfl, rfl, rfl, rfl⟩ rfl (fun _ member new => absurd member new)
    fun _ member new => absurd member new

theorem setIsPlt (built : g.Built) (f : FuncId) : (g.setIsPlt f).Built :=
  built.of_func ⟨rfl, rfl, rfl, rfl, rfl⟩ rfl (fun _ member new => absurd member new)
    fun _ member new => absurd member new

theorem widen (built : g.Built) (first last : Address) : (g.widen first last).Built :=
  built.of_sameHeap (.widen first last) built.inside built.exits

theorem foldl {β : Type} {step : Cfg → β → Cfg} {xs : List β}
    (keeps : ∀ x g, g.Built → (step g x).Built) (built : g.Built) : (xs.foldl step g).Built :=
  List.foldlRecOn xs step built fun g' built' x _ => keeps x g' built'

theorem markFunctionAsPlt (built : g.Built) (a : Address) : (g.markFunctionAsPlt a).Built := by
  unfold Cfg.markFunctionAsPlt
  cases g.findFunction a with
  | none => exact built
  | some f => exact built.setIsPlt f

end Built

end Cfg

namespace Insertion
open Cfg
variable {s s' : Insertion}

theorem markReturnBlock_built (built : s.cfg.Built) (f : FuncId) (a : Address) :
    (s.markReturnBlock f a).cfg.Built := by
  rw [markReturnBlock]
  split
  · exact built
  · next b found => exact built.addExitBlock found s.blockAddress f

theorem markBlocks_built (built : s.cfg.Built) (func : ParseFunction) :
    (s.markBlocks func).cfg.Built := by
  rw [markBlocks]
  split
  · next f b _ _ =>
      exact List.foldlRecOn (motive := fun s' : Insertion => s'.cfg.Built) _ _
        (built.addEntryBlock s.blockAddress f b) fun s' built' a _ => markReturnBlock_built built' f a
  · exact built

theorem insertFunctionsAndBbs_built (built : s.cfg.Built) (p : ParseResult) :
    (s.insertFunctionsAndBbs p).cfg.Built := by
  have functions : (p.funcs.foldl Cfg.createFunction s.cfg).Built :=
    built.foldl fun func _ built => built.createFunction func
  have blocks : (p.funcs.foldl (fun g func => func.blocks.foldl (·.createBb s.blockAddress ·) g)
      (p.funcs.foldl Cfg.createFunction s.cfg)).Built :=
    functions.foldl fun func _ built =>
      built.foldl fun block _ built => built.createBb s.blockAddress block
  exact List.foldlRecOn (motive := fun s' : Insertion => s'.cfg.Built) _ _ blocks
    fun s' built' func _ => markBlocks_built built' func

theorem parseAll_built (built : s.cfg.Built) (p : ParseResult) : (s.parseAll p).cfg.Built := by
  have range : (s.setModuleRange p).cfg.Built :=
    built.foldl fun range _ built => built.widen range.1 range.2
  exact (insertFunctionsAndBbs_built range p).foldl fun a _ built =>
    (built.widen a a).markFunctionAsPlt a

/-! ## Inserting edges -/

theorem addEdge_built (built : s.cfg.Built) {source : BlockId} (isSource : IsSource s.cfg source)
    (target : BlockId) (type : ArmsEdgeType) : (s.addEdge source target type).cfg.Built := by
  have real : (s.cfg.block source).isDummy = false := by
    rcases isSource with ⟨a, found⟩ | ⟨f, member⟩
    · exact built.registered a source found
    · exact (built.exits f source member).2
  have data (b : BlockId) : ((s.addEdge source target type).cfg.block b).startAddress =
      (s.cfg.block b).startAddress ∧
      ((s.addEdge source target type).cfg.block b).isDummy = (s.cfg.block b).isDummy :=
    link_data source target b
  have start2bb : (s.addEdge source target type).cfg.start2bb = s.cfg.start2bb :=
    link_start2bb source target
  have func : (s.addEdge source target type).cfg.func = s.cfg.func := link_func source target
  have blockCount : (s.addEdge source target type).cfg.blockCount = s.cfg.blockCount :=
    link_blockCount source target
  refine ⟨fun b bound => ?_, fun a b found => ?_, fun f b => ?_, fun f b => ?_, fun b dummy => ?_⟩
  · rw [Registered, findBb, start2bb, (data b).1, (data b).2]
    exact built.real b (blockCount ▸ bound)
  · rw [findBb, start2bb] at found
    rw [(data b).2]
    exact built.registered a b found
  · rw [func, (data b).2]
    exact built.inside f b
  · rw [func, (data b).2, blockCount]
    exact built.exits f b
  · rw [(data b).2] at dummy
    refine (link_outgoing_of_ne ?_).trans (built.deadEnd b dummy)
    rintro rfl
    simp [real] at dummy

theorem createDummyBasicBlock_built (built : s.cfg.Built) (armsFun : Option FuncId) :
    (s.createDummyBasicBlock armsFun).1.cfg.Built := by
  have old {b : BlockId} (bound : b < s.cfg.blockCount) :
      (s.createDummyBasicBlock armsFun).1.cfg.block b = s.cfg.block b :=
    newBlock_block_of_ne bound.ne
  have fresh : ((s.createDummyBasicBlock armsFun).1.cfg.block s.cfg.blockCount).isDummy := by
    rw [createDummyBasicBlock, newBlock_block_self]
  refine ⟨fun b bound real => ?_, fun a b found => ?_, fun f b member => ?_, fun f b member => ?_,
    fun b dummy => ?_⟩
  · rcases Nat.lt_succ_iff_lt_or_eq.mp bound with bound | rfl
    · rw [old bound] at real
      rw [Registered, old bound]
      exact built.real b bound real
    · simp [fresh] at real
  · rw [old (s.cfg.start2bb_start a b found).1]
    exact built.registered a b found
  · rw [old (s.cfg.basicBlocks_lt f b member)]
    exact built.inside f b member
  · obtain ⟨bound, real⟩ := built.exits f b member
    rw [old bound]
    exact ⟨Nat.lt_succ_of_lt bound, real⟩
  · refine (newBlock_outgoing b).trans ?_
    by_cases bound : b < s.cfg.blockCount
    · rw [old bound] at dummy
      exact built.deadEnd b dummy
    · exact s.cfg.outgoing_of_not_lt bound

theorem Adds.built (adds : Adds s s') (built : s.cfg.Built) : s'.cfg.Built := by
  induction adds with
  | refl => exact built
  | edge before isSource target type ih =>
      exact addEdge_built ih (before.frame.isSource_iff.mpr isSource) target type
  | dummy before armsFun ih => exact createDummyBasicBlock_built ih armsFun

/-- The assertions hold exactly if no dummy block that gets a fastpath has the address of a parsed
block or of another such dummy block. -/
theorem tryParseAPI_simplifies_iff (resolver : Address → List Address) (p : ParseResult)
    (edgeAddress : EdgeId → Nat) (blockAddress : BlockId → Nat) :
    let g := ((ofEmpty edgeAddress blockAddress).tryParseAPI resolver p).cfg
    g.simplifyCfg ≠ none ↔ ∀ d, g.StrayDummy d →
      (∀ block ∈ p.blocks, block.start ≠ (g.block d).startAddress) ∧
        ∀ d', g.StrayDummy d' → (g.block d').startAddress = (g.block d).startAddress → d' = d := by
  intro g
  have built : g.Built := insertEdges_adds.built (parseAll_built (.empty edgeAddress) p)
  have missing (a : Address) : g.findBb a = none ↔ ∀ block ∈ p.blocks, block.start ≠ a := by
    rw [← not_iff_not]
    refine (findBb_tryParseAPI resolver p _).trans ?_
    simp [ofEmpty, Cfg.empty, findBb]
  simp only [simplifyCfg_ne_none_iff, built.unambiguous_iff, missing]

/-- A function in a position independent executable. Its first block ends in a conditional jump out
of the code; the other one starts at `0x2911`. -/
def jumpOut : ParseResult where
  mods := [(0x2900, 0x2a00)]
  funcs := [{
    addr := 0x2900
    name := "f"
    blocks := [
      { start := 0x2900, endAddress := 0x2911, last := 0x290b, funcs := [0x2900],
        targets := [{ type := .condTaken, trg := sink, interproc := false },
          { type := .condNotTaken, trg := 0x2911, interproc := false }] },
      { start := 0x2911, endAddress := 0x2912, last := 0x2911, funcs := [0x2900],
        targets := [{ type := .ret, trg := sink, interproc := true }] }]
    entry := 0x2900
    returnBlocks := [0x2911]
    entry_mem := by simp
    return_mem := by simp }]
  plts := []
  containing := by simp

/-- The first dummy block gets the address `0x2911`, too. -/
theorem jumpOut_fails :
    ((ofEmpty id id).tryParseAPI (fun _ => []) jumpOut).cfg.simplifyCfg = none := by
  rw [← Option.isNone_iff_eq_none]
  decide

end Insertion

end PathArmor.Analyzer

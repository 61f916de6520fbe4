import PathArmor.Analyzer.Collapse
import PathArmor.Analyzer.Gates
import PathArmor.Analyzer.KernelStates

/-!
# Preparing the graph

Before it validates or searches, the analyzer marks the functions whose address is taken, gives
callbacks and the loader a source in the graph, and collapses the functions.
-/

namespace PathArmor.Analyzer
open PathArmor.Library

inductive PreprocessError
  | noMainBlock
  | noMainFunction
  | aborted
  deriving DecidableEq, Repr

namespace Cfg

/-- Some entry block can be reached by an indirect branch. -/
def enteredIndirectly (g : Cfg) (f : FuncId) : Bool :=
  (g.func f).entryPoints.any fun bb => (g.incoming bb).any fun e => (g.edge e).isIndirect

def markFunctionIfAt (g : Cfg) (marks : FunctionMarks) (f : FuncId) : FunctionMarks :=
  if (g.func f).isLibDummy then marks
  else if g.enteredIndirectly f then
    { marks with addrTaken := Function.update marks.addrTaken f true }
  else marks

/-- All functions are visited twice. -/
def markAtFunctions (g : Cfg) (marks : FunctionMarks) : FunctionMarks :=
  let visit := fun marks => g.functions.foldl (fun marks entry => g.markFunctionIfAt marks entry.2) marks
  visit (visit marks)

/-- The dummy block gives the edge its source address only; it is not registered. -/
def linkDummyBlockToAtFunc (marks : FunctionMarks) (g : Cfg) (f : FuncId) : Cfg :=
  if marks.addrTaken f then
    let g := g.newBlock addressTaken addressTaken addressTaken true []
    (g.addInterEdge addressTaken (g.func f).baseAddr .indirectCall).1
  else g

def insertDummyLoaderBlock (g : Cfg) (mainaddr : Address) : Except PreprocessError Cfg :=
  let bb := g.blockCount
  let g := g.newBlock 0 0 0 true []
  match g.findBb mainaddr with
  | none => .error .noMainBlock
  | some cc =>
      match g.createAndAddBlockEdge bb cc with
      | none => .error .aborted
      | some (g, e) => .ok ((g.setType e .indirectCall).setInterprocedural e)

def markMainFunction (g : Cfg) (marks : FunctionMarks) (mainaddr : Address) :
    Except PreprocessError FunctionMarks :=
  match g.findFunction mainaddr with
  | none => .error .noMainFunction
  | some f => .ok { marks with isMain := Function.update marks.isMain f true }

/-- `mainaddr` is the entry `addr.func.main` of the file `bin.info`. -/
def addDummyShlibBlocks (isLibrary : Bool) (mainaddr : Option Address) (g : Cfg)
    (marks : FunctionMarks) : Except PreprocessError (Cfg × FunctionMarks) :=
  if isLibrary then .ok (g, marks)
  else
    let g := g.functions.foldl (fun g entry => linkDummyBlockToAtFunc marks g entry.2) g
    match mainaddr with
    | none => .ok (g, marks)
    | some mainaddr =>
        match g.insertDummyLoaderBlock mainaddr with
        | .error failure => .error failure
        | .ok g => (g.markMainFunction marks mainaddr).map fun marks => (g, marks)

/-- `marks` holds what a naive analysis of the address-taken functions has marked before. -/
def preprocessCfg (isLibrary : Bool) (mainaddr : Option Address) (g : Cfg) (marks : FunctionMarks) :
    Except PreprocessError (Cfg × FunctionMarks) :=
  match g.addDummyShlibBlocks isLibrary mainaddr (g.markAtFunctions marks) with
  | .error failure => .error failure
  | .ok (g, marks) =>
      match g.simplifyCfg with
      | none => .error .aborted
      | some g => .ok (g, marks)

/-! ## Functions whose address is taken -/

variable {g g' : Cfg} {marks : FunctionMarks} {v : Address}

theorem markFunctionIfAt_addrTaken (f x : FuncId) : (g.markFunctionIfAt marks f).addrTaken x ↔
    marks.addrTaken x ∨ x = f ∧ (g.func f).isLibDummy = false ∧ g.enteredIndirectly f := by
  unfold markFunctionIfAt
  rcases eq_or_ne x f with rfl | other
  · split_ifs <;> simp_all
  · split_ifs <;> simp_all

theorem foldl_markFunctionIfAt (functions : List (Address × FuncId)) (x : FuncId) :
    (functions.foldl (fun marks entry => g.markFunctionIfAt marks entry.2) marks).addrTaken x ↔
      marks.addrTaken x ∨
        (∃ entry ∈ functions, entry.2 = x) ∧ (g.func x).isLibDummy = false ∧ g.enteredIndirectly x := by
  induction functions generalizing marks with
  | nil => simp
  | cons entry functions ih =>
      rw [List.foldl_cons, ih, markFunctionIfAt_addrTaken]
      simp only [List.exists_mem_cons_iff]
      constructor
      · rintro ((before | ⟨rfl, entered⟩) | ⟨later, entered⟩)
        · exact .inl before
        · exact .inr ⟨.inl rfl, entered⟩
        · exact .inr ⟨.inr later, entered⟩
      · rintro (before | ⟨rfl | later, entered⟩)
        · exact .inl (.inl before)
        · exact .inl (.inr ⟨rfl, entered⟩)
        · exact .inr ⟨later, entered⟩

/-- The second visit finds nothing new. -/
theorem markAtFunctions_addrTaken (g : Cfg) (marks : FunctionMarks) (x : FuncId) :
    (g.markAtFunctions marks).addrTaken x ↔ marks.addrTaken x ∨
      (∃ entry ∈ g.functions, entry.2 = x) ∧ (g.func x).isLibDummy = false ∧ g.enteredIndirectly x := by
  simp only [markAtFunctions, foldl_markFunctionIfAt]
  rw [or_assoc, or_self]

/-! ## Blocks for what comes from outside -/

/-- Nothing of the program lies at this address. -/
structure Foreign (g : Cfg) (v : Address) : Prop where
  start : ∀ b < g.blockCount, (g.block b).startAddress ≠ v
  last : ∀ b < g.blockCount, (g.block b).lastInsnAddress ≠ v
  functions : ∀ entry ∈ g.functions, entry.1 ≠ v ∧ (g.func entry.2).baseAddr ≠ v

/-- `g'` is `g` with sources at addresses `outside` the program. They are no targets themselves. -/
structure Outfits (g g' : Cfg) (outside : Set Address) : Prop where
  findBb : ∀ x ∉ outside, g'.findBb x = g.findBb x
  start : ∀ b < g.blockCount, (g'.block b).startAddress = (g.block b).startAddress
  last : ∀ b < g.blockCount, (g'.block b).lastInsnAddress = (g.block b).lastInsnAddress
  isDummy : ∀ b < g.blockCount, (g'.block b).isDummy = (g.block b).isDummy
  grows : g.blockCount ≤ g'.blockCount
  target : ∀ e, g'.IsEdge e → g'.target e < g.blockCount
  functions : g'.functions = g.functions
  func : g'.func = g.func

namespace Outfits
variable {outside : Set Address}

theorem refl (g : Cfg) (outside : Set Address) : g.Outfits g outside where
  findBb _ _ := rfl
  start _ _ := rfl
  last _ _ := rfl
  isDummy _ _ := rfl
  grows := le_rfl
  target e isEdge := (g.endpoint_lt e isEdge.lt).2
  functions := rfl
  func := rfl

theorem newBlock (outfits : g.Outfits g' outside) (v : Address) (isDummy : Bool) (endAddress : Address) :
    g.Outfits (g'.newBlock v endAddress v isDummy []) outside := by
  have block {b : BlockId} (old : b < g.blockCount) :
      (g'.newBlock v endAddress v isDummy []).block b = g'.block b :=
    newBlock_block_of_ne (old.trans_le outfits.grows).ne
  constructor
  · exact outfits.findBb
  · intro b old
    rw [block old]
    exact outfits.start b old
  · intro b old
    rw [block old]
    exact outfits.last b old
  · intro b old
    rw [block old]
    exact outfits.isDummy b old
  · exact Nat.le_succ_of_le outfits.grows
  · intro e isEdge
    rw [IsEdge, newBlock_outgoing] at isEdge
    exact outfits.target e isEdge
  · exact outfits.functions
  · exact outfits.func

theorem storeBb (outfits : g.Outfits g' outside) {c : BlockId}
    (start : (g'.block c).startAddress ∈ outside) : g.Outfits (g'.storeBb c) outside := by
  obtain ⟨block, edge, blockCount, -, functions, func⟩ := storeBb_same (g := g') c
  constructor
  · intro x inside
    rw [← outfits.findBb x inside]
    unfold Cfg.storeBb
    split_ifs
    · refine Function.update_of_ne ?_ _ _
      rintro rfl
      exact inside start
    · rfl
  · rw [block]
    exact outfits.start
  · rw [block]
    exact outfits.last
  · rw [block]
    exact outfits.isDummy
  · rw [blockCount]
    exact outfits.grows
  · intro e isEdge
    rw [IsEdge, source, outgoing, block, edge] at isEdge
    rw [Cfg.target, edge]
    exact outfits.target e isEdge
  · rw [functions]
    exact outfits.functions
  · rw [func]
    exact outfits.func

theorem linkInter (outfits : g.Outfits g' outside) {bb cc : BlockId} (source : bb < g'.blockCount)
    (target : cc < g.blockCount) (type : ArmsEdgeType) :
    g.Outfits (g'.linkInter bb cc type) outside := by
  have bound : bb < g'.blockCount ∧ cc < g'.blockCount := ⟨source, target.trans_le outfits.grows⟩
  have data (b : BlockId) := link_data (g := g') bb cc b
  constructor
  · exact fun x inside => (congrFun (link_start2bb bb cc) x).trans (outfits.findBb x inside)
  · exact fun b old => (data b).1.trans (outfits.start b old)
  · intro b old
    rw [← outfits.last b old]
    change ((g'.link bb cc).block b).lastInsnAddress = _
    rw [link_block bound, linkBlocks_apply]
  · exact fun b old => (data b).2.trans (outfits.isDummy b old)
  · exact outfits.grows.trans (link_blockCount bb cc).ge
  · intro e isEdge
    have edge := linkInter_edge bound type
    rcases eq_or_ne e g'.edgeCount with rfl | old
    · rw [Cfg.target, edge, Function.update_self, ArmsEdge.setInterprocedural, ArmsEdge.setType_target]
      exact target
    · have same : (g'.linkInter bb cc type).edge e = g'.edge e := by
        rw [edge, Function.update_of_ne old]
      rw [IsEdge, Cfg.source, same] at isEdge
      rw [Cfg.target, same]
      apply outfits.target e
      exact ((mem_outgoing_link bound).mp isEdge).resolve_left fun new => old new.2
  · exact ((link_same bound).2.1).trans outfits.functions
  · exact (link_func bb cc).trans outfits.func

end Outfits

/-! ## Callbacks -/

theorem Foreign.findBb (foreign : g.Foreign v) : g.findBb v = none := by
  cases found : g.findBb v with
  | none => rfl
  | some b =>
      obtain ⟨allocated, start⟩ := g.start2bb_start v b found
      exact absurd start (foreign.start b allocated)

theorem Foreign.findBbByLastInsnAddress (foreign : g.Foreign v) :
    g.findBbByLastInsnAddress v = none := by
  cases found : g.findBbByLastInsnAddress v with
  | none => rfl
  | some b =>
      obtain ⟨allocated, last⟩ := g.last2bb_last v b found
      exact absurd last (foreign.last b allocated)

theorem addInterEdge_of_found {a b : Address} {cc : BlockId} (found : g.findBb b = some cc)
    (differs : b ≠ a) (type : ArmsEdgeType) :
    (g.addInterEdge a b type).1 = match g.findBbByLastInsnAddress a with
      | some bb => g.linkInter bb cc type
      | none => (g.storeByte a).linkInter g.blockCount cc type := by
  unfold addInterEdge createAndAddEdge
  cases g.findBbByLastInsnAddress a with
  | some bb =>
      dsimp only
      rw [found]
      rfl
  | none =>
      have kept : (g.storeByte a).findBb b = some cc := by
        rw [storeByte_findBb, if_neg differs, found]
      rw [storeByte] at kept
      dsimp only
      rw [kept]
      rfl

/-- The program can be entered at the base of the function. -/
def Enterable (g : Cfg) (a : Address) : Prop :=
  ∃ b, g.findBb a = some b ∧ (g.block b).isDummy = false

def takenBases (g : Cfg) (marks : FunctionMarks) (functions : List (Address × FuncId)) : Set Address :=
  {y | ∃ entry ∈ functions, marks.addrTaken entry.2 ∧ (g.func entry.2).baseAddr = y}

theorem takenBases_concat (functions : List (Address × FuncId)) (entry : Address × FuncId) :
    g.takenBases marks (functions ++ [entry]) =
      if marks.addrTaken entry.2 then insert (g.func entry.2).baseAddr (g.takenBases marks functions)
      else g.takenBases marks functions := by
  ext y
  simp only [takenBases, List.mem_append, List.mem_singleton, Set.mem_ofPred_eq]
  split_ifs with taken
  · rw [Set.mem_insert_iff, Set.mem_ofPred_eq]
    constructor
    · rintro ⟨x, before | rfl, marked, base⟩
      · exact .inr ⟨x, before, marked, base⟩
      · exact .inl base.symm
    · rintro (rfl | ⟨x, before, marked, base⟩)
      · exact ⟨entry, .inr rfl, taken, rfl⟩
      · exact ⟨x, .inl before, marked, base⟩
  · constructor
    · rintro ⟨x, before | rfl, marked, base⟩
      · exact ⟨x, before, marked, base⟩
      · exact absurd marked taken
    · rintro ⟨x, before, marked, base⟩
      exact ⟨x, .inl before, marked, base⟩

/-- The callback edges so far. The block at `ADDRESS_TAKEN` comes with the first of them. -/
def CallbacksTo (g g' : Cfg) (targets : Set Address) : Prop :=
  g.Outfits g' {addressTaken} ∧ ((targets = ∅ ∧ g'.findBbByLastInsnAddress addressTaken = none) ∨
    ∃ gate, g'.Gate addressTaken gate targets)

theorem linkDummyBlockToAtFunc_callbacks {targets : Set Address} {f : FuncId}
    (foreign : g.Foreign addressTaken) (callbacks : g.CallbacksTo g' targets)
    (taken : marks.addrTaken f) (base : (g.func f).baseAddr ≠ addressTaken)
    (enterable : g.Enterable (g.func f).baseAddr) :
    g.CallbacksTo (linkDummyBlockToAtFunc marks g' f) (insert (g.func f).baseAddr targets) := by
  obtain ⟨outfits, gate⟩ := callbacks
  obtain ⟨cc, found, real⟩ := enterable
  have target := findBb_lt found
  -- the dummy block is allocated and forgotten
  have dummy := outfits.newBlock addressTaken true addressTaken
  have sameLast : (g'.newBlock addressTaken addressTaken addressTaken true []).findBbByLastInsnAddress
      addressTaken = g'.findBbByLastInsnAddress addressTaken := rfl
  have gate₁ (b : BlockId) (closed : g'.Gate addressTaken b targets) :=
    closed.newBlock addressTaken addressTaken addressTaken true []
  simp only [linkDummyBlockToAtFunc, taken, if_true]
  generalize g'.newBlock addressTaken addressTaken addressTaken true [] = g₁ at *
  rw [dummy.func, addInterEdge_of_found ((dummy.findBb _ base).trans found) base, sameLast]
  have start : (g₁.block cc).startAddress = (g.func f).baseAddr :=
    (dummy.start cc target).trans (g.start2bb_start _ cc found).2
  have real₁ : (g₁.block cc).isDummy = false := (dummy.isDummy cc target).trans real
  rcases gate with ⟨rfl, missing⟩ | ⟨gate, closed⟩
  · rw [missing]
    have functions : ∀ entry ∈ g₁.functions, entry.1 ≠ addressTaken ∧
        (g₁.func entry.2).baseAddr ≠ addressTaken := by
      rw [dummy.functions, dummy.func]
      exact foreign.functions
    have opened := Gate.storeByte_new functions
    have stored : g.Outfits (g₁.storeByte addressTaken) {addressTaken} := by
      apply (dummy.newBlock addressTaken false (addressTaken + 1)).storeBb
      rw [newBlock_block_self]
      exact Set.mem_singleton addressTaken
    refine ⟨stored.linkInter opened.allocated target _, .inr ⟨g₁.blockCount, ?_⟩⟩
    have old := storeByte_block_old (target.trans_le dummy.grows) addressTaken
    rw [← start, ← old]
    exact opened.linkInter (target.trans_le stored.grows) (by rw [old]; exact real₁) _
  · rw [closed.last]
    refine ⟨dummy.linkInter (gate₁ gate closed).allocated target _, .inr ⟨gate, ?_⟩⟩
    rw [← start]
    exact (gate₁ gate closed).linkInter (target.trans_le dummy.grows) real₁ _

theorem foldl_linkDummyBlock_callbacks (foreign : g.Foreign addressTaken)
    {functions : List (Address × FuncId)} (known : ∀ entry ∈ functions, entry ∈ g.functions)
    (enterable : ∀ entry ∈ functions, marks.addrTaken entry.2 → g.Enterable (g.func entry.2).baseAddr) :
    g.CallbacksTo (functions.foldl (fun g entry => linkDummyBlockToAtFunc marks g entry.2) g)
      (g.takenBases marks functions) := by
  induction functions using List.reverseRecOn with
  | nil =>
      refine ⟨.refl g _, .inl ⟨?_, foreign.findBbByLastInsnAddress⟩⟩
      simp [takenBases]
  | append_singleton functions entry ih =>
      have callbacks := ih (fun x before => known x (List.mem_append_left _ before))
        (fun x before => enterable x (List.mem_append_left _ before))
      rw [List.foldl_append, List.foldl_cons, List.foldl_nil, takenBases_concat]
      have member : entry ∈ functions ++ [entry] := List.mem_append_right _ List.mem_cons_self
      split_ifs with taken
      · have base := (foreign.functions entry (known entry member)).2
        exact linkDummyBlockToAtFunc_callbacks foreign callbacks taken base
          (enterable entry member taken)
      · rw [linkDummyBlockToAtFunc, if_neg taken]
        exact callbacks

/-! ## The loader -/

theorem Outfits.mono {outside more : Set Address} (outfits : g.Outfits g' outside)
    (subset : outside ⊆ more) : g.Outfits g' more :=
  { outfits with findBb := fun x inside => outfits.findBb x fun member => inside (subset member) }

/-- An edge from a block that is not registered yet to one that is. -/
theorem createAndAddBlockEdge_of_new {bb cc : BlockId} {a : Address} (allocated : bb < g.blockCount)
    (new : g.findBb (g.block bb).startAddress = none) (found : g.findBb a = some cc) :
    g.createAndAddBlockEdge bb cc =
      some ((g.storeBb bb).link bb cc, (g.storeBb bb).edgeCount) := by
  have differs : a ≠ (g.block bb).startAddress := by
    rintro rfl
    rw [new] at found
    cases found
  have source : g.storeMissingBb bb = g.storeBb bb := by simp [storeMissingBb, new]
  have registered : (g.storeBb bb).findBb ((g.storeBb bb).block bb).startAddress = some bb := by
    rw [(storeBb_same _).1]
    exact findBb_storeBb allocated
  have start : ((g.storeBb bb).block cc).startAddress = a := by
    rw [(storeBb_same _).1]
    exact (g.start2bb_start a cc found).2
  have known : (g.storeBb bb).findBb a = some cc := by
    rw [Cfg.findBb, storeBb_start2bb allocated, Function.update_of_ne differs]
    exact found
  have target : (g.storeBb bb).storeMissingBb cc = g.storeBb bb := by
    simp [storeMissingBb, start, known]
  simp only [createAndAddBlockEdge, source, registered, if_true, target, start, known]

theorem insertDummyLoaderBlock_gate {mainaddr : Address}
    (outfits : g.Outfits g' {addressTaken}) (foreign : g.Foreign 0) (enterable : g.Enterable mainaddr)
    (main : mainaddr ≠ addressTaken) :
    ∃ g'', g'.insertDummyLoaderBlock mainaddr = .ok g'' ∧ g.Outfits g'' {0, addressTaken} ∧
      (∃ gate, g''.Gate 0 gate {mainaddr}) ∧
      ∀ gate targets, g'.Gate addressTaken gate targets → g''.Gate addressTaken gate targets := by
  obtain ⟨cc, found, real⟩ := enterable
  have target := findBb_lt found
  have dummy := (outfits.mono (Set.subset_insert 0 _)).newBlock 0 true 0
  have missing : (g'.newBlock 0 0 0 true []).findBb 0 = none :=
    (outfits.findBb 0 (by decide)).trans foreign.findBb
  have found₁ : (g'.newBlock 0 0 0 true []).findBb mainaddr = some cc :=
    (outfits.findBb mainaddr main).trans found
  have start : ((g'.newBlock 0 0 0 true []).block g'.blockCount).startAddress = 0 := by
    rw [newBlock_block_self]
  have last : ((g'.newBlock 0 0 0 true []).block g'.blockCount).lastInsnAddress = 0 := by
    rw [newBlock_block_self]
  have outgoing : (g'.newBlock 0 0 0 true []).outgoing g'.blockCount = [] := by
    rw [newBlock_outgoing]
    exact g'.outgoing_of_not_lt (lt_irrefl _)
  have allocated : g'.blockCount < (g'.newBlock 0 0 0 true []).blockCount := Nat.lt_succ_self _
  have callbacks (gate : BlockId) (targets : Set Address) (closed : g'.Gate addressTaken gate targets) :
      g'.blockCount ≠ gate ∧ (g'.newBlock 0 0 0 true []).Gate addressTaken gate targets :=
    ⟨closed.allocated.ne', closed.newBlock 0 0 0 true []⟩
  unfold insertDummyLoaderBlock
  dsimp only
  rw [found₁]
  dsimp only
  generalize g'.newBlock 0 0 0 true [] = g₁ at *
  rw [createAndAddBlockEdge_of_new allocated (by rw [start]; exact missing) found₁]
  have opened : (g₁.storeBb g'.blockCount).Gate 0 g'.blockCount ∅ := by
    refine Gate.register allocated start last outgoing ?_
    rw [dummy.functions, dummy.func]
    exact foreign.functions
  have stored : g.Outfits (g₁.storeBb g'.blockCount) {0, addressTaken} := by
    apply dummy.storeBb
    rw [start]
    exact Set.mem_insert 0 _
  refine ⟨(g₁.storeBb g'.blockCount).linkInter g'.blockCount cc .indirectCall, rfl,
    stored.linkInter opened.allocated target _, ⟨g'.blockCount, ?_⟩, fun gate targets closed => ?_⟩
  · have loader := opened.linkInter (target.trans_le stored.grows)
      ((stored.isDummy cc target).trans real) .indirectCall
    rwa [stored.start cc target, (g.start2bb_start mainaddr cc found).2, insert_empty_eq] at loader
  · have kept := (callbacks gate targets closed).2.storeBb (c := g'.blockCount) (by rw [start]; decide)
      (by rw [last]; decide)
    exact kept.linkInter_of_ne (callbacks gate targets closed).1 cc _

/-! ## Collapsing leaves the gates alone -/

/-- A gate of a graph that is being collapsed. No function has a block that ends where the gate
does, and no edge leads to one. -/
structure Gated (g : Cfg) (v : Address) (gate : BlockId) (targets : Set Address)
    (last : BlockId → Address) : Prop where
  closed : g.Gate v gate targets
  block : ∀ b, (g.block b).lastInsnAddress = last b
  apart : ∀ e, g.IsEdge e → last (g.target e) ≠ v
  inside : ∀ f, ∀ b ∈ (g.func f).basicBlocks, last b ≠ v

namespace Gated
variable {gate : BlockId} {targets : Set Address} {last : BlockId → Address}

theorem ne_gate (gated : g.Gated v gate targets last) {b : BlockId} (other : last b ≠ v) : b ≠ gate := by
  rintro rfl
  rw [← gated.block, (g.last2bb_last v b gated.closed.last).2] at other
  exact other rfl

theorem storeMissingBb (gated : g.Gated v gate targets last) {b : BlockId} (other : last b ≠ v) :
    (g.storeMissingBb b).Gated v gate targets last := by
  unfold Cfg.storeMissingBb
  split_ifs with missing
  · have start : (g.block b).startAddress ≠ v := by
      rintro same
      rw [same, gated.closed.start] at missing
      cases missing
    obtain ⟨block, edge, -, -, -, func⟩ := storeBb_same (g := g) b
    refine ⟨gated.closed.storeBb start (by rwa [gated.block]), ?_, ?_, ?_⟩
    · rw [block]
      exact gated.block
    · intro e isEdge
      rw [IsEdge, source, outgoing, block, edge] at isEdge
      rw [target, edge]
      exact gated.apart e isEdge
    · rw [func]
      exact gated.inside
  · exact gated

theorem setHidden (gated : g.Gated v gate targets last) (e : EdgeId) (hidden : Bool) :
    (g.setHidden e hidden).Gated v gate targets last := by
  refine ⟨gated.closed.setHidden e hidden, gated.block, ?_, gated.inside⟩
  intro x isEdge
  have source : (g.setHidden e hidden).source x = g.source x := updateEdge_source e x
  have target : (g.setHidden e hidden).target x = g.target x := updateEdge_target e x
  rw [IsEdge, source] at isEdge
  rw [target]
  exact gated.apart x isEdge

theorem linkFastpath (gated : g.Gated v gate targets last) {bb cc : BlockId}
    (source : last bb ≠ v) (target : last cc ≠ v) :
    ((g.link bb cc).setType g.edgeCount .fastpath).Gated v gate targets last := by
  have other := gated.ne_gate source
  have elsewhere : g.edgeCount ∉ (g.link bb cc).outgoing gate := by
    rw [link_outgoing_of_ne other.symm]
    exact fun member => lt_irrefl _ (g.outgoing_lt gate _ member)
  refine ⟨(gated.closed.link other cc).setType elsewhere _, fun b => ?_, fun e isEdge => ?_, ?_⟩
  · change ((g.link bb cc).block b).lastInsnAddress = last b
    unfold Cfg.link
    split_ifs
    · simp only [linkBlocks_apply]
      exact gated.block b
    · exact gated.block b
  · have sourceEq : ((g.link bb cc).setType g.edgeCount .fastpath).source e =
        (g.link bb cc).source e := updateEdge_source _ e
    have targetEq : ((g.link bb cc).setType g.edgeCount .fastpath).target e =
        (g.link bb cc).target e := updateEdge_target _ e
    rw [IsEdge, sourceEq] at isEdge
    rw [targetEq]
    by_cases bound : bb < g.blockCount ∧ cc < g.blockCount
    · rcases (mem_outgoing_link bound).mp isEdge with ⟨-, rfl⟩ | old
      · rw [Cfg.target, link_edge bound, Function.update_self]
        exact target
      · have same : (g.link bb cc).edge e = g.edge e := by
          rw [link_edge bound, Function.update_of_ne (g.outgoing_lt _ e old).ne]
        rw [Cfg.source, same] at old
        rw [Cfg.target, same]
        exact gated.apart e old
    · rw [Cfg.link, dif_neg bound] at isEdge ⊢
      exact gated.apart e isEdge
  · change ∀ f, ∀ b ∈ ((g.link bb cc).func f).basicBlocks, last b ≠ v
    rw [link_func]
    exact gated.inside

theorem createFastpath (gated : g.Gated v gate targets last) {bb cc : BlockId}
    (source : last bb ≠ v) (target : last cc ≠ v) :
    Returns (g.createFastpath bb cc) True fun g => g.Gated v gate targets last := by
  have stored := (gated.storeMissingBb source).storeMissingBb target
  unfold Cfg.createFastpath createAndAddBlockEdge
  dsimp only
  split_ifs
  · exact .of_some (stored.linkFastpath source target)
  · exact .of_none trivial
  · exact .of_none trivial

theorem recordExit {s : Collapse} (gated : s.cfg.Gated v gate targets last) {bb cc : BlockId}
    (source : last bb ≠ v) (target : last cc ≠ v) :
    Returns (s.recordExit bb cc) True fun s => s.cfg.Gated v gate targets last := by
  unfold Collapse.recordExit
  split_ifs
  · exact .of_some gated
  · exact .of_some gated
  · exact (gated.createFastpath source target).map fun _ => id

theorem scanEdge {s : Collapse} {w : Worklist BlockId} (gated : s.cfg.Gated v gate targets last)
    {bb cc : BlockId} (source : last bb ≠ v) (target : last cc ≠ v)
    (queued : ∀ b ∈ w.queue, last b ≠ v) {e : EdgeId} (isEdge : s.cfg.IsEdge e) :
    Returns (scanEdge bb cc (s, w) e) True fun state =>
      state.1.cfg.Gated v gate targets last ∧ ∀ b ∈ state.2.queue, last b ≠ v := by
  simp only [Cfg.scanEdge]
  split_ifs
  · exact .of_some ⟨gated, queued⟩
  · exact (gated.recordExit source target).map fun _ kept => ⟨kept, queued⟩
  · refine .of_some ⟨gated.setHidden e true, fun b member => ?_⟩
    unfold Worklist.schedule at member
    split_ifs at member
    · exact queued b member
    · rcases List.mem_append.mp member with before | new
      · exact queued b before
      · rw [List.mem_singleton.mp new]
        exact gated.apart e isEdge

theorem searchBlock {s : Collapse} {w : Worklist BlockId} (gated : s.cfg.Gated v gate targets last)
    {bb cc : BlockId} (source : last bb ≠ v) (target : last cc ≠ v)
    (queued : ∀ b ∈ w.queue, last b ≠ v) :
    Returns (searchBlock bb cc (s, w)) True fun state =>
      state.1.cfg.Gated v gate targets last ∧ ∀ b ∈ state.2.queue, last b ≠ v := by
  have entered : Returns (if (s.cfg.outgoing cc).length = 0 then s.recordExit bb cc else some s) True
      fun s => s.cfg.Gated v gate targets last := by
    split_ifs
    · exact gated.recordExit source target
    · exact .of_some gated
  refine entered.bind fun s gated => ?_
  have edges := isEdges_kept (s.cfg.outgoing cc)
  have scanned : Returns ((s.cfg.outgoing cc).foldlM (Cfg.scanEdge bb cc) (s, w)) True fun state =>
      (state.1.cfg.Gated v gate targets last ∧ ∀ b ∈ state.2.queue, last b ≠ v) ∧
        ∀ e ∈ s.cfg.outgoing cc, state.1.cfg.IsEdge e := by
    refine Returns.foldlM_invariant ?_ ⟨⟨gated, queued⟩, fun e member => isEdge_of_mem member⟩
    intro e member state holds
    obtain ⟨⟨gated, queued⟩, isEdge⟩ := holds
    exact (gated.scanEdge source target queued (isEdge e member)).and
      (edges.scanEdge isEdge bb cc state.2 e)
  exact scanned.imp id fun _ kept => kept.1

theorem collapseBlock (gated : g.Gated v gate targets last) {bb : BlockId} (source : last bb ≠ v) :
    Returns (g.collapseBlock bb) True fun g => g.Gated v gate targets last := by
  have queued : ∀ b ∈ (Worklist.start bb).queue, last b ≠ v := by
    intro b member
    rw [List.mem_singleton.mp member]
    exact source
  have searched : Returns (Worklist.search (Cfg.searchBlock bb) (g.blockCount + 1)
      ({ cfg := g, exits := [] }, Worklist.start bb)) True
      fun state => state.1.cfg.Gated v gate targets last :=
    Worklist.search_within (fun cc s w target gated queued =>
      Gated.searchBlock gated source target queued) gated queued
  exact searched.map fun _ => id

theorem simplifyCfg (gated : g.Gated v gate targets last) :
    Returns g.simplifyCfg True fun g => g.Gated v gate targets last := by
  refine Returns.foldlM_invariant (fun entry _ g gated => ?_) gated
  unfold collapseFunction
  split_ifs
  · exact .of_some gated
  · have blocks : Returns ((g.func entry.2).basicBlocks.reverse.foldlM Cfg.collapseBlock g) True
        fun g => g.Gated v gate targets last := by
      refine Returns.foldlM_invariant (fun bb member g' gated' => ?_) gated
      exact gated'.collapseBlock (gated.inside entry.2 bb (List.mem_reverse.mp member))
    exact blocks

end Gated

theorem Outfits.gated {outside : Set Address} {gate : BlockId} {targets : Set Address}
    (outfits : g.Outfits g' outside) (foreign : g.Foreign v) (closed : g'.Gate v gate targets) :
    g'.Gated v gate targets fun b => (g'.block b).lastInsnAddress := by
  refine ⟨closed, fun _ => rfl, fun e isEdge => ?_, fun f b member => ?_⟩
  · have old := outfits.target e isEdge
    rw [outfits.last _ old]
    exact foreign.last _ old
  · rw [outfits.func] at member
    have old := g.basicBlocks_lt f b member
    rw [outfits.last b old]
    exact foreign.last b old

theorem takenBases_markAtFunctions (g : Cfg) (marks : FunctionMarks) :
    g.takenBases (g.markAtFunctions marks) g.functions =
      {y | ∃ entry ∈ g.functions, (marks.addrTaken entry.2 ∨ (g.func entry.2).isLibDummy = false ∧
        g.enteredIndirectly entry.2) ∧ (g.func entry.2).baseAddr = y} := by
  ext y
  simp only [takenBases, Set.mem_ofPred_eq, markAtFunctions_addrTaken]
  apply exists_congr
  intro entry
  rw [and_congr_right_iff]
  intro member
  rw [and_congr_left_iff]
  intro _
  have listed : ∃ other ∈ g.functions, other.2 = entry.2 := ⟨entry, member, rfl⟩
  simp only [listed, true_and]

theorem addDummyShlibBlocks_gates {mainaddr : Address} {marks' : FunctionMarks}
    (foreign : g.Foreign addressTaken) (foreignZero : g.Foreign 0)
    (enterable : ∀ entry ∈ g.functions, marks.addrTaken entry.2 →
      g.Enterable (g.func entry.2).baseAddr)
    (taken : ∃ entry ∈ g.functions, marks.addrTaken entry.2) (main : g.Enterable mainaddr)
    (added : g.addDummyShlibBlocks false (some mainaddr) marks = .ok (g', marks')) :
    g.Outfits g' {0, addressTaken} ∧
      (∃ gate, g'.Gate addressTaken gate (g.takenBases marks g.functions)) ∧
      ∃ gate, g'.Gate 0 gate {mainaddr} := by
  obtain ⟨outfits, callbacks⟩ := foldl_linkDummyBlock_callbacks foreign (fun _ => id) enterable
  have apart : mainaddr ≠ addressTaken := by
    rintro rfl
    obtain ⟨b, found, -⟩ := main
    rw [foreign.findBb] at found
    cases found
  obtain ⟨gate, closed⟩ := callbacks.resolve_left fun none => by
    obtain ⟨entry, member, marked⟩ := taken
    have base : (g.func entry.2).baseAddr ∈ g.takenBases marks g.functions :=
      ⟨entry, member, marked, rfl⟩
    rw [none.1] at base
    exact base
  obtain ⟨g₁, inserted, outfits₁, loader, kept⟩ :=
    insertDummyLoaderBlock_gate outfits foreignZero main apart
  simp only [addDummyShlibBlocks, Bool.false_eq_true, if_false, inserted] at added
  cases marked : g₁.markMainFunction marks mainaddr with
  | error failure => simp [marked, Except.map] at added
  | ok marks₁ =>
      simp only [marked, Except.map, Except.ok.injEq, Prod.mk.injEq] at added
      obtain ⟨rfl, -⟩ := added
      exact ⟨outfits₁, ⟨gate, kept gate _ closed⟩, loader⟩

/-- After `preprocess_cfg` callbacks lead exactly to the functions whose address is taken, and the
loader to `main`. -/
theorem preprocessCfg_gates {mainaddr : Address} {marks' : FunctionMarks}
    (foreign : g.Foreign addressTaken) (foreignZero : g.Foreign 0)
    (enterable : ∀ entry ∈ g.functions, (g.markAtFunctions marks).addrTaken entry.2 →
      g.Enterable (g.func entry.2).baseAddr)
    (taken : ∃ entry ∈ g.functions, (g.markAtFunctions marks).addrTaken entry.2)
    (main : g.Enterable mainaddr)
    (prepared : g.preprocessCfg false (some mainaddr) marks = .ok (g', marks')) :
    (∃ gate, g'.Gate addressTaken gate {y | ∃ entry ∈ g.functions,
        (marks.addrTaken entry.2 ∨ (g.func entry.2).isLibDummy = false ∧
          g.enteredIndirectly entry.2) ∧ (g.func entry.2).baseAddr = y}) ∧
      ∃ gate, g'.Gate 0 gate {mainaddr} := by
  unfold preprocessCfg at prepared
  cases added : g.addDummyShlibBlocks false (some mainaddr) (g.markAtFunctions marks) with
  | error failure => simp [added] at prepared
  | ok result =>
      obtain ⟨g₁, marks₁⟩ := result
      obtain ⟨outfits, ⟨gate, callbacks⟩, loaderGate, loader⟩ :=
        addDummyShlibBlocks_gates foreign foreignZero enterable taken main added
      simp only [added] at prepared
      cases simplified : g₁.simplifyCfg with
      | none => simp [simplified] at prepared
      | some g₂ =>
          simp only [simplified, Except.ok.injEq, Prod.mk.injEq] at prepared
          obtain ⟨rfl, -⟩ := prepared
          rw [← takenBases_markAtFunctions]
          have first := ((outfits.gated foreign callbacks).simplifyCfg.elim_some simplified).closed
          have second := ((outfits.gated foreignZero loader).simplifyCfg.elim_some simplified).closed
          exact ⟨⟨gate, first⟩, loaderGate, second⟩

/-- A naive analysis has found the address of `parse`. -/
def parseTaken : FunctionMarks where
  isMain _ := false
  addrTaken f := f == 1

theorem preprocessCfg_gates_callProgram :
    ∃ g' marks', callProgram.preprocessCfg false (some 0x400100) parseTaken = .ok (g', marks') ∧
      (g'.findEdge addressTaken 0x400200).isSome ∧ ∃ gate, g'.Gate 0 gate {0x400100} := by
  have succeeds : (callProgram.preprocessCfg false (some 0x400100) parseTaken).isOk = true := by
    decide +kernel
  cases prepared : callProgram.preprocessCfg false (some 0x400100) parseTaken with
  | error failure => simp [prepared, Except.isOk, Except.toBool] at succeeds
  | ok result =>
      obtain ⟨g', marks'⟩ := result
      have functions : callProgram.functions = [(0x400100, 0), (0x400200, 1)] := by decide +kernel
      have enterable : ∀ entry ∈ callProgram.functions,
          (callProgram.markAtFunctions parseTaken).addrTaken entry.2 →
            callProgram.Enterable (callProgram.func entry.2).baseAddr := by
        rw [functions]
        intro entry member _
        rcases List.mem_cons.mp member with rfl | last
        · exact ⟨0, by decide +kernel, by decide +kernel⟩
        · rw [List.mem_singleton.mp last]
          exact ⟨2, by decide +kernel, by decide +kernel⟩
      obtain ⟨⟨gate, closed⟩, loader⟩ := preprocessCfg_gates
        ⟨by decide +kernel, by decide +kernel, by decide +kernel⟩
        ⟨by decide +kernel, by decide +kernel, by decide +kernel⟩ enterable (by decide +kernel)
        ⟨0, by decide +kernel, by decide +kernel⟩ prepared
      refine ⟨g', marks', rfl, (closed.findEdge_iff _).mpr ?_, loader⟩
      exact ⟨(0x400200, 1), by rw [functions]; simp, .inl rfl, by decide +kernel⟩

end Cfg

end PathArmor.Analyzer

import PathArmor.Analyzer.Validate

/-!
# Edges learned on the fly

`jit_validate_lbr` enters edges of two kinds into the graph: jumps that it marks as
intra-procedural, which its two fallbacks allow, and edges through the PLT, which all leave their
function. The first are followed here round by round, since every round sees the edges of the
rounds before it.
-/

namespace PathArmor.Analyzer

namespace Cfg
variable {g g' g'' : Cfg}

/-! ## One new edge -/

theorem newBlock_storeBb_same (startAddress endAddress last : Address) (isDummy : Bool)
    (funcs : List FuncId) (b : BlockId) :
    let stored := (g.newBlock startAddress endAddress last isDummy funcs).storeBb b
    stored.edge = g.edge ∧ stored.edgeCount = g.edgeCount ∧
      stored.blockCount = g.blockCount + 1 := by
  obtain ⟨-, edge, blocks, edges, -⟩ :=
    storeBb_same (g := g.newBlock startAddress endAddress last isDummy funcs) b
  exact ⟨edge, edges, blocks⟩

theorem link_of_same (source target : BlockId) (edge : g'.edge = g.edge)
    (edgeCount : g'.edgeCount = g.edgeCount)
    (bound : source < g'.blockCount ∧ target < g'.blockCount) :
    (g'.link source target).edgeCount = g.edgeCount + 1 ∧
      (g'.link source target).edge = Function.update g.edge g.edgeCount { source, target } := by
  rw [link_edgeCount bound, link_edge bound, edge, edgeCount]
  exact ⟨rfl, rfl⟩

theorem createAndAddEdge_spec (a b : Address) :
    ∃ source target, (g.createAndAddEdge a b).2 = g.edgeCount ∧
      (g.createAndAddEdge a b).1.edgeCount = g.edgeCount + 1 ∧
      (g.createAndAddEdge a b).1.edge = Function.update g.edge g.edgeCount { source, target } ∧
      (∀ s, g.findBbByLastInsnAddress a = some s →
        source = s ∧ target = (g.findBb b).getD g.blockCount) := by
  cases sourceBb : g.findBbByLastInsnAddress a with
  | some s =>
      have sourceLt := findBbByLastInsnAddress_lt sourceBb
      cases targetBb : g.findBb b with
      | some t =>
          have linked := link_of_same s t rfl rfl ⟨sourceLt, findBb_lt targetBb⟩
          refine ⟨s, t, ?_⟩
          simpa [createAndAddEdge, sourceBb, targetBb] using linked
      | none =>
          obtain ⟨edge, edges, blocks⟩ :=
            newBlock_storeBb_same (g := g) b (b + 1) b false [] g.blockCount
          have linked := link_of_same s g.blockCount edge edges
            (by rw [blocks]; exact ⟨Nat.lt_succ_of_lt sourceLt, Nat.lt_succ_self _⟩)
          refine ⟨s, g.blockCount, ?_⟩
          simpa [createAndAddEdge, sourceBb, targetBb, edges] using linked
  | none =>
      obtain ⟨edge, edges, blocks⟩ :=
        newBlock_storeBb_same (g := g) a (a + 1) a false [] g.blockCount
      simp only [createAndAddEdge, sourceBb]
      generalize (g.newBlock a (a + 1) a false []).storeBb g.blockCount = g₁ at *
      cases targetBb : g₁.findBb b with
      | some t =>
          have linked := link_of_same g.blockCount t edge edges
            ⟨by rw [blocks]; exact Nat.lt_succ_self _, findBb_lt targetBb⟩
          refine ⟨g.blockCount, t, ?_⟩
          simpa [edges] using linked
      | none =>
          obtain ⟨edge', edges', blocks'⟩ :=
            newBlock_storeBb_same (g := g₁) b (b + 1) b false [] g₁.blockCount
          have linked := link_of_same g.blockCount g₁.blockCount (edge'.trans edge)
            (edges'.trans edges) (by
              rw [blocks', blocks]
              exact ⟨Nat.lt_succ_of_lt (Nat.lt_succ_self _), Nat.lt_succ_self _⟩)
          refine ⟨g.blockCount, g₁.blockCount, ?_⟩
          simpa [edges', edges] using linked

/-! ## Edges between functions -/

/-- The edges of `g` are in `g'`, and besides them only edges between functions. -/
structure AddsInterEdges (g g' : Cfg) : Prop where
  edgeCount_le : g.edgeCount ≤ g'.edgeCount
  old : ∀ e < g.edgeCount, g'.edge e = g.edge e
  inter : ∀ e, g.edgeCount ≤ e → e < g'.edgeCount → (g'.edge e).intraProcedural = false

theorem AddsInterEdges.of_same (edge : g'.edge = g.edge) (edgeCount : g'.edgeCount = g.edgeCount) :
    AddsInterEdges g g' where
  edgeCount_le := edgeCount.ge
  old e _ := by rw [edge]
  inter e above below := absurd (edgeCount ▸ below) above.not_gt

theorem AddsInterEdges.refl (g : Cfg) : AddsInterEdges g g := .of_same rfl rfl

theorem AddsInterEdges.trans (first : AddsInterEdges g g') (second : AddsInterEdges g' g'') :
    AddsInterEdges g g'' where
  edgeCount_le := first.edgeCount_le.trans second.edgeCount_le
  old e below := by rw [second.old e (below.trans_le first.edgeCount_le), first.old e below]
  inter e above below := by
    cases lt_or_ge e g'.edgeCount with
    | inl early =>
        rw [second.old e early]
        exact first.inter e above early
    | inr late => exact second.inter e late below

theorem addInterEdge_adds (a b : Address) (type : ArmsEdgeType) :
    AddsInterEdges g (g.addInterEdge a b type).1 := by
  obtain ⟨source, target, id, count, edge, -⟩ := createAndAddEdge_spec (g := g) a b
  have countAfter : (g.addInterEdge a b type).1.edgeCount = g.edgeCount + 1 := count
  have edgeAfter : (g.addInterEdge a b type).1.edge = Function.update g.edge g.edgeCount
      ((ArmsEdge.setType { source, target } type).setInterprocedural) := by
    simp [addInterEdge, setInterprocedural, updateEdge, id, edge]
  constructor
  · omega
  · intro e below
    rw [edgeAfter, Function.update_of_ne below.ne]
  · intro e above below
    obtain rfl : e = g.edgeCount := by omega
    rw [edgeAfter, Function.update_self]
    rfl

theorem createDummyFunction_adds (funname : String) (baseAddress : Address) :
    AddsInterEdges g (g.createDummyFunction funname baseAddress).1 := by
  unfold createDummyFunction
  split
  · exact .refl g
  · refine .of_same ?_ ?_ <;>
      simp [updateFunction, storeFunction, newFunction, newBlock_storeBb_same]

theorem setIsLibDummy_adds (f : FuncId) : AddsInterEdges g (g.setIsLibDummy f) := .of_same rfl rfl

end Cfg

open Cfg

theorem forEachEdge_rel {R : Cfg → Cfg → Prop} (refl : ∀ g, R g g)
    (trans : ∀ {g g' g''}, R g g' → R g' g'' → R g g'')
    {edges : Cfg → List EdgeId} {body : Cfg → EdgeId → Option Cfg}
    (step : ∀ {g e g'}, body g e = some g' → R g g') {fuel i : Nat} {g g' : Cfg}
    (run : forEachEdge edges body fuel i g = some g') : R g g' := by
  induction fuel generalizing i g with
  | zero => cases run
  | succ fuel ih =>
      rw [forEachEdge] at run
      split at run
      · cases run
        exact refl _
      · obtain ⟨next, stepped, rest⟩ := Option.bind_eq_some_iff.mp run
        exact trans (step stepped) (ih rest)

theorem forEachEdge_adds {edges : Cfg → List EdgeId} {body : Cfg → EdgeId → Option Cfg}
    (step : ∀ {g e g'}, body g e = some g' → AddsInterEdges g g') {fuel i : Nat} {g g' : Cfg}
    (run : forEachEdge edges body fuel i g = some g') : AddsInterEdges g g' :=
  forEachEdge_rel AddsInterEdges.refl AddsInterEdges.trans step run

theorem addRetEdge_adds (base : Address) (g : Cfg) (cc : BlockId) :
    AddsInterEdges g (addRetEdge base g cc) := by
  unfold addRetEdge
  split
  · exact .refl g
  · exact addInterEdge_adds _ _ _

theorem addRetEdges_adds {fuel : Nat} {base : Address} {g g' : Cfg} {into : EdgeId}
    (run : addRetEdges fuel base g into = some g') : AddsInterEdges g g' := by
  obtain ⟨g₁, looped, rfl⟩ := Option.map_eq_some_iff.mp run
  refine AddsInterEdges.trans ?_ (addRetEdge_adds base g₁ _)
  refine forEachEdge_adds ?_ looped
  intro g out g' stepped
  split at stepped
  · cases stepped
    exact .refl g
  · refine forEachEdge_adds ?_ stepped
    intro g caller g' stepped
    cases stepped
    exact addRetEdge_adds base g _

theorem pltJump_adds (g : Cfg) (funname : String) (a b : Address) :
    AddsInterEdges g (((g.createDummyFunction funname b).1.setIsLibDummy
      (g.createDummyFunction funname b).2).addInterEdge a b .interIndirectJmp).1 :=
  (createDummyFunction_adds funname b).trans <|
    (setIsLibDummy_adds _).trans (addInterEdge_adds a b _)

theorem jitAddPltGotEdge_adds {fuel : Nat} {g g' : Cfg} {a b : Address} {e : EdgeId}
    (added : jitAddPltGotEdge fuel g a b = .ok (some (g', e))) : AddsInterEdges g g' := by
  unfold jitAddPltGotEdge at added
  cases function : g.findFunction a with
  | none => simp [function] at added
  | some plt =>
      simp only [function] at added
      by_cases isPlt : (g.func plt).isPlt = true
      · rw [if_pos isPlt] at added
        have jump := pltJump_adds g (g.func plt).funname a b
        generalize Cfg.addInterEdge _ a b .interIndirectJmp = edge at added jump
        cases entry : edge.1.findBb (edge.1.func plt).baseAddr with
        | none => simp [entry] at added
        | some bb =>
            simp only [entry] at added
            generalize (edge.1.func _).baseAddr = base at added
            cases looped : forEachEdge (·.incoming bb) (addRetEdges fuel base) fuel 0 edge.1 with
            | none => simp [looped] at added
            | some last =>
                simp only [looped, Except.ok.injEq, Option.some.injEq, Prod.mk.injEq] at added
                obtain ⟨rfl, -⟩ := added
                exact jump.trans (forEachEdge_adds addRetEdges_adds looped)
      · simp [isPlt] at added

theorem lookupPltGot_adds (t : Tables) (fuel : Nat) (s : Progress) (entry : Address × Address)
    (a b : Address) : AddsInterEdges s.cfg (lookupPltGot t fuel s entry a b).1.cfg := by
  unfold lookupPltGot
  cases scanPltGot entry.1 entry.2 t.pltGot with
  | unsupported => exact .refl _
  | missing => exact .refl _
  | inPlt =>
      cases added : jitAddPltGotEdge fuel s.cfg a b with
      | error h => exact .refl _
      | ok result =>
          cases result with
          | none => exact .refl _
          | some edge => exact jitAddPltGotEdge_adds added

/-! ## Jumps within a function -/

namespace Cfg
variable (g : Cfg)

def SharesFunction (a b : Address) : Prop :=
  ∃ source target f, g.findBbByLastInsnAddress a = some source ∧ g.findBb b = some target ∧
    f ∈ (g.block source).funcs ∧ f ∈ (g.block target).funcs

/-- The edges that `g'` has over `g` and that are marked as indirect jumps within a function lead
from a block of `g` to a block of `g` in the same function. -/
def JumpsStayWithin (g' : Cfg) : Prop :=
  ∀ e, g.edgeCount ≤ e → e < g'.edgeCount →
    (g'.edge e).type = .indirectJmp → (g'.edge e).intraProcedural = true →
      g'.source e < g.blockCount ∧ g'.target e < g.blockCount ∧
        ∃ f, f ∈ (g.block (g'.source e)).funcs ∧ f ∈ (g.block (g'.target e)).funcs

/-- What the tests of the two fallbacks leave open: that the first compared two functions and not
two NULL pointers, and that what the second lets through is the start of a block, and in the
function of the source. -/
def JumpIsLocal (a b : Address) : Prop :=
  (g.allowsFromDummy a b = true →
    (∀ source, g.findBbByLastInsnAddress a = some source → g.getFunction source = none) →
      g.SharesFunction a b) ∧
  (g.allowsFromDummy a b = false → g.allowsFromJumps a = true → g.SharesFunction a b)

variable {g}

theorem AddsInterEdges.jumpsStayWithin {g' : Cfg} (adds : AddsInterEdges g g') :
    g.JumpsStayWithin g' := by
  intro e above below _ intra
  rw [adds.inter e above below] at intra
  cases intra

theorem not_jumpsStayWithin {g' : Cfg} {e : EdgeId} (above : g.edgeCount ≤ e)
    (below : e < g'.edgeCount) (type : (g'.edge e).type = .indirectJmp)
    (intra : (g'.edge e).intraProcedural = true)
    (apart : ∀ f ∈ (g.block (g'.source e)).funcs, f ∉ (g.block (g'.target e)).funcs) :
    ¬ g.JumpsStayWithin g' := by
  intro stays
  obtain ⟨-, -, f, sourceIn, targetIn⟩ := stays e above below type intra
  exact apart f sourceIn targetIn

theorem getFunction_mem {b : BlockId} {f : FuncId} (only : g.getFunction b = some f) :
    f ∈ (g.block b).funcs := by
  unfold getFunction at only
  cases funcs : (g.block b).funcs with
  | nil => simp [funcs] at only
  | cons x rest =>
      cases rest with
      | nil => simpa [funcs, eq_comm] using only
      | cons y rest => simp [funcs] at only

theorem sharesFunction_of_allowsFromDummy {a b : Address} {source : BlockId} {f : FuncId}
    (allowed : g.allowsFromDummy a b = true)
    (sourceBb : g.findBbByLastInsnAddress a = some source)
    (only : g.getFunction source = some f) : g.SharesFunction a b := by
  simp only [allowsFromDummy, sourceBb] at allowed
  split at allowed
  · rw [Bool.and_eq_true] at allowed
    cases targetBb : g.findBb b with
    | none => simp [targetBb] at allowed
    | some target =>
        simp only [targetBb, beq_iff_eq] at allowed
        exact ⟨source, target, f, sourceBb, targetBb, getFunction_mem only,
          getFunction_mem (allowed.2.symm.trans only)⟩
  · cases allowed

theorem allowed_source {a b : Address}
    (allowed : (g.allowsFromDummy a b || g.allowsFromJumps a) = true) :
    ∃ source, g.findBbByLastInsnAddress a = some source := by
  cases sourceBb : g.findBbByLastInsnAddress a with
  | none => simp [allowsFromDummy, allowsFromJumps, sourceBb] at allowed
  | some source => exact ⟨source, rfl⟩

theorem jumpIsLocal_iff {a b : Address}
    (allowed : (g.allowsFromDummy a b || g.allowsFromJumps a) = true) :
    g.JumpIsLocal a b ↔ g.SharesFunction a b := by
  obtain ⟨source, sourceBb⟩ := allowed_source allowed
  constructor
  · rintro ⟨dummy, jumps⟩
    cases fromDummy : g.allowsFromDummy a b with
    | false =>
        rw [fromDummy, Bool.false_or] at allowed
        exact jumps fromDummy allowed
    | true =>
        cases only : g.getFunction source with
        | some f => exact sharesFunction_of_allowsFromDummy fromDummy sourceBb only
        | none =>
            apply dummy fromDummy
            intro other otherBb
            rw [sourceBb, Option.some.injEq] at otherBb
            rw [← otherBb]
            exact only
  · exact fun shares => ⟨fun _ _ => shares, fun _ _ => shares⟩

theorem addIntraJump_staysWithin {a b : Address} {source : BlockId}
    (sourceBb : g.findBbByLastInsnAddress a = some source) :
    g.JumpsStayWithin (g.addIntraJump a b).1 ↔ g.SharesFunction a b := by
  obtain ⟨source', target, id, count, edge, ends⟩ := createAndAddEdge_spec (g := g) a b
  obtain ⟨rfl, targetEq⟩ := ends source sourceBb
  have countAfter : (g.addIntraJump a b).1.edgeCount = g.edgeCount + 1 := count
  have edgeAfter : (g.addIntraJump a b).1.edge = Function.update g.edge g.edgeCount
      { source := source', target, type := .indirectJmp, intraProcedural := true } := by
    simp [addIntraJump, setIntraprocedural, updateEdge, id, edge, ArmsEdge.setType,
      ArmsEdge.setIntraprocedural]
  have newEdge : (g.addIntraJump a b).1.edge g.edgeCount =
      { source := source', target, type := .indirectJmp, intraProcedural := true } := by
    rw [edgeAfter, Function.update_self]
  constructor
  · intro within
    obtain ⟨-, targetLt, f, sourceIn, targetIn⟩ := within g.edgeCount le_rfl (by omega)
      (by rw [newEdge]) (by rw [newEdge])
    simp only [Cfg.source, Cfg.target, newEdge] at targetLt sourceIn targetIn
    cases targetBb : g.findBb b with
    | none =>
        -- a fresh block is none of `g`
        rw [targetEq, targetBb] at targetLt
        exact absurd targetLt (lt_irrefl _)
    | some found =>
        rw [targetBb] at targetEq
        obtain rfl : target = found := targetEq
        exact ⟨source', target, f, sourceBb, targetBb, sourceIn, targetIn⟩
  · rintro ⟨s, found, f, sourceBb', targetBb, sourceIn, targetIn⟩ e above below - -
    obtain rfl : e = g.edgeCount := by omega
    rw [sourceBb, Option.some.injEq] at sourceBb'
    obtain rfl := sourceBb'
    rw [targetBb] at targetEq
    obtain rfl : target = found := targetEq
    simp only [Cfg.source, Cfg.target, newEdge]
    exact ⟨findBbByLastInsnAddress_lt sourceBb, findBb_lt targetBb, f, sourceIn, targetIn⟩

end Cfg

/-! ## Rounds -/

section
variable (t : Tables) (fuel : Nat)

/-- The graph that a round searches and the edge it searches for, unless an address is unknown. -/
def searched (s : Progress) (entry : Address × Address) : Option (Cfg × Address × Address) :=
  let n := normalizeEntry t s entry
  if n.2.1 = jitAddrUnknown ∨ n.2.2 = jitAddrUnknown then none
  else some (retouched t n.1.cfg n.2.1 n.2.2, n.2.1, n.2.2)

def rounds : List (Address × Address) → Progress → List (Progress × Address × Address)
  | [], _ => []
  | entry :: rest, s =>
      (s, entry) :: match jitRound t fuel s entry with
        | (s, none) => rounds rest s
        | (_, some _) => []

def validationRounds (d : Daemon) (lbr : Lbr) : List (Progress × Address × Address) :=
  rounds t fuel (lookups t (prepared t lbr))
    { cfg := d.cfg, lastLibCall := d.lastLibCall, edges := [] }

def LearnsWithinFunctions (d : Daemon) (lbr : Lbr) : Prop :=
  ∀ round ∈ validationRounds t fuel d lbr, ∀ g a b, searched t round.1 round.2 = some (g, a, b) →
    g.JumpsStayWithin (jitRound t fuel round.1 round.2).1.cfg

def MissesAreLocal (d : Daemon) (lbr : Lbr) : Prop :=
  ∀ round ∈ validationRounds t fuel d lbr, ∀ g a b, searched t round.1 round.2 = some (g, a, b) →
    g.findEdge a b = none → g.JumpIsLocal a b

variable {t fuel}

theorem jitRound_of_searched {s : Progress} {entry : Address × Address} {g : Cfg} {a b : Address}
    (search : searched t s entry = some (g, a, b)) :
    jitRound t fuel s entry =
      lookupEdge t fuel { (normalizeEntry t s entry).1 with cfg := g } entry a b := by
  unfold searched at search
  dsimp only at search
  split_ifs at search with unknown
  simp only [Option.some.injEq, Prod.mk.injEq] at search
  obtain ⟨rfl, rfl, rfl⟩ := search
  simp only [jitRound, unknown, if_false]

theorem lookupEdge_staysWithin (s : Progress) (entry : Address × Address) (a b : Address) :
    s.cfg.JumpsStayWithin (lookupEdge t fuel s entry a b).1.cfg ↔
      (s.cfg.findEdge a b = none → s.cfg.JumpIsLocal a b) := by
  unfold lookupEdge
  cases edge : s.cfg.findEdge a b with
  | some e =>
      simp only [reduceCtorEq, false_implies, iff_true]
      exact (AddsInterEdges.refl s.cfg).jumpsStayWithin
  | none =>
      simp only [true_implies]
      cases allowed : s.cfg.allowsFromDummy a b || s.cfg.allowsFromJumps a with
      | true =>
          obtain ⟨source, sourceBb⟩ := allowed_source allowed
          rw [intraJump, if_pos allowed, jumpIsLocal_iff allowed]
          exact addIntraJump_staysWithin sourceBb
      | false =>
          rw [intraJump, if_neg (by simp [allowed])]
          have adds := lookupPltGot_adds t fuel s entry a b
          apply iff_of_true adds.jumpsStayWithin
          rw [Bool.or_eq_false_iff] at allowed
          simp [JumpIsLocal, allowed]

theorem jitRound_staysWithin {s : Progress} {entry : Address × Address} {g : Cfg} {a b : Address}
    (search : searched t s entry = some (g, a, b)) :
    g.JumpsStayWithin (jitRound t fuel s entry).1.cfg ↔
      (g.findEdge a b = none → g.JumpIsLocal a b) := by
  rw [jitRound_of_searched search]
  exact lookupEdge_staysWithin { (normalizeEntry t s entry).1 with cfg := g } entry a b

end

/-! ## A jump into another function -/

/-- The graph of an executable: functions by base address and name, and blocks by first and last
instruction, each in one function or in none. -/
def Cfg.ofProgram (startAddr endAddr : Address) (funcs : List (Address × String))
    (blocks : List (Address × Address × Bool × List FuncId))
    (edges : List (BlockId × BlockId × ArmsEdgeType)) : Cfg :=
  let stored := blocks.foldl (fun g (start, last, isDummy, funcs) =>
    (g.newBlock start (last + 1) last isDummy funcs).storeBb g.blockCount)
      { Cfg.empty id with startAddr, endAddr }
  let named := funcs.foldl (fun g (baseAddr, funname) =>
    let basicBlocks := (List.range g.blockCount).filter fun b => g.funcCount ∈ (g.block b).funcs
    (g.newFunction { baseAddr, funname, basicBlocks }).storeFunction g.funcCount) stored
  edges.foldl (fun g (source, target, type) => (g.link source target).setType g.edgeCount type) named

def bareTables : Tables where
  offsets :=
    { libs := [], indirectCallSource := 0x7000, loadFrom := 0x7010, armorLibEnter := 0x7020,
      armorLibReturn := 0x7030, pthreadCreate := 0x7040, pthreadCreateReturn := 0x7050 }
  pltGot := []
  exitpoint _ := false
  retouch _ g := g

/-- A jump table of `parse` with one known target, next to a function `exec`. -/
def jumpTableCfg : Cfg := .ofProgram 0x400000 0x401000
  [(0x400100, "parse"), (0x400200, "exec")]
  [(0x400100, 0x400108, false, [0]), (0x400110, 0x400118, false, [0]),
    (0x400200, 0x400208, false, [1])]
  [(0, 1, .indirectJmp)]

end PathArmor.Analyzer

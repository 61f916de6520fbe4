import PathArmor.Analyzer.EdgeLookup
import PathArmor.Analyzer.GraphRules
import PathArmor.Analyzer.JitSound

/-!
# What an accepted LBR is

Every entry that `jit_validate_lbr` looks up yields an edge, found or made, between the blocks at
the two addresses of the entry. Later rounds only add to the graph, so these edges are still there
when the search starts, and an LBR that it accepts is what the processor records along one walk.
-/

namespace PathArmor.Analyzer
open PathArmor.Library

namespace Cfg

/-- An edge from the block that ends at `a` to the block that starts at `b`. -/
structure Leads (g : Cfg) (e : EdgeId) (a b : Address) : Prop where
  isEdge : g.IsEdge e
  last : (g.block (g.source e)).lastInsnAddress = a
  start : (g.block (g.target e)).startAddress = b

variable {g g' g'' : Cfg} {e : EdgeId} {a b : Address}

theorem findEdge_leads (found : g.findEdge a b = some e) : g.Leads e a b := by
  unfold findEdge at found
  cases sourceBb : g.findBbByLastInsnAddress a with
  | none => simp [sourceBb] at found
  | some bb =>
      simp only [sourceBb] at found
      have member : e ∈ g.outgoing bb := List.mem_of_find?_eq_some found
      constructor
      · exact isEdge_of_mem member
      · rw [source_of_mem member]
        exact (g.last2bb_last a bb sourceBb).2
      · have leads := List.find?_some found
        simpa only [beq_iff_eq] using leads

/-! ## Edges stay -/

namespace Leads

theorem of_sameHeap (leads : g.Leads e a b) (same : SameHeap g g') : g'.Leads e a b := by
  constructor
  · rw [IsEdge, source, outgoing, same.block, same.edge]
    exact leads.isEdge
  · rw [source, same.block, same.edge]
    exact leads.last
  · rw [target, same.block, same.edge]
    exact leads.start

theorem newBlock (leads : g.Leads e a b) (start endAddress last : Address) (isDummy : Bool)
    (funcs : List FuncId) : (g.newBlock start endAddress last isDummy funcs).Leads e a b := by
  obtain ⟨sourceLt, targetLt⟩ := g.endpoint_lt e leads.isEdge.lt
  constructor
  · rw [IsEdge, newBlock_outgoing]
    exact leads.isEdge
  · exact (congrArg _ (newBlock_block_of_ne sourceLt.ne)).trans leads.last
  · exact (congrArg _ (newBlock_block_of_ne targetLt.ne)).trans leads.start

theorem storeBb (leads : g.Leads e a b) (bb : BlockId) : (g.storeBb bb).Leads e a b := by
  obtain ⟨block, edge, -⟩ := storeBb_same (g := g) bb
  constructor
  · rw [IsEdge, source, outgoing, block, edge]
    exact leads.isEdge
  · rw [source, block, edge]
    exact leads.last
  · rw [target, block, edge]
    exact leads.start

theorem updateEdge (leads : g.Leads e a b) (x : EdgeId) (change : ArmsEdge → ArmsEdge)
    (keepsSource : ∀ y, (change y).source = y.source)
    (keepsTarget : ∀ y, (change y).target = y.target) :
    (g.updateEdge x change keepsSource keepsTarget).Leads e a b := by
  constructor
  · rw [IsEdge, updateEdge_source]
    exact leads.isEdge
  · rw [updateEdge_source]
    exact leads.last
  · rw [updateEdge_target]
    exact leads.start

theorem setType (leads : g.Leads e a b) (x : EdgeId) (type : ArmsEdgeType) :
    (g.setType x type).Leads e a b := leads.updateEdge x _ _ _

theorem setIntraprocedural (leads : g.Leads e a b) (x : EdgeId) :
    (g.setIntraprocedural x).Leads e a b := leads.updateEdge x _ _ _

theorem setInterprocedural (leads : g.Leads e a b) (x : EdgeId) :
    (g.setInterprocedural x).Leads e a b := leads.updateEdge x _ _ _

theorem link (leads : g.Leads e a b) (bb cc : BlockId) : (g.link bb cc).Leads e a b := by
  by_cases bound : bb < g.blockCount ∧ cc < g.blockCount
  · have edge : (g.link bb cc).edge e = g.edge e := by
      rw [link_edge bound, Function.update_of_ne leads.isEdge.lt.ne]
    constructor
    · rw [IsEdge, source, edge]
      exact (mem_outgoing_link bound).mpr (.inr leads.isEdge)
    · rw [source, edge, link_block bound, linkBlocks_apply]
      exact leads.last
    · rw [target, edge, (link_data bb cc _).1]
      exact leads.start
  · rw [Cfg.link, dif_neg bound]
    exact leads

end Leads

theorem leads_kept (e : EdgeId) (a b : Address) : Kept fun g => g.Leads e a b where
  sameHeap same leads := leads.of_sameHeap same
  newBlock start endAddress last isDummy funcs leads := leads.newBlock start endAddress last isDummy funcs
  storeBb bb leads := leads.storeBb bb
  link bb cc leads := leads.link bb cc
  setType x _ _ leads := leads.setType x _
  setHidden x _ leads := leads.updateEdge x _ _ _

theorem isEdges_kept (edges : List EdgeId) : Kept fun g => ∀ e ∈ edges, g.IsEdge e := by
  have leads {g : Cfg} (isEdge : ∀ e ∈ edges, g.IsEdge e) (e : EdgeId) (member : e ∈ edges) :
      g.Leads e _ _ := ⟨isEdge e member, rfl, rfl⟩
  constructor
  · exact fun same holds e member => ((leads holds e member).of_sameHeap same).isEdge
  · exact fun start endAddress last isDummy funcs holds e member =>
      ((leads holds e member).newBlock start endAddress last isDummy funcs).isEdge
  · exact fun bb holds e member => ((leads holds e member).storeBb bb).isEdge
  · exact fun bb cc holds e member => ((leads holds e member).link bb cc).isEdge
  · exact fun x _ _ holds e member => ((leads holds e member).setType x _).isEdge
  · exact fun x _ holds e member => ((leads holds e member).updateEdge x _ _ _).isEdge

def KeepsEdges (g g' : Cfg) : Prop := ∀ e a b, g.Leads e a b → g'.Leads e a b

namespace KeepsEdges

theorem refl (g : Cfg) : KeepsEdges g g := fun _ _ _ => id

theorem trans (first : KeepsEdges g g') (second : KeepsEdges g' g'') : KeepsEdges g g'' :=
  fun e a b leads => second e a b (first e a b leads)

theorem addIntraJump (a b : Address) : KeepsEdges g (g.addIntraJump a b).1 := by
  intro e x y leads
  have created := (leads_kept e x y).createAndAddEdge leads a b
  exact (created.setType _ _).setIntraprocedural _

theorem addInterEdge (a b : Address) (type : ArmsEdgeType) :
    KeepsEdges g (g.addInterEdge a b type).1 := by
  intro e x y leads
  have created := (leads_kept e x y).createAndAddEdge leads a b
  exact (created.setType _ _).setInterprocedural _

theorem createDummyFunction (funname : String) (base : Address) :
    KeepsEdges g (g.createDummyFunction funname base).1 := by
  intro e x y leads
  unfold Cfg.createDummyFunction
  cases g.findFunction base with
  | some f => exact leads
  | none =>
      have stored : SameHeap g ((g.newFunction { baseAddr := base, funname }).storeFunction g.funcCount) := by
        refine ⟨?_, ?_, ?_, ?_, ?_⟩ <;> simp [storeFunction, newFunction]
      have block := ((leads.of_sameHeap stored).newBlock base (base + 1) base true [g.funcCount])
      exact (block.storeBb _).of_sameHeap ⟨rfl, rfl, rfl, rfl, rfl⟩

theorem setIsLibDummy (f : FuncId) : KeepsEdges g (g.setIsLibDummy f) :=
  fun _ _ _ leads => leads.of_sameHeap ⟨rfl, rfl, rfl, rfl, rfl⟩

end KeepsEdges

/-! ## New edges -/

theorem link_leads {bb cc : BlockId} (bound : bb < g.blockCount ∧ cc < g.blockCount)
    (last : (g.block bb).lastInsnAddress = a) (start : (g.block cc).startAddress = b) :
    (g.link bb cc).Leads g.edgeCount a b := by
  have edge : (g.link bb cc).edge g.edgeCount = { source := bb, target := cc } := by
    rw [link_edge bound, Function.update_self]
  constructor
  · rw [IsEdge, source, edge]
    exact (mem_outgoing_link bound).mpr (.inl ⟨rfl, rfl⟩)
  · rw [source, edge, link_block bound, linkBlocks_apply]
    exact last
  · rw [target, edge, (link_data bb cc _).1]
    exact start

theorem storeByte_block_new (a : Address) : (g.storeByte a).block g.blockCount =
    { startAddress := a, endAddress := a + 1, lastInsnAddress := a } := by
  rw [storeByte, (storeBb_same _).1, newBlock_block_self]

theorem linkTarget_leads {bb : BlockId} (allocated : bb < g.blockCount)
    (last : (g.block bb).lastInsnAddress = a) (b : Address) :
    let targeted : Cfg × BlockId := match g.findBb b with
      | some cc => (g, cc)
      | none => (g.storeByte b, g.blockCount)
    (targeted.1.link bb targeted.2).Leads targeted.1.edgeCount a b := by
  cases targetBb : g.findBb b with
  | some cc =>
      exact link_leads ⟨allocated, findBb_lt targetBb⟩ last (g.start2bb_start b cc targetBb).2
  | none =>
      apply link_leads
      · rw [storeByte_blockCount]
        exact ⟨Nat.lt_succ_of_lt allocated, Nat.lt_succ_self _⟩
      · rw [storeByte_block_old allocated]
        exact last
      · rw [storeByte_block_new]

theorem createAndAddEdge_leads (g : Cfg) (a b : Address) :
    (g.createAndAddEdge a b).1.Leads (g.createAndAddEdge a b).2 a b := by
  unfold createAndAddEdge
  cases sourceBb : g.findBbByLastInsnAddress a with
  | some bb =>
      obtain ⟨allocated, last⟩ := g.last2bb_last a bb sourceBb
      exact linkTarget_leads allocated last b
  | none =>
      refine linkTarget_leads (g := g.storeByte a) ?_ ?_ b
      · rw [storeByte_blockCount]
        exact Nat.lt_succ_self _
      · rw [storeByte_block_new]

theorem addIntraJump_leads (g : Cfg) (a b : Address) :
    (g.addIntraJump a b).1.Leads (g.addIntraJump a b).2 a b :=
  ((createAndAddEdge_leads g a b).setType _ _).setIntraprocedural _

theorem addInterEdge_leads (g : Cfg) (a b : Address) (type : ArmsEdgeType) :
    (g.addInterEdge a b type).1.Leads (g.addInterEdge a b type).2 a b :=
  ((createAndAddEdge_leads g a b).setType _ _).setInterprocedural _

end Cfg

open Cfg

theorem addRetEdge_keepsEdges (base : Address) (g : Cfg) (cc : BlockId) :
    KeepsEdges g (addRetEdge base g cc) := by
  unfold addRetEdge
  cases g.getFallthroughBb cc with
  | none => exact .refl g
  | some bb => exact .addInterEdge _ _ _

theorem addRetEdges_keepsEdges {fuel : Nat} {base : Address} {g g' : Cfg} {into : EdgeId}
    (run : addRetEdges fuel base g into = some g') : KeepsEdges g g' := by
  obtain ⟨g₁, looped, rfl⟩ := Option.map_eq_some_iff.mp run
  refine KeepsEdges.trans ?_ (addRetEdge_keepsEdges base g₁ _)
  refine forEachEdge_rel KeepsEdges.refl KeepsEdges.trans ?_ looped
  intro g out g' stepped
  split at stepped
  · cases stepped
    exact .refl g
  · refine forEachEdge_rel KeepsEdges.refl KeepsEdges.trans ?_ stepped
    intro g caller g' stepped
    cases stepped
    exact addRetEdge_keepsEdges base g _

theorem jitAddPltGotEdge_leads {fuel : Nat} {g g' : Cfg} {a b : Address} {e : EdgeId}
    (added : jitAddPltGotEdge fuel g a b = .ok (some (g', e))) :
    KeepsEdges g g' ∧ g'.Leads e a b := by
  unfold jitAddPltGotEdge at added
  cases function : g.findFunction a with
  | none => simp [function] at added
  | some plt =>
      simp only [function] at added
      split_ifs at added with isPlt
      swap
      · simp at added
      have marked := (KeepsEdges.createDummyFunction (g := g) (g.func plt).funname b).trans
        (.setIsLibDummy (g.createDummyFunction (g.func plt).funname b).2)
      have kept := marked.trans (.addInterEdge a b .interIndirectJmp)
      have leads := addInterEdge_leads ((g.createDummyFunction (g.func plt).funname b).1.setIsLibDummy
        (g.createDummyFunction (g.func plt).funname b).2) a b .interIndirectJmp
      generalize Cfg.addInterEdge _ a b .interIndirectJmp = edge at added kept leads
      cases entry : edge.1.findBb (edge.1.func plt).baseAddr with
      | none => simp [entry] at added
      | some bb =>
          simp only [entry] at added
          generalize (edge.1.func _).baseAddr = base at added
          cases looped : forEachEdge (·.incoming bb) (addRetEdges fuel base) fuel 0 edge.1 with
          | none => simp [looped] at added
          | some last =>
              simp only [looped, Except.ok.injEq, Option.some.injEq, Prod.mk.injEq] at added
              obtain ⟨rfl, rfl⟩ := added
              have returns : KeepsEdges edge.1 last :=
                forEachEdge_rel KeepsEdges.refl KeepsEdges.trans addRetEdges_keepsEdges looped
              exact ⟨kept.trans returns, returns _ _ _ leads⟩

/-! ## Rounds -/

/-- A missing target is parsed as `DICFG` does it. -/
def Tables.Reparses (t : Tables) : Prop :=
  ∀ target g, ∃ (s : Insertion) (resolver : Address → List Address) (p : ParseResult),
    s.cfg = g ∧ t.retouch target g = (s.retouch resolver p).cfg

/-- The edge is between the blocks that the round looked up. -/
def Answers (t : Tables) (g : Cfg) (round : Progress × Address × Address) (e : EdgeId) : Prop :=
  ∃ g₁ a b, searched t round.1 round.2 = some (g₁, a, b) ∧ g.Leads e a b

variable {t : Tables} {fuel : Nat}

theorem Answers.keep {g g' : Cfg} {round : Progress × Address × Address} {e : EdgeId}
    (answers : Answers t g round e) (kept : KeepsEdges g g') : Answers t g' round e := by
  obtain ⟨g₁, a, b, search, leads⟩ := answers
  exact ⟨g₁, a, b, search, kept e a b leads⟩

theorem lookupEdge_leads {s s' : Progress} {entry : Address × Address} {a b : Address}
    (ran : lookupEdge t fuel s entry a b = (s', none)) :
    ∃ e, s'.edges = s.edges ++ [e] ∧ s'.cfg.Leads e a b ∧ KeepsEdges s.cfg s'.cfg := by
  unfold lookupEdge at ran
  cases found : s.cfg.findEdge a b with
  | some e =>
      simp only [found, Progress.found, Prod.mk.injEq, and_true] at ran
      subst ran
      exact ⟨e, rfl, findEdge_leads found, .refl _⟩
  | none =>
      simp only [found] at ran
      unfold intraJump at ran
      split_ifs at ran with allowed
      · simp only [Progress.found, Prod.mk.injEq, and_true] at ran
        subst ran
        exact ⟨_, rfl, addIntraJump_leads _ a b, .addIntraJump a b⟩
      · unfold lookupPltGot at ran
        cases scan : scanPltGot entry.1 entry.2 t.pltGot with
        | unsupported => simp [scan, Progress.stop] at ran
        | missing => simp [scan, Progress.stop] at ran
        | inPlt =>
            simp only [scan] at ran
            cases added : jitAddPltGotEdge fuel s.cfg a b with
            | error h => simp [added, Progress.stop] at ran
            | ok result =>
                cases result with
                | none => simp [added, Progress.stop] at ran
                | some edge =>
                    simp only [added, Progress.found, Prod.mk.injEq, and_true] at ran
                    subst ran
                    obtain ⟨kept, leads⟩ := jitAddPltGotEdge_leads added
                    exact ⟨edge.2, rfl, leads, kept⟩

theorem retouched_keepsEdges (reparses : t.Reparses) (g : Cfg) (a b : Address) :
    KeepsEdges g (retouched t g a b) := by
  intro e x y leads
  unfold retouched
  split_ifs
  · obtain ⟨s, resolver, p, rfl, parsed⟩ := reparses b g
    rw [parsed]
    exact (leads_kept e x y).retouch leads resolver p
  · exact leads

theorem jitRound_answers (reparses : t.Reparses) {s s' : Progress} {entry : Address × Address}
    (ran : jitRound t fuel s entry = (s', none)) :
    ∃ e, s'.edges = s.edges ++ [e] ∧ Answers t s'.cfg (s, entry) e ∧ KeepsEdges s.cfg s'.cfg := by
  cases search : searched t s entry with
  | none =>
      unfold searched at search
      dsimp only at search
      split_ifs at search with unknown
      simp [jitRound, unknown, Progress.stop] at ran
  | some asked =>
      obtain ⟨g, a, b⟩ := asked
      rw [jitRound_of_searched search] at ran
      obtain ⟨e, edges, leads, kept⟩ := lookupEdge_leads ran
      have parsed : KeepsEdges s.cfg g := by
        unfold searched at search
        dsimp only at search
        split_ifs at search
        simp only [Option.some.injEq, Prod.mk.injEq] at search
        rw [← search.1]
        exact retouched_keepsEdges reparses _ _ _
      exact ⟨e, edges, ⟨g, a, b, search, leads⟩, parsed.trans kept⟩

theorem jitRounds_answers (reparses : t.Reparses) {entries : List (Address × Address)}
    {s s' : Progress} (ran : jitRounds t fuel entries s = (s', none)) :
    ∃ edges, s'.edges = s.edges ++ edges ∧
      List.Forall₂ (Answers t s'.cfg) (rounds t fuel entries s) edges ∧
      (rounds t fuel entries s).map (·.2) = entries ∧ KeepsEdges s.cfg s'.cfg := by
  induction entries generalizing s with
  | nil =>
      simp only [jitRounds, Prod.mk.injEq, and_true] at ran
      subst ran
      exact ⟨[], by simp, .nil, rfl, .refl _⟩
  | cons entry entries ih =>
      rw [jitRounds] at ran
      cases round : jitRound t fuel s entry with
      | mk s₁ stopped =>
          cases stopped with
          | some reason => simp [round] at ran
          | none =>
              simp only [round] at ran
              obtain ⟨e, added, answers, kept⟩ := jitRound_answers reparses round
              obtain ⟨edges, rest, all, asked, keptRest⟩ := ih ran
              have unrolled : rounds t fuel (entry :: entries) s =
                  (s, entry) :: rounds t fuel entries s₁ := by
                simp [rounds, round]
              refine ⟨e :: edges, ?_, ?_, ?_, kept.trans keptRest⟩
              · rw [rest, added, List.append_assoc, List.singleton_append]
              · rw [unrolled]
                exact .cons (answers.keep keptRest) all
              · rw [unrolled, List.map_cons, asked]

theorem lookupPltGot_ne_valid (s : Progress) (entry : Address × Address) (a b : Address) :
    (lookupPltGot t fuel s entry a b).2 ≠ some (.verdict .valid) := by
  unfold lookupPltGot
  cases scanPltGot entry.1 entry.2 t.pltGot with
  | unsupported => simp [Progress.stop]
  | missing =>
      simp only [Progress.stop]
      split_ifs <;> simp
  | inPlt =>
      cases jitAddPltGotEdge fuel s.cfg a b with
      | error h => simp [Progress.stop]
      | ok result => cases result <;> simp [Progress.stop, Progress.found]

/-- No entry alone makes an LBR valid: that takes the search. -/
theorem jitRound_ne_valid (t : Tables) (fuel : Nat) (s : Progress) (entry : Address × Address) :
    (jitRound t fuel s entry).2 ≠ some (.verdict .valid) := by
  simp only [jitRound]
  split_ifs
  · simp [Progress.stop]
  · unfold lookupEdge
    split
    · simp [Progress.found]
    · split
      · simp [Progress.found]
      · exact lookupPltGot_ne_valid _ _ _ _

theorem jitRounds_ne_valid (t : Tables) (fuel : Nat) (entries : List (Address × Address)) (s : Progress) :
    (jitRounds t fuel entries s).2 ≠ some (.verdict .valid) := by
  induction entries generalizing s with
  | nil => simp [jitRounds]
  | cons entry entries ih =>
      have stopped := jitRound_ne_valid t fuel s entry
      rw [jitRounds]
      cases round : jitRound t fuel s entry with
      | mk s₁ reason =>
          rw [round] at stopped
          cases reason with
          | none => exact ih s₁
          | some reason => exact stopped

theorem searchPath_valid {d d' : Daemon} {s : Progress}
    (accepted : searchPath d s = .ok (.valid, d')) :
    d'.cfg = s.cfg ∧
      s.cfg.jitPathExists s.cfg.searchFuel s.edges (s.edges.headD 0) (.start d.stack) = .found := by
  unfold searchPath at accepted
  dsimp only at accepted
  generalize s.cfg.jitPathExists s.cfg.searchFuel s.edges (s.edges.headD 0) (.start d.stack) =
    outcome at accepted ⊢
  cases outcome with
  | found =>
      simp only [Except.ok.injEq, Prod.mk.injEq, true_and] at accepted
      subst accepted
      exact ⟨rfl, rfl⟩
  | rejected _ | aborted | outOfFuel => simp at accepted

theorem jitValidateLbr_valid {d d' : Daemon} {lbr : Lbr}
    (accepted : jitValidateLbr t fuel d lbr = .ok (.valid, d')) :
    ∃ s, jitRounds t fuel (lookups t (prepared t lbr))
        { cfg := d.cfg, lastLibCall := d.lastLibCall, edges := [] } = (s, none) ∧
      searchPath d s = .ok (.valid, d') := by
  have stopped := jitRounds_ne_valid t fuel (lookups t (prepared t lbr))
    { cfg := d.cfg, lastLibCall := d.lastLibCall, edges := [] }
  unfold jitValidateLbr at accepted
  dsimp only at accepted
  cases ran : jitRounds t fuel (lookups t (prepared t lbr))
      { cfg := d.cfg, lastLibCall := d.lastLibCall, edges := [] } with
  | mk s reason =>
      rw [ran] at stopped accepted
      cases reason with
      | none => exact ⟨s, rfl, accepted⟩
      | some reason =>
          cases reason with
          | halt h => simp at accepted
          | verdict v =>
              simp only [Except.ok.injEq, Prod.mk.injEq] at accepted
              simp [accepted.1] at stopped

/-- An accepted LBR is one walk in the graph as it is after the validation: every entry that was
looked up has an edge between its two addresses, and from the first one on these are all the
branches that the processor records along the walk. -/
theorem jitValidateLbr_valid_walk (reparses : t.Reparses) {d d' : Daemon} {lbr : Lbr}
    (accepted : jitValidateLbr t fuel d lbr = .ok (.valid, d')) :
    (validationRounds t fuel d lbr).map (·.2) = lookups t (prepared t lbr) ∧
      ∃ edges, List.Forall₂ (Answers t d'.cfg) (validationRounds t fuel d lbr) edges ∧
        ∀ first rest, edges = first :: rest →
          ∃ path final, d'.cfg.visible.Walk (d'.cfg.target first) path final ∧
            path.filter (fun f => edgeIsFunctionExit (d'.cfg.edge f)) = rest := by
  obtain ⟨s, ran, search⟩ := jitValidateLbr_valid accepted
  obtain ⟨graph, found⟩ := searchPath_valid search
  obtain ⟨edges, collected, answered, asked, -⟩ := jitRounds_answers reparses ran
  rw [List.nil_append] at collected
  refine ⟨asked, edges, ?_, ?_⟩
  · rw [graph]
    exact answered
  · intro first rest split
    rw [collected, split, List.headD_cons] at found
    rw [graph]
    exact (jitPathExists_continues found).exists_walk

theorem bareTables_reparses : bareTables.Reparses := by
  intro target g
  let nothing : ParseResult := ⟨[], [], [], by simp⟩
  exact ⟨{ Insertion.ofEmpty g.edgeAddress id with cfg := g }, fun _ => [], nothing, rfl, rfl⟩

/-- A call and the return from it. -/
def callProgram : Cfg := .ofProgram 0x400000 0x401000
  [(0x400100, "main"), (0x400200, "parse")]
  [(0x400100, 0x400108, false, [0]), (0x40010d, 0x400118, false, [0]),
    (0x400200, 0x400208, false, [1]), (0x400210, 0x400218, false, [1])]
  [(0, 2, .directCall), (0, 1, .callFt), (2, 3, .directJmp), (3, 1, .ret)]

def callLbr : Lbr := .ofEntries [(0x400108, 0x400200), (0x400218, 0x40010d)]

theorem callProgram_valid :
    ∃ d', jitValidateLbr bareTables 0 { cfg := callProgram } callLbr = .ok (.valid, d') := by
  have valid : (jitValidateLbr bareTables 0 { cfg := callProgram } callLbr).toOption.map (·.1) =
      some .valid := by decide +kernel
  generalize jitValidateLbr bareTables 0 { cfg := callProgram } callLbr = result at valid
  cases result with
  | error h => simp [Except.toOption] at valid
  | ok answer =>
      obtain ⟨verdict, d'⟩ := answer
      obtain rfl : verdict = .valid := Option.some.inj valid
      exact ⟨d', rfl⟩

theorem jitValidateLbr_valid_walk_callProgram :
    ∃ d', jitValidateLbr bareTables 0 { cfg := callProgram } callLbr = .ok (.valid, d') ∧
      ∃ edges, List.Forall₂ (Answers bareTables d'.cfg)
        (validationRounds bareTables 0 { cfg := callProgram } callLbr) edges := by
  obtain ⟨d', validated⟩ := callProgram_valid
  obtain ⟨-, edges, answered, -⟩ := jitValidateLbr_valid_walk bareTables_reparses validated
  exact ⟨d', validated, edges, answered⟩

end PathArmor.Analyzer

import PathArmor.Analyzer.JitSearch
import PathArmor.Library.Worklist

/-!
# Collapsing functions

`simplifyCfg` replaces the inside of every function by fastpaths: from each block one edge to every
exit block that is reachable from it. A failed assertion is `none`.
-/

namespace PathArmor.Analyzer
open PathArmor.Library

namespace Cfg
variable (g : Cfg)

def storeMissingBb (b : BlockId) : Cfg :=
  if (g.findBb (g.block b).startAddress).isNone then g.storeBb b else g

def createAndAddBlockEdge (source target : BlockId) : Option (Cfg × EdgeId) :=
  let g := g.storeMissingBb source
  if g.findBb (g.block source).startAddress = some source then
    let g := g.storeMissingBb target
    if g.findBb (g.block target).startAddress = some target then
      some (g.link source target, g.edgeCount)
    else none
  else none

/-- With a null pointer there is no edge. -/
def createAndAddEdgeBetween : Option BlockId → Option BlockId → Option (Cfg × Option EdgeId)
  | some source, some target =>
      (g.createAndAddBlockEdge source target).map fun (g, e) => (g, some e)
  | _, _ => some (g, none)

def createFastpath (bb cc : BlockId) : Option Cfg :=
  (g.createAndAddBlockEdge bb cc).map fun (g, f) => g.setType f .fastpath

structure Collapse where
  cfg : Cfg
  exits : List BlockId

def Collapse.recordExit (s : Collapse) (bb cc : BlockId) : Option Collapse :=
  if cc ∈ s.exits then some s
  else if bb = cc then some { s with exits := s.exits ++ [cc] }
  else (s.cfg.createFastpath bb cc).map fun cfg => { cfg, exits := s.exits ++ [cc] }

def scanEdge (bb cc : BlockId) (state : Collapse × Worklist BlockId) (e : EdgeId) :
    Option (Collapse × Worklist BlockId) :=
  let (s, w) := state
  if edgeIsFastpath (s.cfg.edge e) then some (s, w)
  else if edgeIsFunctionExit (s.cfg.edge e) then (s.recordExit bb cc).map fun s => (s, w)
  else some ({ s with cfg := s.cfg.setHidden e true }, w.schedule (s.cfg.target e))

/-- The loop of the sources runs over the live edge set of `cc`; by `scanEdge_outgoing` the set does
not change meanwhile. -/
def searchBlock (bb cc : BlockId) (state : Collapse × Worklist BlockId) :
    Option (Collapse × Worklist BlockId) :=
  let (s, w) := state
  (if (s.cfg.outgoing cc).length = 0 then s.recordExit bb cc else some s).bind fun s =>
    (s.cfg.outgoing cc).foldlM (scanEdge bb cc) (s, w)

def collapseBlock (bb : BlockId) : Option Cfg :=
  (Worklist.search (searchBlock bb) (g.blockCount + 1)
    ({ cfg := g, exits := [] }, Worklist.start bb)).map fun state => state.1.cfg

def collapseFunction (f : FuncId) : Option Cfg :=
  if (g.func f).isPlt || (g.func f).isLibDummy then some g
  else (g.func f).basicBlocks.reverse.foldlM collapseBlock g

def simplifyCfg : Option Cfg :=
  g.functions.foldlM (fun g entry => g.collapseFunction entry.2) g

/-- The branches within functions: neither recorded nor a shortcut, hidden or not. -/
def internal : Digraph BlockId EdgeId where
  source := g.source
  target := g.target
  usable e := g.IsEdge e ∧ ¬ g.Recorded e ∧ edgeIsFastpath (g.edge e) = false

def DistinctStarts : Prop :=
  ∀ b c, b < g.blockCount → c < g.blockCount →
    (g.block b).startAddress = (g.block c).startAddress → b = c

def Ordinary (f : FuncId) : Prop := (g.func f).isPlt = false ∧ (g.func f).isLibDummy = false

def InOrdinaryFunction (b : BlockId) : Prop :=
  ∃ entry ∈ g.functions, g.Ordinary entry.2 ∧ b ∈ (g.func entry.2).basicBlocks

def IsExit (b : BlockId) : Prop := g.outgoing b = [] ∨ ∃ e ∈ g.outgoing b, g.Recorded e

/-- The fastpaths `simplifyCfg` is going to create. -/
structure Shortcut (bb cc : BlockId) : Prop where
  ordinary : g.InOrdinaryFunction bb
  reach : g.internal.Reach bb cc
  apart : bb ≠ cc
  exit : g.IsExit cc

def Endpoint (b : BlockId) : Prop := ∃ c, g.Shortcut b c ∨ g.Shortcut c b

def Registered (b : BlockId) : Prop := g.findBb (g.block b).startAddress = some b

/-- No end point of a fastpath shares its start address with a registered block or with another
end point. -/
def Unambiguous : Prop :=
  ∀ b c, g.Endpoint b → g.findBb (g.block b).startAddress = some c ∨
    g.Endpoint c ∧ (g.block c).startAddress = (g.block b).startAddress → c = b

/-- What `simplifyCfg` and each of its steps do: internal edges get hidden, fastpaths along
internal paths are added and their end points registered, nothing else. -/
structure Simplifies (g g' : Cfg) : Prop where
  blockCount : g'.blockCount = g.blockCount
  start : ∀ b, (g'.block b).startAddress = (g.block b).startAddress
  functions : g'.functions = g.functions
  func : g'.func = g.func
  isEdge : ∀ e, g.IsEdge e → g'.IsEdge e
  source : ∀ e, g.IsEdge e → g'.source e = g.source e
  target : ∀ e, g.IsEdge e → g'.target e = g.target e
  type : ∀ e, g.IsEdge e → (g'.edge e).type = (g.edge e).type
  hidden : ∀ e, g.IsEdge e → (g.edge e).hidden → (g'.edge e).hidden
  kept : ∀ e, g.IsEdge e → g.Recorded e ∨ edgeIsFastpath (g.edge e) → g'.edge e = g.edge e
  fresh : ∀ e, g'.IsEdge e → ¬ g.IsEdge e → edgeIsFastpath (g'.edge e) ∧
    (g'.edge e).hidden = false ∧ g.internal.Reach (g'.source e) (g'.target e)
  deadEnd : ∀ b, g.outgoing b = [] → g'.outgoing b = []
  registered : ∀ a b, g.findBb a = some b → g'.findBb a = some b
  registers : ∀ a b, g'.findBb a = some b →
    g.findBb a = some b ∨ g.Endpoint b ∧ (g.block b).startAddress = a

variable {g}

theorem recorded_congr {x y : ArmsEdge} (same : x.type = y.type) :
    edgeIsFunctionExit x = edgeIsFunctionExit y := by
  simp only [edgeIsFunctionExit, edgeIsIndirect, edgeIsReturn, edgeIsCall, ArmsEdge.isIndirect,
    ArmsEdge.isReturn, same]

theorem fastpath_congr {x y : ArmsEdge} (same : x.type = y.type) :
    edgeIsFastpath x = edgeIsFastpath y := by
  simp only [edgeIsFastpath, ArmsEdge.isFastpath, same]

theorem fastpath_not_recorded {x : ArmsEdge} (fastpath : edgeIsFastpath x) :
    edgeIsFunctionExit x = false := by
  have type : x.type = .fastpath := by simpa [edgeIsFastpath, ArmsEdge.isFastpath] using fastpath
  simp [edgeIsFunctionExit, edgeIsIndirect, edgeIsReturn, edgeIsCall, ArmsEdge.isIndirect,
    ArmsEdge.isReturn, edgeTypeIsIndirect, type]

theorem exists_outgoing_of_reach {b c : BlockId} (reach : g.internal.Reach b c) (apart : b ≠ c) :
    ∃ e, e ∈ g.outgoing b := by
  obtain ⟨p, walk⟩ := reach
  cases walk with
  | nil => exact absurd rfl apart
  | cons usable _ => exact ⟨_, usable.1⟩

namespace Simplifies

theorem refl (g : Cfg) : Simplifies g g where
  blockCount := rfl
  start _ := rfl
  functions := rfl
  func := rfl
  isEdge _ := id
  source _ _ := rfl
  target _ _ := rfl
  type _ _ := rfl
  hidden _ _ := id
  kept _ _ _ := rfl
  fresh _ new old := absurd new old
  deadEnd _ := id
  registered _ _ := id
  registers _ _ := .inl

variable {g g' g'' : Cfg}

theorem usable_iff (simplifies : Simplifies g g') (e : EdgeId) :
    g'.internal.usable e ↔ g.internal.usable e := by
  constructor
  · rintro ⟨isEdge, notRecorded, notFastpath⟩
    by_cases old : g.IsEdge e
    · have type := simplifies.type e old
      refine ⟨old, ?_, ?_⟩
      · rwa [Recorded, ← recorded_congr type]
      · rwa [← fastpath_congr type]
    · simp [(simplifies.fresh e isEdge old).1] at notFastpath
  · rintro ⟨isEdge, notRecorded, notFastpath⟩
    have type := simplifies.type e isEdge
    refine ⟨simplifies.isEdge e isEdge, ?_, ?_⟩
    · rwa [Recorded, recorded_congr type]
    · rwa [fastpath_congr type]

theorem internal_walk_iff (simplifies : Simplifies g g') {a b : BlockId} {p : List EdgeId} :
    g'.internal.Walk a p b ↔ g.internal.Walk a p b := by
  induction p generalizing a with
  | nil =>
      constructor
      · rintro ⟨⟩
        exact .nil _
      · rintro ⟨⟩
        exact .nil _
  | cons e p ih =>
      constructor
      · intro walk
        cases walk with
        | cons usable rest =>
            have old := (simplifies.usable_iff e).mp usable
            have source : g'.internal.source e = g.internal.source e := simplifies.source e old.1
            have target : g'.internal.target e = g.internal.target e := simplifies.target e old.1
            rw [source]
            exact .cons old (ih.mp (target ▸ rest))
      · intro walk
        cases walk with
        | cons usable rest =>
            have source : g'.internal.source e = g.internal.source e := simplifies.source e usable.1
            have target : g'.internal.target e = g.internal.target e := simplifies.target e usable.1
            rw [← source]
            exact .cons ((simplifies.usable_iff e).mpr usable) (ih.mpr (target ▸ rest))

theorem internal_reach_iff (simplifies : Simplifies g g') {a b : BlockId} :
    g'.internal.Reach a b ↔ g.internal.Reach a b := by
  simp only [Digraph.Reach, simplifies.internal_walk_iff]

theorem mem_outgoing (simplifies : Simplifies g g') {b : BlockId} {e : EdgeId}
    (member : e ∈ g.outgoing b) : e ∈ g'.outgoing b := by
  have isEdge := isEdge_of_mem member
  have := simplifies.isEdge e isEdge
  rwa [IsEdge, simplifies.source e isEdge, source_of_mem member] at this

theorem recorded_iff (simplifies : Simplifies g g') (e : EdgeId) :
    g'.IsEdge e ∧ g'.Recorded e ↔ g.IsEdge e ∧ g.Recorded e := by
  constructor
  · rintro ⟨isEdge, recorded⟩
    by_cases old : g.IsEdge e
    · exact ⟨old, by rwa [Recorded, ← recorded_congr (simplifies.type e old)]⟩
    · have fastpath := (simplifies.fresh e isEdge old).1
      simp [Recorded, fastpath_not_recorded fastpath] at recorded
  · rintro ⟨isEdge, recorded⟩
    exact ⟨simplifies.isEdge e isEdge, by
      rwa [Recorded, recorded_congr (simplifies.type e isEdge)]⟩

theorem isExit_iff (simplifies : Simplifies g g') {b : BlockId} : g'.IsExit b ↔ g.IsExit b := by
  constructor
  · rintro (none | ⟨e, member, recorded⟩)
    · exact .inl (List.eq_nil_iff_forall_not_mem.mpr fun e member =>
        List.eq_nil_iff_forall_not_mem.mp none e (simplifies.mem_outgoing member))
    · obtain ⟨isEdge, recorded⟩ := (simplifies.recorded_iff e).mp ⟨isEdge_of_mem member, recorded⟩
      refine .inr ⟨e, ?_, recorded⟩
      rw [← source_of_mem member, simplifies.source e isEdge]
      exact isEdge
  · rintro (none | ⟨e, member, recorded⟩)
    · exact .inl (simplifies.deadEnd b none)
    · have recorded' := (simplifies.recorded_iff e).mpr ⟨isEdge_of_mem member, recorded⟩
      exact .inr ⟨e, simplifies.mem_outgoing member, recorded'.2⟩

theorem inOrdinaryFunction_iff (simplifies : Simplifies g g') {b : BlockId} :
    g'.InOrdinaryFunction b ↔ g.InOrdinaryFunction b := by
  simp only [InOrdinaryFunction, Ordinary, simplifies.functions, simplifies.func]

theorem shortcut_iff (simplifies : Simplifies g g') {b c : BlockId} :
    g'.Shortcut b c ↔ g.Shortcut b c := by
  constructor
  · intro shortcut
    exact ⟨simplifies.inOrdinaryFunction_iff.mp shortcut.ordinary,
      simplifies.internal_reach_iff.mp shortcut.reach, shortcut.apart,
      simplifies.isExit_iff.mp shortcut.exit⟩
  · intro shortcut
    exact ⟨simplifies.inOrdinaryFunction_iff.mpr shortcut.ordinary,
      simplifies.internal_reach_iff.mpr shortcut.reach, shortcut.apart,
      simplifies.isExit_iff.mpr shortcut.exit⟩

theorem endpoint_iff (simplifies : Simplifies g g') {b : BlockId} : g'.Endpoint b ↔ g.Endpoint b := by
  simp only [Endpoint, simplifies.shortcut_iff]

theorem unambiguous (simplifies : Simplifies g g') (unambiguous : g.Unambiguous) :
    g'.Unambiguous := by
  intro b c endpoint clash
  rw [simplifies.endpoint_iff] at endpoint
  rw [simplifies.endpoint_iff, simplifies.start, simplifies.start] at clash
  rcases clash with found | shared
  · exact unambiguous b c endpoint (simplifies.registers _ c found)
  · exact unambiguous b c endpoint (.inr shared)

theorem trans (first : Simplifies g g') (second : Simplifies g' g'') : Simplifies g g'' where
  blockCount := second.blockCount.trans first.blockCount
  start b := (second.start b).trans (first.start b)
  functions := second.functions.trans first.functions
  func := second.func.trans first.func
  isEdge e isEdge := second.isEdge e (first.isEdge e isEdge)
  source e isEdge := (second.source e (first.isEdge e isEdge)).trans (first.source e isEdge)
  target e isEdge := (second.target e (first.isEdge e isEdge)).trans (first.target e isEdge)
  type e isEdge := (second.type e (first.isEdge e isEdge)).trans (first.type e isEdge)
  hidden e isEdge hidden := second.hidden e (first.isEdge e isEdge) (first.hidden e isEdge hidden)
  kept e isEdge kind := by
    have kept := first.kept e isEdge kind
    rw [← kept]
    exact second.kept e (first.isEdge e isEdge) (by rwa [Recorded, kept])
  fresh e new notOld := by
    by_cases between : g'.IsEdge e
    · obtain ⟨fastpath, visible, reach⟩ := first.fresh e between notOld
      have kept := second.kept e between (.inr fastpath)
      rw [Cfg.source, Cfg.target, kept]
      exact ⟨fastpath, visible, reach⟩
    · obtain ⟨fastpath, visible, reach⟩ := second.fresh e new between
      exact ⟨fastpath, visible, first.internal_reach_iff.mp reach⟩
  deadEnd b none := second.deadEnd b (first.deadEnd b none)
  registered a b found := second.registered a b (first.registered a b found)
  registers a b found := by
    rcases second.registers a b found with found | ⟨endpoint, start⟩
    · exact first.registers a b found
    · exact .inr ⟨first.endpoint_iff.mp endpoint, (first.start b).symm.trans start⟩

theorem setHidden {e : EdgeId} (usable : g.internal.usable e) :
    Simplifies g (g.setHidden e true) := by
  have other {x : EdgeId} (differs : x ≠ e) : (g.setHidden e true).edge x = g.edge x := by
    rw [setHidden_edge, Function.update_of_ne differs]
  have same : (g.setHidden e true).edge e = (g.edge e).setHidden true := by
    rw [setHidden_edge, Function.update_self]
  have source (x : EdgeId) : (g.setHidden e true).source x = g.source x := updateEdge_source e x
  have target (x : EdgeId) : (g.setHidden e true).target x = g.target x := updateEdge_target e x
  have edges (x : EdgeId) : (g.setHidden e true).IsEdge x ↔ g.IsEdge x := by
    rw [IsEdge, source, IsEdge]
    rfl
  refine ⟨rfl, fun _ => rfl, rfl, rfl, fun x => (edges x).mpr, fun x _ => source x,
    fun x _ => target x, fun x _ => setHidden_type e x true, fun x _ hidden => ?_, fun x _ kind => ?_,
    fun x new old => absurd ((edges x).mp new) old, fun _ => id, fun _ _ => id, fun _ _ => .inl⟩
  · rcases eq_or_ne x e with rfl | differs
    · rw [same]
      rfl
    · rwa [other differs]
  · apply other
    rintro rfl
    cases kind with
    | inl recorded => exact usable.2.1 recorded
    | inr fastpath => simp [usable.2.2] at fastpath

theorem storeBb {b : BlockId} (endpoint : g.Endpoint b) (allocated : b < g.blockCount)
    (missing : g.findBb (g.block b).startAddress = none) : Simplifies g (g.storeBb b) := by
  obtain ⟨block, edge, blockCount, -, functions, func⟩ := storeBb_same (g := g) b
  have edges (e : EdgeId) : (g.storeBb b).IsEdge e ↔ g.IsEdge e := by
    simp only [IsEdge, Cfg.outgoing, Cfg.source, block, edge]
  have other {a : Address} (differs : a ≠ (g.block b).startAddress) :
      (g.storeBb b).findBb a = g.findBb a := by
    rw [findBb, storeBb_start2bb allocated, Function.update_of_ne differs]
    rfl
  refine ⟨blockCount, fun c => by rw [block], functions, func, fun e => (edges e).mpr,
    fun e _ => by rw [Cfg.source, edge], fun e _ => by rw [Cfg.target, edge],
    fun e _ => by rw [edge], fun e _ hidden => by rwa [edge], fun e _ _ => by rw [edge],
    fun e new old => absurd ((edges e).mp new) old, fun c none => by rwa [Cfg.outgoing, block],
    fun a c found => ?_, fun a c found => ?_⟩
  · rwa [other]
    rintro rfl
    simp [missing] at found
  · rcases eq_or_ne a (g.block b).startAddress with rfl | differs
    · rw [findBb_storeBb allocated, Option.some.injEq] at found
      exact .inr ⟨found ▸ endpoint, by rw [found]⟩
    · rw [other differs] at found
      exact .inl found

theorem link {bb cc : BlockId} (bound : bb < g.blockCount ∧ cc < g.blockCount)
    (reach : g.internal.Reach bb cc) (apart : bb ≠ cc) :
    Simplifies g ((g.link bb cc).setType g.edgeCount .fastpath) ∧
      ((g.link bb cc).setType g.edgeCount .fastpath).IsEdge g.edgeCount ∧
      ((g.link bb cc).setType g.edgeCount .fastpath).edge g.edgeCount =
        { source := bb, target := cc, type := .fastpath } := by
  have new : ((g.link bb cc).setType g.edgeCount .fastpath).edge g.edgeCount =
      { source := bb, target := cc, type := .fastpath } := by
    rw [setType_edge, Function.update_self, link_edge bound, Function.update_self]
    rfl
  have old {e : EdgeId} (isEdge : g.IsEdge e) :
      ((g.link bb cc).setType g.edgeCount .fastpath).edge e = g.edge e := by
    have differs : e ≠ g.edgeCount := isEdge.lt.ne
    rw [setType_edge, Function.update_of_ne differs, link_edge bound, Function.update_of_ne differs]
  have member {b : BlockId} {e : EdgeId} :
      e ∈ ((g.link bb cc).setType g.edgeCount .fastpath).outgoing b ↔
        b = bb ∧ e = g.edgeCount ∨ e ∈ g.outgoing b := by
    rw [← mem_outgoing_link bound]
    rfl
  have newEdge : ((g.link bb cc).setType g.edgeCount .fastpath).IsEdge g.edgeCount := by
    rw [IsEdge, member, Cfg.source, new]
    exact .inl ⟨rfl, rfl⟩
  obtain ⟨blockCount, functions, func⟩ := link_same bound
  refine ⟨⟨blockCount, fun b => ?_, functions, func, fun e isEdge => ?_, fun e isEdge => ?_,
    fun e isEdge => ?_, fun e isEdge => ?_, fun e isEdge hidden => ?_, fun e isEdge _ => old isEdge,
    fun e isEdge notOld => ?_, fun b none => ?_, fun a b found => ?_, fun a b found => ?_⟩, newEdge,
    new⟩
  · rw [setType_block, link_block bound, linkBlocks_apply]
  · rw [IsEdge, member, Cfg.source, old isEdge]
    exact .inr isEdge
  · rw [Cfg.source, old isEdge]
  · rw [Cfg.target, old isEdge]
  · rw [old isEdge]
  · rwa [old isEdge]
  · obtain ⟨-, rfl⟩ | older := member.mp isEdge
    · rw [Cfg.source, Cfg.target, new]
      exact ⟨rfl, rfl, reach⟩
    · exact absurd (isEdge_of_mem older) notOld
  · -- a block with a fastpath to another one has an internal edge already
    refine (link_outgoing_of_ne ?_).trans none
    rintro rfl
    obtain ⟨e, member⟩ := exists_outgoing_of_reach reach apart
    simp [none] at member
  · exact (congrFun (link_start2bb bb cc) a).trans found
  · exact .inl ((congrFun (link_start2bb bb cc) a).symm.trans found)

end Simplifies

theorem Registered.mono {g' : Cfg} {b : BlockId} (simplifies : Simplifies g g')
    (registered : g.Registered b) : g'.Registered b := by
  rw [Registered, simplifies.start]
  exact simplifies.registered _ b registered

theorem storeMissingBb_spec {b : BlockId} (endpoint : g.Endpoint b) (allocated : b < g.blockCount) :
    Simplifies g (g.storeMissingBb b) ∧ ((g.storeMissingBb b).Registered b ∨ ¬ g.Unambiguous) := by
  unfold storeMissingBb
  cases found : g.findBb (g.block b).startAddress with
  | none =>
      refine ⟨.storeBb endpoint allocated found, .inl ?_⟩
      simp only [Option.isNone_none, if_true]
      rw [Registered, (storeBb_same b).1]
      exact findBb_storeBb allocated
  | some c =>
      refine ⟨.refl g, ?_⟩
      by_cases same : c = b
      · exact .inl (by rw [← same] at found ⊢; exact found)
      · exact .inr fun unambiguous => same (unambiguous b c endpoint (.inl found))

variable (g) in
def HasFastpath (bb cc : BlockId) : Prop :=
  ∃ e, g.IsEdge e ∧ edgeIsFastpath (g.edge e) ∧ (g.edge e).hidden = false ∧
    g.source e = bb ∧ g.target e = cc

theorem HasFastpath.mono {g' : Cfg} {bb cc : BlockId} (simplifies : Simplifies g g')
    (has : g.HasFastpath bb cc) : g'.HasFastpath bb cc := by
  obtain ⟨e, isEdge, fastpath, visible, rfl, rfl⟩ := has
  refine ⟨e, simplifies.isEdge e isEdge, ?_, ?_, simplifies.source e isEdge,
    simplifies.target e isEdge⟩
  · rwa [simplifies.kept e isEdge (.inr fastpath)]
  · rwa [simplifies.kept e isEdge (.inr fastpath)]

theorem Shortcut.allocated {bb cc : BlockId} (shortcut : g.Shortcut bb cc) :
    bb < g.blockCount ∧ cc < g.blockCount := by
  obtain ⟨entry, -, -, member⟩ := shortcut.ordinary
  have source := g.basicBlocks_lt entry.2 bb member
  exact ⟨source, shortcut.reach.closed (P := (· < g.blockCount))
    (fun e (usable : g.internal.usable e) _ => (g.endpoint_lt e usable.1.lt).2) source⟩

variable (g) in
/-- A fastpath between two blocks that are found at their addresses. -/
structure Joined (bb cc : BlockId) : Prop where
  fastpath : g.HasFastpath bb cc
  source : g.Registered bb
  target : g.Registered cc

theorem Joined.mono {g' : Cfg} {bb cc : BlockId} (simplifies : Simplifies g g')
    (joined : g.Joined bb cc) : g'.Joined bb cc :=
  ⟨joined.fastpath.mono simplifies, joined.source.mono simplifies, joined.target.mono simplifies⟩

theorem createFastpath_spec {bb cc : BlockId} (shortcut : g.Shortcut bb cc) :
    Returns (g.createFastpath bb cc) (¬ g.Unambiguous) fun g' => Simplifies g g' ∧ g'.Joined bb cc := by
  obtain ⟨first, source⟩ := storeMissingBb_spec ⟨cc, .inl shortcut⟩ shortcut.allocated.1
  have shortcut₁ := first.shortcut_iff.mpr shortcut
  obtain ⟨second, target⟩ := storeMissingBb_spec ⟨bb, .inr shortcut₁⟩ shortcut₁.allocated.2
  have shortcut₂ := second.shortcut_iff.mpr shortcut₁
  obtain ⟨linked, isEdge, new⟩ := Simplifies.link shortcut₂.allocated shortcut₂.reach shortcut.apart
  have stored := first.trans second
  simp only [createFastpath, createAndAddBlockEdge]
  split_ifs with foundSource foundTarget
  · refine .of_some ⟨stored.trans linked, ⟨_, isEdge, ?_, ?_, ?_, ?_⟩, ?_, ?_⟩
    · rw [new]
      rfl
    · rw [new]
    · rw [Cfg.source, new]
    · rw [Cfg.target, new]
    · exact Registered.mono (second.trans linked) foundSource
    · exact Registered.mono linked foundTarget
  · exact .of_none fun unambiguous =>
      (target.resolve_left foundTarget) (first.unambiguous unambiguous)
  · exact .of_none (source.resolve_left foundSource)

/-! ## The search from one block -/

theorem createFastpath_outgoing {g' : Cfg} {bb cc b : BlockId}
    (created : g.createFastpath bb cc = some g') (other : b ≠ bb) : g'.outgoing b = g.outgoing b := by
  have stored (h : Cfg) (c : BlockId) : (h.storeMissingBb c).block = h.block := by
    unfold storeMissingBb
    split_ifs
    · exact (storeBb_same c).1
    · rfl
  simp only [createFastpath, createAndAddBlockEdge, Option.map_eq_some_iff] at created
  obtain ⟨⟨linked, e⟩, added, rfl⟩ := created
  split_ifs at added
  simp only [Option.some.injEq, Prod.mk.injEq] at added
  obtain ⟨rfl, rfl⟩ := added
  calc
    (((g.storeMissingBb bb).storeMissingBb cc).link bb cc).outgoing b
      = ((g.storeMissingBb bb).storeMissingBb cc).outgoing b := link_outgoing_of_ne other
    _ = g.outgoing b := by rw [outgoing, outgoing, stored, stored]

theorem scanEdge_outgoing {s s' : Collapse} {w w' : Worklist BlockId} {bb cc : BlockId} {e : EdgeId}
    (scanned : scanEdge bb cc (s, w) e = some (s', w')) :
    s'.cfg.outgoing cc = s.cfg.outgoing cc := by
  simp only [scanEdge, Collapse.recordExit] at scanned
  split_ifs at scanned with fastpath recorded known same
  · obtain ⟨rfl, -⟩ := by simpa using scanned
    rfl
  · obtain ⟨rfl, -⟩ := by simpa using scanned
    rfl
  · obtain ⟨rfl, -⟩ := by simpa using scanned
    rfl
  · simp only [Option.map_map, Option.map_eq_some_iff, Function.comp_apply, Prod.mk.injEq] at scanned
    obtain ⟨cfg, created, rfl, -⟩ := scanned
    exact createFastpath_outgoing created (Ne.symm same)
  · obtain ⟨rfl, -⟩ := by simpa using scanned
    rfl

structure Collapsing (g : Cfg) (bb : BlockId) (s : Collapse) (seen : BlockId → Bool) : Prop where
  ordinary : g.InOrdinaryFunction bb
  simplifies : Simplifies g s.cfg
  reach : ∀ c, seen c → g.internal.Reach bb c
  seenStart : seen bb
  exits : ∀ c ∈ s.exits, c ≠ bb → s.cfg.Joined bb c

def Handled (g : Cfg) (c : BlockId) (s : Collapse) (seen : BlockId → Bool) (e : EdgeId) : Prop :=
  (g.Recorded e → c ∈ s.exits) ∧
    (g.internal.usable e → (s.cfg.edge e).hidden ∧ seen (g.target e))

structure Progress (g : Cfg) (s s' : Collapse) (w w' : Worklist BlockId) : Prop where
  simplifies : Simplifies s.cfg s'.cfg
  exits : s.exits ⊆ s'.exits
  worklist : w.Extends w'
  cost : w'.cost (Finset.range g.blockCount) ≤ w.cost (Finset.range g.blockCount)

theorem Progress.refl (g : Cfg) (s : Collapse) (w : Worklist BlockId) : Progress g s s w w :=
  ⟨.refl _, fun _ => id, .refl w, le_rfl⟩

theorem Progress.trans {a b c : Collapse} {u v w : Worklist BlockId} (first : Progress g a b u v)
    (second : Progress g b c v w) : Progress g a c u w :=
  ⟨first.simplifies.trans second.simplifies, List.Subset.trans first.exits second.exits,
    first.worklist.trans second.worklist, second.cost.trans first.cost⟩

theorem Handled.mono {c : BlockId} {s s' : Collapse} {w w' : Worklist BlockId} {e : EdgeId}
    (handled : Handled g c s w.seen e) (simplifies : Simplifies g s.cfg)
    (progress : Progress g s s' w w') : Handled g c s' w'.seen e := by
  refine ⟨fun recorded => progress.exits (handled.1 recorded), fun usable => ?_⟩
  obtain ⟨hidden, seen⟩ := handled.2 usable
  exact ⟨progress.simplifies.hidden e (simplifies.isEdge e usable.1) hidden,
    progress.worklist.seen _ seen⟩

theorem recordExit_spec {s : Collapse} {seen : BlockId → Bool} {bb cc : BlockId}
    (collapsing : Collapsing g bb s seen) (seenCc : seen cc) (exit : g.IsExit cc) :
    Returns (s.recordExit bb cc) (¬ g.Unambiguous) fun s' => Collapsing g bb s' seen ∧
      Simplifies s.cfg s'.cfg ∧ s.exits ⊆ s'.exits ∧ cc ∈ s'.exits := by
  unfold Collapse.recordExit
  split_ifs with known same
  · exact .of_some ⟨collapsing, .refl _, fun _ => id, known⟩
  · refine .of_some ⟨{ collapsing with exits := fun c member other => ?_ }, .refl _,
      fun _ => List.mem_append_left _, by simp⟩
    cases List.mem_append.mp member with
    | inl old => exact collapsing.exits c old other
    | inr new => exact absurd ((List.mem_singleton.mp new).trans same.symm) other
  · have shortcut : s.cfg.Shortcut bb cc := collapsing.simplifies.shortcut_iff.mpr
      ⟨collapsing.ordinary, collapsing.reach cc seenCc, same, exit⟩
    refine ((createFastpath_spec shortcut).imp (mt collapsing.simplifies.unambiguous)
      fun _ => id).map fun cfg ⟨step, joined⟩ => ?_
    refine ⟨{ collapsing with
      simplifies := collapsing.simplifies.trans step
      exits := fun c member other => ?_ }, step, fun _ => List.mem_append_left _, by simp⟩
    cases List.mem_append.mp member with
    | inl old => exact (collapsing.exits c old other).mono step
    | inr new => rwa [List.mem_singleton.mp new]

theorem scanEdge_spec {s : Collapse} {w : Worklist BlockId} {bb cc : BlockId} {e : EdgeId}
    (collapsing : Collapsing g bb s w.seen) (seenCc : w.seen cc)
    (member : e ∈ s.cfg.outgoing cc) :
    Returns (scanEdge bb cc (s, w) e) (¬ g.Unambiguous) fun (s', w') => Collapsing g bb s' w'.seen ∧
      Progress g s s' w w' ∧ (g.IsEdge e → Handled g cc s' w'.seen e) := by
  have simplifies := collapsing.simplifies
  simp only [scanEdge]
  split_ifs with fastpath recorded
  · refine .of_some ⟨collapsing, .refl g s w, fun isEdge => ?_⟩
    rw [fastpath_congr (simplifies.type e isEdge)] at fastpath
    refine ⟨fun recorded => ?_, fun usable => ?_⟩
    · simp [Recorded, fastpath_not_recorded fastpath] at recorded
    · simp [usable.2.2] at fastpath
  · have exit : g.IsExit cc := simplifies.isExit_iff.mp (.inr ⟨e, member, recorded⟩)
    refine (recordExit_spec collapsing seenCc exit).map fun s' ⟨collapsing', step, exits, added⟩ => ?_
    refine ⟨collapsing', ⟨step, exits, .refl w, le_rfl⟩, fun isEdge => ?_⟩
    rw [recorded_congr (simplifies.type e isEdge)] at recorded
    exact ⟨fun _ => added, fun usable => absurd recorded usable.2.1⟩
  · have usable : s.cfg.internal.usable e :=
      ⟨isEdge_of_mem member, by simpa using recorded, by simpa using fastpath⟩
    have old := (simplifies.usable_iff e).mp usable
    have source := source_of_mem member
    have target := simplifies.target e old.1
    have step := Simplifies.setHidden usable
    rw [simplifies.source e old.1] at source
    refine .of_some ⟨⟨collapsing.ordinary, simplifies.trans step, fun c seen => ?_,
      (w.extends_schedule _).seen bb collapsing.seenStart,
      fun c member other => (collapsing.exits c member other).mono step⟩,
      ⟨step, fun _ => id, w.extends_schedule _, w.cost_schedule_le ?_⟩, fun _ => ⟨?_, fun _ => ?_⟩⟩
    · rcases Worklist.seen_schedule seen with rfl | seen
      · rw [target]
        exact (source ▸ collapsing.reach cc seenCc).trans (.edge old)
      · exact collapsing.reach c seen
    · rw [target]
      exact Finset.mem_range.mpr (g.endpoint_lt e old.1.lt).2
    · exact fun recorded => absurd recorded old.2.1
    · refine ⟨?_, target ▸ w.schedule_seen _⟩
      rw [setHidden_edge, Function.update_self]
      rfl

theorem scanEdges_spec {bb cc : BlockId} {s : Collapse} {w : Worklist BlockId}
    (collapsing : Collapsing g bb s w.seen) (seenCc : w.seen cc) :
    Returns ((s.cfg.outgoing cc).foldlM (scanEdge bb cc) (s, w)) (¬ g.Unambiguous) fun (s', w') =>
      Collapsing g bb s' w'.seen ∧ Progress g s s' w w' ∧
        ∀ e ∈ s.cfg.outgoing cc, g.IsEdge e → Handled g cc s' w'.seen e := by
  let invariant : Collapse × Worklist BlockId → Prop := fun (s', w') =>
    Collapsing g bb s' w'.seen ∧ Progress g s s' w w'
  let settled (e : EdgeId) : Collapse × Worklist BlockId → Prop := fun (s', w') =>
    Simplifies g s'.cfg ∧ (g.IsEdge e → Handled g cc s' w'.seen e)
  have step : ∀ e ∈ s.cfg.outgoing cc, ∀ a, invariant a → Returns (scanEdge bb cc a e)
      (¬ g.Unambiguous) fun a' => invariant a' ∧ settled e a' ∧ ∀ y, settled y a → settled y a' := by
    intro e member (s₁, w₁) ⟨collapsing₁, progress₁⟩
    refine (scanEdge_spec collapsing₁ (progress₁.worklist.seen cc seenCc)
      (progress₁.simplifies.mem_outgoing member)).imp id
      fun (s', w') ⟨collapsing', progress, handled⟩ => ?_
    exact ⟨⟨collapsing', progress₁.trans progress⟩, ⟨collapsing'.simplifies, handled⟩,
      fun y before => ⟨collapsing'.simplifies,
        fun isEdge => (before.2 isEdge).mono before.1 progress⟩⟩
  exact (Returns.foldlM invariant settled step ⟨collapsing, .refl g s w⟩).imp id
    fun (s', w') ⟨⟨collapsing', progress⟩, handled, _⟩ =>
      ⟨collapsing', progress, fun e member => (handled e member).2⟩

structure Settled (g : Cfg) (c : BlockId) (s : Collapse) (seen : BlockId → Bool) : Prop where
  simplifies : Simplifies g s.cfg
  handled : ∀ e ∈ g.outgoing c, Handled g c s seen e
  exit : g.IsExit c → c ∈ s.exits

theorem Settled.mono {c : BlockId} {s s' : Collapse} {w w' : Worklist BlockId}
    (settled : Settled g c s w.seen) (progress : Progress g s s' w w') : Settled g c s' w'.seen where
  simplifies := settled.simplifies.trans progress.simplifies
  handled e member := (settled.handled e member).mono settled.simplifies progress
  exit isExit := progress.exits (settled.exit isExit)

theorem searchBlock_spec {s : Collapse} {w : Worklist BlockId} {bb cc : BlockId}
    (collapsing : Collapsing g bb s w.seen) (seenCc : w.seen cc) :
    Returns (searchBlock bb cc (s, w)) (¬ g.Unambiguous) fun (s', w') =>
      Collapsing g bb s' w'.seen ∧ Progress g s s' w w' ∧ Settled g cc s' w'.seen := by
  have deadEnd : Returns (if (s.cfg.outgoing cc).length = 0 then s.recordExit bb cc else some s)
      (¬ g.Unambiguous) fun s₁ => Collapsing g bb s₁ w.seen ∧ Progress g s s₁ w w ∧
        (g.outgoing cc = [] → cc ∈ s₁.exits) := by
    split_ifs with none
    · have exit : g.IsExit cc := collapsing.simplifies.isExit_iff.mp
        (.inl (List.eq_nil_of_length_eq_zero none))
      exact (recordExit_spec collapsing seenCc exit).imp id
        fun s₁ ⟨collapsing₁, step, exits, added⟩ =>
          ⟨collapsing₁, ⟨step, exits, .refl w, le_rfl⟩, fun _ => added⟩
    · refine .of_some ⟨collapsing, .refl g s w, fun noEdges => absurd ?_ none⟩
      rw [collapsing.simplifies.deadEnd cc noEdges]
      rfl
  refine deadEnd.bind fun s₁ ⟨collapsing₁, progress₁, recorded₁⟩ => ?_
  refine (scanEdges_spec collapsing₁ seenCc).imp id
    fun (s', w') ⟨collapsing', progress, handled⟩ => ?_
  have handledOld : ∀ e ∈ g.outgoing cc, Handled g cc s' w'.seen e := fun e member =>
    handled e (collapsing₁.simplifies.mem_outgoing member) (isEdge_of_mem member)
  refine ⟨collapsing', progress₁.trans progress, collapsing'.simplifies, handledOld, fun exit => ?_⟩
  rcases exit with none | ⟨e, member, recorded⟩
  · exact progress.exits (recorded₁ none)
  · exact (handledOld e member).1 recorded

variable (g) in
/-- The block `bb` of `g` was collapsed: everything internal behind it is hidden, and a fastpath
leads to every other exit block behind it. -/
structure Collapsed (g' : Cfg) (bb : BlockId) : Prop where
  hidden : ∀ e, g.internal.usable e → g.internal.Reach bb (g.source e) → (g'.edge e).hidden
  joined : ∀ c, g.Shortcut bb c → g'.Joined bb c

theorem collapseBlock_spec {bb : BlockId} (ordinary : g.InOrdinaryFunction bb) :
    Returns (g.collapseBlock bb) (¬ g.Unambiguous) fun g' => Simplifies g g' ∧ g.Collapsed g' bb := by
  have start : Collapsing g bb { cfg := g, exits := [] } (Worklist.start bb).seen := by
    refine ⟨ordinary, .refl g, fun c seen => ?_, by simp [Worklist.start], by simp⟩
    have same : c = bb := by simpa [Worklist.start] using seen
    rw [same]
    exact .refl bb
  have cheap : (Worklist.start bb).cost (Finset.range g.blockCount) < g.blockCount + 1 := by
    obtain ⟨entry, -, -, member⟩ := ordinary
    have := Worklist.cost_start_le (Finset.mem_range.mpr (g.basicBlocks_lt entry.2 bb member))
    rw [Finset.card_range] at this
    omega
  have visit (c : BlockId) (s : Collapse) (w : Worklist BlockId) (seen : w.seen c)
      (collapsing : Collapsing g bb s w.seen) :
      Returns (searchBlock bb c (s, w)) (¬ g.Unambiguous) fun (s', w') =>
        Collapsing g bb s' w'.seen ∧ w.Extends w' ∧
          w'.cost (Finset.range g.blockCount) ≤ w.cost (Finset.range g.blockCount) ∧
          Settled g c s' w'.seen ∧ ∀ y, Settled g y s w.seen → Settled g y s' w'.seen := by
    refine (searchBlock_spec collapsing seen).imp id ?_
    rintro ⟨s', w'⟩ ⟨collapsing', progress, settled⟩
    exact ⟨collapsing', progress.worklist, progress.cost, settled, fun y before => before.mono progress⟩
  refine (Worklist.search_settles (Collapsing g bb) (Settled g) visit start
    (by simp [Worklist.start]) (fun c seen => .inl (by simpa [Worklist.start] using seen)) cheap).map ?_
  rintro ⟨s', w'⟩ ⟨collapsing, -, settled⟩
  have closed {c : BlockId} (reach : g.internal.Reach bb c) : w'.seen c :=
    reach.closed (P := fun c => w'.seen c)
      (fun e (usable : g.internal.usable e) seen =>
        (((settled _ seen).handled e usable.1).2 usable).2)
      collapsing.seenStart
  refine ⟨collapsing.simplifies, fun e usable reach => ?_, fun c shortcut => ?_⟩
  · exact (((settled _ (closed reach)).handled e usable.1).2 usable).1
  · exact collapsing.exits c ((settled c (closed shortcut.reach)).exit shortcut.exit)
      shortcut.apart.symm

/-! ## All blocks of all functions -/

theorem Collapsed.mono {g' g'' : Cfg} {bb : BlockId} (collapsed : g.Collapsed g' bb)
    (before : Simplifies g g') (after : Simplifies g' g'') : g.Collapsed g'' bb where
  hidden e usable reach :=
    after.hidden e (before.isEdge e usable.1) (collapsed.hidden e usable reach)
  joined c shortcut := (collapsed.joined c shortcut).mono after

theorem Collapsed.of_simplified {g' g'' : Cfg} {bb : BlockId} (before : Simplifies g g')
    (collapsed : g'.Collapsed g'' bb) : g.Collapsed g'' bb where
  hidden e usable reach := by
    apply collapsed.hidden e ((before.usable_iff e).mpr usable)
    rw [before.source e usable.1]
    exact before.internal_reach_iff.mpr reach
  joined c shortcut := collapsed.joined c (before.shortcut_iff.mpr shortcut)

theorem Collapsed.fastpath {g' : Cfg} {bb : BlockId} (collapsed : g.Collapsed g' bb)
    (ordinary : g.InOrdinaryFunction bb) {y : EdgeId} (isEdge : g.IsEdge y) (recorded : g.Recorded y)
    (reach : g.internal.Reach bb (g.source y)) :
    g.source y = bb ∨ g'.HasFastpath bb (g.source y) := by
  by_cases same : g.source y = bb
  · exact .inl same
  · exact .inr (collapsed.joined _
      ⟨ordinary, reach, Ne.symm same, .inr ⟨y, isEdge, recorded⟩⟩).fastpath

theorem collapseBlocks_spec {g₁ : Cfg} (before : Simplifies g g₁) {blocks : List BlockId}
    (ordinary : ∀ b ∈ blocks, g.InOrdinaryFunction b) :
    Returns (blocks.foldlM collapseBlock g₁) (¬ g.Unambiguous) fun g' =>
      (Simplifies g g' ∧ Simplifies g₁ g') ∧ ∀ b ∈ blocks, g.Collapsed g' b := by
  refine (Returns.foldlM (fun g' => Simplifies g g' ∧ Simplifies g₁ g')
    (fun b g' => Simplifies g g' ∧ g.Collapsed g' b)
    (fun b member g₂ ⟨before₂, since⟩ => ?_) ⟨before, .refl g₁⟩).imp id
      fun g' ⟨simplifies, collapsed, _⟩ => ⟨simplifies, fun b member => (collapsed b member).2⟩
  refine (collapseBlock_spec (before₂.inOrdinaryFunction_iff.mpr (ordinary b member))).imp
    (mt before₂.unambiguous) fun g' ⟨step, collapsed⟩ => ?_
  have after := before₂.trans step
  exact ⟨⟨after, since.trans step⟩, ⟨after, .of_simplified before₂ collapsed⟩,
    fun y ⟨beforeY, collapsedY⟩ => ⟨after, collapsedY.mono beforeY step⟩⟩

theorem collapseFunction_spec {g₁ : Cfg} (before : Simplifies g g₁) {entry : Address × FuncId}
    (listed : entry ∈ g.functions) :
    Returns (g₁.collapseFunction entry.2) (¬ g.Unambiguous) fun g' =>
      (Simplifies g g' ∧ Simplifies g₁ g') ∧
        (g.Ordinary entry.2 → ∀ b ∈ (g.func entry.2).basicBlocks, g.Collapsed g' b) := by
  unfold collapseFunction
  rw [before.func]
  split_ifs with skipped
  · refine .of_some ⟨⟨before, .refl g₁⟩, fun ⟨notPlt, notDummy⟩ => ?_⟩
    simp [notPlt, notDummy] at skipped
  · have ordinary : g.Ordinary entry.2 := by simpa [Ordinary] using skipped
    refine (collapseBlocks_spec before fun b member =>
      ⟨entry, listed, ordinary, List.mem_reverse.mp member⟩).imp id fun g' ⟨steps, collapsed⟩ => ?_
    exact ⟨steps, fun _ b member => collapsed b (List.mem_reverse.mpr member)⟩

theorem simplifyCfg_spec (g : Cfg) : Returns g.simplifyCfg (¬ g.Unambiguous) fun g' =>
    Simplifies g g' ∧ ∀ b, g.InOrdinaryFunction b → g.Collapsed g' b := by
  refine (Returns.foldlM (Simplifies g) (fun entry g' => Simplifies g g' ∧
    (g.Ordinary entry.2 → ∀ b ∈ (g.func entry.2).basicBlocks, g.Collapsed g' b))
    (fun entry listed g₁ before => ?_) (.refl g)).imp id fun g' ⟨simplifies, collapsed, _⟩ =>
      ⟨simplifies, fun b ⟨entry, member, ordinary, inside⟩ =>
        (collapsed entry member).2 ordinary b inside⟩
  refine (collapseFunction_spec before listed).imp id fun g' ⟨⟨after, step⟩, collapsed⟩ => ?_
  exact ⟨after, ⟨after, collapsed⟩, fun y ⟨beforeY, collapsedY⟩ => ⟨after, fun ordinary b inside =>
    (collapsedY ordinary b inside).mono beforeY step⟩⟩

/-- The assertions on the blocks of a fastpath hold exactly if its end points are the only ones at
their addresses. -/
theorem simplifyCfg_ne_none_iff (g : Cfg) : g.simplifyCfg ≠ none ↔ g.Unambiguous := by
  constructor
  · intro completes
    obtain ⟨g', out⟩ := Option.ne_none_iff_exists'.mp completes
    obtain ⟨simplifies, collapsed⟩ := (simplifyCfg_spec g).elim_some out
    have registered {b : BlockId} : g.Endpoint b → g'.Registered b
      | ⟨c, .inl shortcut⟩ => ((collapsed b shortcut.ordinary).joined c shortcut).source
      | ⟨c, .inr shortcut⟩ => ((collapsed c shortcut.ordinary).joined b shortcut).target
    intro b c endpoint clash
    have foundB := registered endpoint
    rw [Registered, simplifies.start] at foundB
    rcases clash with found | ⟨endpointC, same⟩
    · have := simplifies.registered _ c found
      exact Option.some.inj (this.symm.trans foundB)
    · have foundC := registered endpointC
      rw [Registered, simplifies.start, same] at foundC
      exact Option.some.inj (foundC.symm.trans foundB)
  · intro unambiguous
    obtain ⟨g', out, -⟩ := (simplifyCfg_spec g).exists_some (not_not_intro unambiguous)
    simp [out]

theorem Endpoint.allocated {b : BlockId} : g.Endpoint b → b < g.blockCount
  | ⟨_, .inl shortcut⟩ => shortcut.allocated.1
  | ⟨_, .inr shortcut⟩ => shortcut.allocated.2

theorem DistinctStarts.unambiguous (distinct : g.DistinctStarts) : g.Unambiguous := by
  intro b c endpoint clash
  rcases clash with found | ⟨endpointC, same⟩
  · obtain ⟨bound, start⟩ := g.start2bb_start _ c found
    exact distinct c b bound endpoint.allocated start
  · exact distinct c b endpointC.allocated endpoint.allocated same

variable (g) in
def unrecorded : Digraph BlockId EdgeId where
  source := g.source
  target := g.target
  usable e := g.IsEdge e ∧ ¬ g.Recorded e

variable (g) in
def NoFastpath : Prop := ∀ e, g.IsEdge e → edgeIsFastpath (g.edge e) = false

theorem NoFastpath.unrecorded_eq (noFastpath : g.NoFastpath) : g.unrecorded = g.internal := by
  have usable (e : EdgeId) : (g.IsEdge e ∧ ¬ g.Recorded e) =
      (g.IsEdge e ∧ ¬ g.Recorded e ∧ edgeIsFastpath (g.edge e) = false) := by
    rw [eq_iff_iff]
    exact ⟨fun ⟨isEdge, plainEdge⟩ => ⟨isEdge, plainEdge, noFastpath e isEdge⟩,
      fun ⟨isEdge, plainEdge, _⟩ => ⟨isEdge, plainEdge⟩⟩
  simp only [unrecorded, internal, usable]

theorem Simplifies.plain_reach {g' : Cfg} (simplifies : Simplifies g g')
    (noFastpath : g.NoFastpath) {a b : BlockId} (reach : g'.plain.Reach a b) :
    g.internal.Reach a b := by
  refine reach.closed (P := fun c => g.internal.Reach a c)
    (fun e (usable : g'.plain.usable e) before => ?_) (.refl a)
  by_cases old : g.IsEdge e
  · have plainEdge : ¬ g.Recorded e := by
      rw [Recorded, ← recorded_congr (simplifies.type e old)]
      exact usable.2.2
    have source : g'.plain.source e = g.source e := simplifies.source e old
    have target : g'.plain.target e = g.target e := simplifies.target e old
    rw [source] at before
    rw [target]
    exact before.trans (.edge ⟨old, plainEdge, noFastpath e old⟩)
  · exact before.trans (simplifies.fresh e usable.1 old).2.2

theorem HasFastpath.plain_reach {bb cc : BlockId} (has : g.HasFastpath bb cc) :
    g.plain.Reach bb cc := by
  obtain ⟨e, isEdge, fastpath, visible, rfl, rfl⟩ := has
  exact .edge ⟨isEdge, visible, by simp [Recorded, fastpath_not_recorded fastpath]⟩

/-- Between recorded branches nothing changes: `simplifyCfg` returns, the next recorded branches
behind one that enters a collapsed function stay the same, all that is left inside the function are
fastpaths, and the recorded branches themselves are untouched. -/
theorem simplifyCfg_preserves_successors (g : Cfg) (noFastpath : g.NoFastpath)
    (distinct : g.DistinctStarts) :
    ∃ g', g.simplifyCfg = some g' ∧
      (∀ x y, g.IsEdge x → g.Recorded x → g.InOrdinaryFunction (g.target x) →
        g.IsEdge y → g.Recorded y →
        (g.unrecorded.Reach (g.target x) (g.source y) ↔
          g'.plain.Reach (g.target x) (g.source y))) ∧
      (∀ b e, g.InOrdinaryFunction b → e ∈ g'.outgoing b → ¬ g'.Recorded e →
        edgeIsFastpath (g'.edge e) = false → (g'.edge e).hidden) ∧
      (∀ e, g'.IsEdge e ∧ g'.Recorded e ↔ g.IsEdge e ∧ g.Recorded e) ∧
      ∀ e, g.IsEdge e → g.Recorded e → g'.edge e = g.edge e := by
  obtain ⟨g', out, simplifies, collapsed⟩ :=
    (simplifyCfg_spec g).exists_some (not_not_intro distinct.unambiguous)
  refine ⟨g', out, fun x y _ _ inside isEdgeY recordedY => ⟨fun reach => ?_, fun reach => ?_⟩,
    fun b e inside member plainEdge notFastpath => ?_, simplifies.recorded_iff,
    fun e isEdge recorded => simplifies.kept e isEdge (.inl recorded)⟩
  · rw [noFastpath.unrecorded_eq] at reach
    cases (collapsed _ inside).fastpath inside isEdgeY recordedY reach with
    | inl same => exact same ▸ .refl _
    | inr has => exact has.plain_reach
  · rw [noFastpath.unrecorded_eq]
    exact simplifies.plain_reach noFastpath reach
  · have usable := (simplifies.usable_iff e).mp ⟨isEdge_of_mem member, plainEdge, notFastpath⟩
    apply (collapsed b inside).hidden e usable
    rw [← simplifies.source e usable.1, source_of_mem member]
    exact .refl b

def diamond : Cfg :=
  let g := ofEdges id [(0x10, 0x14), (0x20, 0x24), (0x28, 0x2c), (0x30, 0x34)]
    [(0, 1, .directCall), (1, 2, .condNotTaken), (1, 3, .condTaken), (2, 3, .directJmp), (3, 0, .ret)]
  (g.newFunction { baseAddr := 0x20, funname := "f", basicBlocks := [1, 2, 3] }).storeFunction 0

theorem simplifyCfg_preserves_successors_diamond :
    ∃ g', diamond.simplifyCfg = some g' ∧ g'.plain.Reach (diamond.target 0) (diamond.source 4) := by
  have noFastpath : ∀ e < 5, edgeIsFastpath (diamond.edge e) = false := by decide
  have distinct : ∀ b < 4, ∀ c < 4, (diamond.block b).startAddress = (diamond.block c).startAddress →
    b = c := by decide
  obtain ⟨g', out, successors, -⟩ := simplifyCfg_preserves_successors diamond
    (fun e isEdge => noFastpath e isEdge.lt) (fun b c boundB boundC => distinct b boundB c boundC)
  have taken : diamond.unrecorded.usable 2 := by
    refine ⟨?_, ?_⟩ <;> decide
  refine ⟨g', out, (successors 0 4 (by decide) (by decide) ?_ (by decide) (by decide)).mp
    (.edge taken)⟩
  exact ⟨(0x20, 0), by decide, ⟨rfl, rfl⟩, by decide⟩

end Cfg

end PathArmor.Analyzer

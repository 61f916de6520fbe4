import PathArmor.Analyzer.Gates
import PathArmor.Library.IndexLoop

/-!
# Returns from a library function

`jit_add_plt_got_edge` links a PLT entry to the library function behind it, and that function to
every place it may return to. Its three loops run by index over edge sets, two of which may grow
while they are read.
-/

namespace PathArmor.Analyzer
open PathArmor.Library PathArmor.Library.IndexLoop

namespace Cfg

/-- Where the function may return to that was entered through the edge `into` of its PLT entry. -/
def ReturnsThrough (g : Cfg) (into : EdgeId) (f : BlockId) : Prop :=
  g.getFallthroughBb (g.source into) = some f ∨
    (∃ out ∈ g.outgoing (g.source into), edgeIsCall (g.edge out) = false) ∧
      ∃ caller ∈ g.incoming (g.source into), g.getFallthroughBb (g.source caller) = some f

def ReturnSite (g : Cfg) (bb f : BlockId) : Prop :=
  ∃ into ∈ g.incoming bb, g.ReturnsThrough into f

instance (g : Cfg) (into : EdgeId) (f : BlockId) : Decidable (g.ReturnsThrough into f) :=
  inferInstanceAs (Decidable (_ ∨ _))

instance (g : Cfg) (bb f : BlockId) : Decidable (g.ReturnSite bb f) :=
  inferInstanceAs (Decidable (∃ into ∈ _, _))

def retEdge (lib f : BlockId) : ArmsEdge :=
  { source := lib, target := f, type := .ret, intraProcedural := false }

section Fallthrough
variable {g g' : Cfg} {b f : BlockId}

theorem getFallthroughBb_congr (start2bb : g'.start2bb = g.start2bb)
    (last : (g'.block b).lastInsnAddress = (g.block b).lastInsnAddress) :
    g'.getFallthroughBb b = g.getFallthroughBb b := by
  unfold getFallthroughBb findBb
  rw [start2bb, last]

theorem findBb_of_fallthrough (found : g.getFallthroughBb b = some f) :
    g.findBb (g.block f).startAddress = some f := by
  obtain ⟨i, -, here⟩ := List.exists_of_findSome?_eq_some found
  rw [(g.start2bb_start _ f here).2]
  exact here

end Fallthrough

/-! ## One return edge -/

section LinkInter
variable {g : Cfg} {source target : BlockId}
  (bound : source < g.blockCount ∧ target < g.blockCount) (type : ArmsEdgeType)
include bound

theorem linkInter_outgoing (b : BlockId) : (g.linkInter source target type).outgoing b =
    if b = source then g.insertEdge g.edgeCount (g.outgoing b) else g.outgoing b := by
  have block : (g.linkInter source target type).block = g.linkBlocks source target :=
    link_block bound
  rw [outgoing, block, linkBlocks_apply]

theorem linkInter_incoming (b : BlockId) : (g.linkInter source target type).incoming b =
    if b = target then g.insertEdge g.edgeCount (g.incoming b) else g.incoming b := by
  have block : (g.linkInter source target type).block = g.linkBlocks source target :=
    link_block bound
  rw [incoming, block, linkBlocks_apply]

theorem linkInter_edgeCount : (g.linkInter source target type).edgeCount = g.edgeCount + 1 :=
  link_edgeCount bound

theorem linkInter_last (b : BlockId) :
    ((g.linkInter source target type).block b).lastInsnAddress = (g.block b).lastInsnAddress := by
  have block : (g.linkInter source target type).block = g.linkBlocks source target :=
    link_block bound
  rw [block, linkBlocks_apply]

theorem linkInter_maps : (g.linkInter source target type).start2bb = g.start2bb ∧
    (g.linkInter source target type).last2bb = g.last2bb ∧
    (g.linkInter source target type).edgeAddress = g.edgeAddress := by
  unfold linkInter link
  rw [dif_pos bound]
  exact ⟨rfl, rfl, rfl⟩

theorem linkInter_isEdge_new : (g.linkInter source target type).IsEdge g.edgeCount := by
  rw [IsEdge, Cfg.source, linkInter_edge bound, Function.update_self, linkInter_outgoing bound _]
  simp [ArmsEdge.setInterprocedural, mem_insertEdge]

theorem linkInter_isEdge_old {e : EdgeId} (isEdge : g.IsEdge e) :
    (g.linkInter source target type).IsEdge e := by
  have old := Function.update_of_ne isEdge.lt.ne
    ((ArmsEdge.setType { source, target } type).setInterprocedural) g.edge
  rw [IsEdge, Cfg.source, linkInter_edge bound, old, linkInter_outgoing bound _]
  split_ifs
  · exact g.mem_insertEdge.mpr (.inr isEdge)
  · exact isEdge

end LinkInter

/-- `g'` is `g` with edges from `lib` back to the sites. -/
structure ReturnsTo (lib : BlockId) (site : BlockId → Prop) (g g' : Cfg) : Prop where
  start2bb : g'.start2bb = g.start2bb
  last2bb : g'.last2bb = g.last2bb
  edgeAddress : g'.edgeAddress = g.edgeAddress
  last : ∀ b, (g'.block b).lastInsnAddress = (g.block b).lastInsnAddress
  edgeCount_le : g.edgeCount ≤ g'.edgeCount
  old : ∀ e < g.edgeCount, g'.edge e = g.edge e
  isEdge : ∀ e, g.IsEdge e → g'.IsEdge e
  new : ∀ e, g.edgeCount ≤ e → e < g'.edgeCount → g'.IsEdge e ∧ ∃ f, site f ∧ g'.edge e = retEdge lib f
  outgoing : ∀ b ≠ lib, g'.outgoing b = g.outgoing b
  incoming : ∀ b, ¬ site b → g'.incoming b = g.incoming b
  incoming_subset : ∀ b, g.incoming b ⊆ g'.incoming b
  incoming_old : ∀ b, ∀ e ∈ g'.incoming b, e < g.edgeCount → e ∈ g.incoming b

/-- A return edge from `lib` to `f` that is not among the first `n` edges. -/
def HasReturn (n : Nat) (lib f : BlockId) (g : Cfg) : Prop :=
  ∃ r ≥ n, g.IsEdge r ∧ g.edge r = retEdge lib f

namespace ReturnsTo
variable {lib : BlockId} {site : BlockId → Prop} {g g' : Cfg} {b f : BlockId}

theorem refl (lib : BlockId) (site : BlockId → Prop) (g : Cfg) : ReturnsTo lib site g g :=
  ⟨rfl, rfl, rfl, fun _ => rfl, le_rfl, fun _ _ => rfl, fun _ => id,
    fun _ above below => absurd below above.not_gt, fun _ _ => rfl, fun _ _ => rfl,
    fun _ => List.Subset.refl _, fun _ _ member _ => member⟩

theorem fallthrough (returns : ReturnsTo lib site g g') (b : BlockId) :
    g'.getFallthroughBb b = g.getFallthroughBb b :=
  getFallthroughBb_congr returns.start2bb (returns.last b)

theorem link (returns : ReturnsTo lib site g g') (bound : lib < g'.blockCount ∧ f < g'.blockCount)
    (isSite : site f) : ReturnsTo lib site g (g'.linkInter lib f .ret) := by
  obtain ⟨start2bb, last2bb, edgeAddress⟩ := linkInter_maps bound .ret
  have count : (g'.linkInter lib f .ret).edgeCount = g'.edgeCount + 1 := linkInter_edgeCount bound _
  have edge := linkInter_edge bound .ret
  have unchanged (e : EdgeId) (below : e < g'.edgeCount) :
      (g'.linkInter lib f .ret).edge e = g'.edge e := by
    rw [edge, Function.update_of_ne below.ne]
  constructor
  case start2bb => exact start2bb.trans returns.start2bb
  case last2bb => exact last2bb.trans returns.last2bb
  case edgeAddress => exact edgeAddress.trans returns.edgeAddress
  case last => exact fun b => (linkInter_last bound _ b).trans (returns.last b)
  case edgeCount_le => exact count ▸ returns.edgeCount_le.trans (Nat.le_succ _)
  case old =>
    intro e below
    rw [unchanged e (below.trans_le returns.edgeCount_le), returns.old e below]
  case isEdge => exact fun e isEdge => linkInter_isEdge_old bound _ (returns.isEdge e isEdge)
  case new =>
    intro e above below
    rw [count] at below
    cases Nat.lt_succ_iff_lt_or_eq.mp below with
    | inl before =>
        obtain ⟨isEdge, returned⟩ := returns.new e above before
        rw [unchanged e before]
        exact ⟨linkInter_isEdge_old bound _ isEdge, returned⟩
    | inr last =>
        subst last
        refine ⟨linkInter_isEdge_new bound _, f, isSite, ?_⟩
        rw [edge, Function.update_self]
        rfl
  case outgoing =>
    intro b other
    rw [linkInter_outgoing bound _, if_neg other, returns.outgoing b other]
  case incoming =>
    intro b noSite
    have other : b ≠ f := by
      rintro rfl
      exact noSite isSite
    rw [linkInter_incoming bound _, if_neg other, returns.incoming b noSite]
  case incoming_subset =>
    intro b e member
    rw [linkInter_incoming bound _]
    split_ifs
    · exact g'.mem_insertEdge.mpr (.inr (returns.incoming_subset b member))
    · exact returns.incoming_subset b member
  case incoming_old =>
    intro b e member below
    rw [linkInter_incoming bound _] at member
    split_ifs at member
    · cases g'.mem_insertEdge.mp member with
      | inl new => exact absurd (new ▸ below) returns.edgeCount_le.not_gt
      | inr old => exact returns.incoming_old b e old below
    · exact returns.incoming_old b e member below

end ReturnsTo

theorem HasReturn.linkInter {n : Nat} {lib f source target : BlockId} {g : Cfg} {type : ArmsEdgeType}
    (has : HasReturn n lib f g) (bound : source < g.blockCount ∧ target < g.blockCount) :
    HasReturn n lib f (g.linkInter source target type) := by
  obtain ⟨r, above, isEdge, returned⟩ := has
  refine ⟨r, above, linkInter_isEdge_old bound _ isEdge, ?_⟩
  rw [linkInter_edge bound, Function.update_of_ne isEdge.lt.ne, returned]

theorem hasReturn_linkInter {n : Nat} {lib f : BlockId} {g : Cfg} (le : n ≤ g.edgeCount)
    (bound : lib < g.blockCount ∧ f < g.blockCount) : HasReturn n lib f (g.linkInter lib f .ret) := by
  refine ⟨g.edgeCount, le, linkInter_isEdge_new bound _, ?_⟩
  rw [linkInter_edge bound, Function.update_self]
  rfl

end Cfg

open Cfg

theorem addRetEdge_of_fallthrough {g : Cfg} {base : Address} {lib cc f : BlockId}
    (source : g.findBbByLastInsnAddress base = some lib) (found : g.getFallthroughBb cc = some f) :
    addRetEdge base g cc = g.linkInter lib f .ret := by
  have target := findBb_of_fallthrough found
  unfold addRetEdge
  simp only [found]
  unfold addInterEdge createAndAddEdge
  simp only [source, target]
  rfl

theorem addRetEdge_of_none {g : Cfg} {base : Address} {cc : BlockId}
    (none : g.getFallthroughBb cc = none) : addRetEdge base g cc = g := by
  rw [addRetEdge, none]

theorem forEachEdge_eq_loop (edges : Cfg → List EdgeId) (body : Cfg → EdgeId → Option Cfg)
    (fuel i : Nat) (g : Cfg) : forEachEdge edges body fuel i g = loop edges body fuel i g := by
  induction fuel generalizing i g with
  | zero => rfl
  | succ fuel ih =>
      rw [forEachEdge, loop]
      cases (edges g)[i]? with
      | none => rfl
      | some e => exact congrArg (body g e).bind (funext (ih (i + 1)))

/-! ## The loops -/

/-- The graph in which the loops start: a PLT entry and the library function behind it. -/
structure Linked (g : Cfg) (base : Address) (lib bb : BlockId) : Prop where
  distinct : Function.Injective g.edgeAddress
  source : g.findBbByLastInsnAddress base = some lib
  behind : g.getFallthroughBb lib = none
  callers : ∀ into ∈ g.incoming bb, g.source into ≠ lib
  apart : ¬ g.ReturnSite bb bb

/-- What a part of the loops does to the graph `g` that it finds. -/
structure Returning (g₀ : Cfg) (lib bb : BlockId) (g g' : Cfg) : Prop where
  returns : ReturnsTo lib (g₀.ReturnSite bb) g₀ g'
  edgeCount_le : g.edgeCount ≤ g'.edgeCount
  keeps : ∀ f, HasReturn g₀.edgeCount lib f g → HasReturn g₀.edgeCount lib f g'

section Loops
variable {g₀ g g' : Cfg} {base : Address} {lib bb cc : BlockId}

theorem Returning.trans {g'' : Cfg} (first : Returning g₀ lib bb g g')
    (second : Returning g₀ lib bb g' g'') : Returning g₀ lib bb g g'' :=
  ⟨second.returns, first.edgeCount_le.trans second.edgeCount_le,
    fun f has => second.keeps f (first.keeps f has)⟩

theorem Returning.refl (returns : ReturnsTo lib (g₀.ReturnSite bb) g₀ g) : Returning g₀ lib bb g g :=
  ⟨returns, le_rfl, fun _ => id⟩

theorem Linked.source_in (linked : Linked g₀ base lib bb) {site : BlockId → Prop}
    (returns : ReturnsTo lib site g₀ g) : g.findBbByLastInsnAddress base = some lib := by
  rw [← linked.source]
  exact congrFun returns.last2bb base

theorem Linked.allocated (linked : Linked g₀ base lib bb) {site : BlockId → Prop}
    (returns : ReturnsTo lib site g₀ g) {f : BlockId} (found : g.getFallthroughBb cc = some f) :
    lib < g.blockCount ∧ f < g.blockCount :=
  ⟨findBbByLastInsnAddress_lt (linked.source_in returns), findBb_lt (findBb_of_fallthrough found)⟩

theorem addRetEdge_returning (linked : Linked g₀ base lib bb)
    (returns : ReturnsTo lib (g₀.ReturnSite bb) g₀ g) (cc : BlockId)
    (sites : ∀ f, g₀.getFallthroughBb cc = some f → g₀.ReturnSite bb f) :
    Returning g₀ lib bb g (addRetEdge base g cc) ∧ ∀ f, g₀.getFallthroughBb cc = some f →
      HasReturn g₀.edgeCount lib f (addRetEdge base g cc) := by
  rw [← returns.fallthrough cc] at sites ⊢
  cases found : g.getFallthroughBb cc with
  | none =>
      rw [addRetEdge_of_none found]
      exact ⟨.refl returns, by simp⟩
  | some f =>
      have bound := linked.allocated returns found
      rw [addRetEdge_of_fallthrough (linked.source_in returns) found]
      have later := (Nat.le_succ _).trans (linkInter_edgeCount bound .ret).ge
      refine ⟨⟨returns.link bound (sites f found), later, fun _ has => has.linkInter bound⟩, ?_⟩
      rintro f' same
      obtain rfl := Option.some.inj same
      exact hasReturn_linkInter returns.edgeCount_le bound

/-- The set of edges into a block, or out of it, in the order of their addresses. -/
def edgeSet (g₀ : Cfg) (distinct : Function.Injective g₀.edgeAddress) (edges : Cfg → List EdgeId) :
    OrderedSet Cfg where
  items := edges
  next := (·.edgeCount)
  key := g₀.edgeAddress
  injective := distinct

/-- Visiting `x` provides for the returns of `x`, and none are lost. -/
theorem forEachEdge_converges (linked : Linked g₀ base lib bb) {edges : Cfg → List EdgeId}
    {body : Nat → Cfg → EdgeId → Option Cfg} (returnsOf : EdgeId → BlockId → Prop)
    (step : ∀ s x, ReturnsTo lib (g₀.ReturnSite bb) g₀ s → x ∈ edges s →
      Converges (body · s x) fun s' => Returning g₀ lib bb s s' ∧
        (edgeSet g₀ linked.distinct edges).Round g.edgeCount x s s' ∧
        ∀ f, returnsOf x f → HasReturn g₀.edgeCount lib f s')
    (returns : ReturnsTo lib (g₀.ReturnSite bb) g₀ g) :
    Converges (fun fuel => forEachEdge edges (body fuel) fuel 0 g) fun g' =>
      Returning g₀ lib bb g g' ∧ ∀ x ∈ edges g, ∀ f, returnsOf x f →
        HasReturn g₀.edgeCount lib f g' := by
  simp only [forEachEdge_eq_loop]
  refine OrderedSet.loop_visits (o := edgeSet g₀ linked.distinct edges)
    (Returning g₀ lib bb g) (fun x s => ∀ f, returnsOf x f → HasReturn g₀.edgeCount lib f s) ?_
    (.refl returns)
  intro s x grown member
  refine (step s x grown.returns member).imp ?_
  rintro s' ⟨next, round, now⟩
  exact ⟨grown.trans next, round, now, fun y before f wanted => next.keeps f (before f wanted)⟩

theorem addRetEdge_round (linked : Linked g₀ base lib bb)
    (returns : ReturnsTo lib (g₀.ReturnSite bb) g₀ g) {start x : EdgeId} (old : x < start)
    (dd : BlockId) : (edgeSet g₀ linked.distinct (·.incoming cc)).Round start x g
      (addRetEdge base g dd) := by
  cases found : g.getFallthroughBb dd with
  | none =>
      rw [addRetEdge_of_none found]
      exact .keeps rfl le_rfl
  | some f =>
      have bound := linked.allocated returns found
      have count : (g.linkInter lib f .ret).edgeCount = g.edgeCount + 1 := linkInter_edgeCount bound _
      rw [addRetEdge_of_fallthrough (linked.source_in returns) found]
      by_cases same : cc = f
      · refine .puts old ?_ count
        refine (linkInter_incoming bound _ cc).trans ?_
        rw [if_pos same, insertEdge, returns.edgeAddress]
        rfl
      · refine .keeps ((linkInter_incoming bound _ cc).trans (if_neg same)) ?_
        exact (Nat.le_succ _).trans count.ge

theorem callers_converge (linked : Linked g₀ base lib bb)
    (returns : ReturnsTo lib (g₀.ReturnSite bb) g₀ g)
    (sites : ∀ caller ∈ g₀.incoming cc, ∀ f, g₀.getFallthroughBb (g₀.source caller) = some f →
      g₀.ReturnSite bb f) :
    Converges (fun fuel => forEachEdge (·.incoming cc)
        (fun g caller => some (addRetEdge base g (g.source caller))) fuel 0 g) fun g' =>
      Returning g₀ lib bb g g' ∧ ∀ caller ∈ g₀.incoming cc, ∀ f,
        g₀.getFallthroughBb (g₀.source caller) = some f → HasReturn g₀.edgeCount lib f g' := by
  refine (forEachEdge_converges linked (fun caller f => caller < g₀.edgeCount ∧
    g₀.getFallthroughBb (g₀.source caller) = some f) ?_ returns).imp ?_
  · intro s caller returns' member
    apply Converges.of_some
    cases lt_or_ge caller g₀.edgeCount with
    | inl old =>
        have source : s.source caller = g₀.source caller :=
          congrArg ArmsEdge.source (returns'.old caller old)
        obtain ⟨returning, has⟩ := addRetEdge_returning linked returns' _
          (sites caller (returns'.incoming_old cc caller member old))
        rw [source]
        exact ⟨returning, addRetEdge_round linked returns' (old.trans_le returns.edgeCount_le) _,
          fun f wanted => has f wanted.2⟩
    | inr new =>
        -- The edges added here come from the library, and nothing follows its block.
        obtain ⟨-, f, -, edge⟩ := returns'.new caller new (s.incoming_lt cc caller member)
        have source : s.source caller = lib := by rw [Cfg.source, edge]; rfl
        rw [source, addRetEdge_of_none ((returns'.fallthrough lib).trans linked.behind)]
        exact ⟨.refl returns', .keeps rfl le_rfl, fun f wanted => absurd wanted.1 new.not_gt⟩
  · rintro g' ⟨returning, has⟩
    refine ⟨returning, fun caller member f found => ?_⟩
    exact has caller (returns.incoming_subset cc member) f ⟨g₀.incoming_lt cc caller member, found⟩

theorem addRetEdges_converges (linked : Linked g₀ base lib bb)
    (returns : ReturnsTo lib (g₀.ReturnSite bb) g₀ g) {into : EdgeId} (member : into ∈ g₀.incoming bb) :
    Converges (addRetEdges · base g into) fun g' => Returning g₀ lib bb g g' ∧
      ∀ f, g₀.ReturnsThrough into f → HasReturn g₀.edgeCount lib f g' := by
  have source : g.source into = g₀.source into :=
    congrArg ArmsEdge.source (returns.old into (g₀.incoming_lt bb into member))
  have outgoing (s : Cfg) (returns' : ReturnsTo lib (g₀.ReturnSite bb) g₀ s) :=
    returns'.outgoing (g₀.source into) (linked.callers into member)
  simp only [addRetEdges, source]
  have looped : Converges (fun fuel => forEachEdge (·.outgoing (g₀.source into))
      (fun s out => if edgeIsCall (s.edge out) then some s else
        forEachEdge (·.incoming (g₀.source into))
          (fun s caller => some (addRetEdge base s (s.source caller))) fuel 0 s) fuel 0 g) fun g' =>
      Returning g₀ lib bb g g' ∧ ∀ out ∈ g.outgoing (g₀.source into), ∀ f,
        (edgeIsCall (g₀.edge out) = false ∧ ∃ caller ∈ g₀.incoming (g₀.source into),
          g₀.getFallthroughBb (g₀.source caller) = some f) → HasReturn g₀.edgeCount lib f g' := by
    refine forEachEdge_converges linked _ ?_ returns
    intro s out returns' here
    rw [outgoing s returns'] at here
    have edge := returns'.old out (g₀.outgoing_lt _ out here)
    cases call : edgeIsCall (g₀.edge out) with
    | true =>
        simp only [edge, call, if_true]
        exact .of_some ⟨.refl returns', .keeps rfl le_rfl, by simp⟩
    | false =>
        simp only [edge, call, Bool.false_eq_true, if_false]
        refine (callers_converge linked returns' fun caller from' f found =>
          ⟨into, member, .inr ⟨⟨out, here, call⟩, caller, from', found⟩⟩).imp ?_
        rintro s' ⟨returning, has⟩
        refine ⟨returning, .keeps ?_ returning.edgeCount_le, ?_⟩
        · exact (outgoing s' returning.returns).trans (outgoing s returns').symm
        · rintro f ⟨-, caller, from', found⟩
          exact has caller from' f found
  refine looped.map ?_
  rintro g' ⟨returning, has⟩
  obtain ⟨last, own⟩ := addRetEdge_returning linked returning.returns
    (g₀.source into) fun f found => ⟨into, member, .inl found⟩
  refine ⟨returning.trans last, ?_⟩
  rintro f (found | ⟨⟨out, here, call⟩, caller⟩)
  · exact own f found
  · rw [← outgoing g returns] at here
    exact last.keeps f (has out here f ⟨call, caller⟩)

theorem pltReturns_converge (linked : Linked g₀ base lib bb) :
    Converges (fun fuel => forEachEdge (·.incoming bb) (addRetEdges fuel base) fuel 0 g₀) fun g' =>
      ReturnsTo lib (g₀.ReturnSite bb) g₀ g' ∧
        ∀ f, g₀.ReturnSite bb f → HasReturn g₀.edgeCount lib f g' := by
  have fixed (s : Cfg) (returns : ReturnsTo lib (g₀.ReturnSite bb) g₀ s) :=
    returns.incoming bb linked.apart
  refine (forEachEdge_converges linked g₀.ReturnsThrough ?_ (.refl _ _ g₀)).imp ?_
  · intro s into returns member
    rw [fixed s returns] at member
    refine (addRetEdges_converges linked returns member).imp ?_
    rintro s' ⟨returning, has⟩
    refine ⟨returning, .keeps ?_ returning.edgeCount_le, has⟩
    exact (fixed s' returning.returns).trans (fixed s returns).symm
  · rintro g' ⟨returning, has⟩
    refine ⟨returning.returns, ?_⟩
    rintro f ⟨into, member, through⟩
    exact has into member f through

/-- The return edges change nothing about where the function returns to. -/
theorem Linked.returnSite_iff (linked : Linked g₀ base lib bb)
    (returns : ReturnsTo lib (g₀.ReturnSite bb) g₀ g) (f : BlockId) :
    g.ReturnSite bb f ↔ g₀.ReturnSite bb f := by
  unfold ReturnSite
  rw [returns.incoming bb linked.apart]
  refine exists_congr fun into => and_congr_right fun member => ?_
  have source : g.source into = g₀.source into :=
    congrArg ArmsEdge.source (returns.old into (g₀.incoming_lt bb into member))
  have edge (out : EdgeId) (here : out ∈ g₀.outgoing (g₀.source into)) : g.edge out = g₀.edge out :=
    returns.old out (g₀.outgoing_lt _ out here)
  unfold ReturnsThrough
  rw [source, returns.fallthrough, returns.outgoing _ (linked.callers into member)]
  refine or_congr_right (and_congr ?_ ⟨?_, ?_⟩)
  · exact exists_congr fun out => and_congr_right fun here => by rw [edge out here]
  · rintro ⟨caller, from', found⟩
    rw [returns.fallthrough] at found
    cases lt_or_ge caller g₀.edgeCount with
    | inl old =>
        refine ⟨caller, returns.incoming_old _ caller from' old, ?_⟩
        rwa [Cfg.source, returns.old caller old] at found
    | inr new =>
        obtain ⟨-, f', -, ret⟩ := returns.new caller new (g.incoming_lt _ caller from')
        rw [Cfg.source, ret] at found
        exact absurd (linked.behind.symm.trans found) (by simp)
  · rintro ⟨caller, from', found⟩
    refine ⟨caller, returns.incoming_subset _ from', ?_⟩
    rw [returns.fallthrough, Cfg.source, returns.old caller (g₀.incoming_lt _ caller from')]
    exact found

end Loops

/-! ## The library function -/

namespace Cfg

/-- A PLT entry with its block, to which none of its own calls returns. -/
structure PltEntry (g : Cfg) (a : Address) (plt : FuncId) (bb : BlockId) : Prop where
  function : g.findFunction a = some plt
  allocated : plt < g.funcCount
  isPlt : (g.func plt).isPlt = true
  base : (g.func plt).baseAddr = a
  start : g.findBb a = some bb
  last : g.findBbByLastInsnAddress a = some bb
  apart : ¬ g.ReturnSite bb bb

/-- The address of a library function, which is new to the graph or has its dummy block there. No
block starts within the reach of `get_fallthrough_bb` behind it. -/
structure LibEntry (g : Cfg) (bb : BlockId) (b : Address) : Prop where
  behind : ∀ i ∈ List.range' 1 15, g.findBb (b + UInt64.ofNat i) = none
  known : ∀ f, g.findFunction b = some f → (g.func f).baseAddr = b ∧ ∃ lib, g.findBb b = some lib ∧
    g.findBbByLastInsnAddress b = some lib ∧ ∀ into ∈ g.incoming bb, g.source into ≠ lib

/-- `g'` is `g` with the block `lib` at `b`. -/
structure Hosts (g : Cfg) (b : Address) (lib : BlockId) (g' : Cfg) : Prop where
  found : g'.findBb b = some lib
  last : g'.findBbByLastInsnAddress b = some lib
  findBb : ∀ x ≠ b, g'.findBb x = g.findBb x
  findBbByLastInsnAddress : ∀ x ≠ b, g'.findBbByLastInsnAddress x = g.findBbByLastInsnAddress x
  lastInsnAddress : ∀ c < g.blockCount, (g'.block c).lastInsnAddress = (g.block c).lastInsnAddress
  edge : g'.edge = g.edge
  edgeCount : g'.edgeCount = g.edgeCount
  edgeAddress : g'.edgeAddress = g.edgeAddress
  outgoing : ∀ c, g'.outgoing c = g.outgoing c
  incoming : ∀ c, g'.incoming c = g.incoming c

theorem hosts_newBlock (g : Cfg) (b : Address) (funcs : List FuncId) :
    g.Hosts b g.blockCount ((g.newBlock b (b + 1) b true funcs).storeBb g.blockCount) := by
  have self : (g.newBlock b (b + 1) b true funcs).block g.blockCount =
      { startAddress := b, endAddress := b + 1, lastInsnAddress := b, isDummy := true, funcs } :=
    newBlock_block_self
  obtain ⟨block, edge, -, edgeCount, -⟩ :=
    storeBb_same (g := g.newBlock b (b + 1) b true funcs) g.blockCount
  have bound : g.blockCount < (g.newBlock b (b + 1) b true funcs).blockCount := Nat.lt_succ_self _
  constructor
  case found => simp [storeBb, bound, self, Cfg.findBb]
  case last => simp [storeBb, bound, self, Cfg.findBbByLastInsnAddress]
  case findBb =>
    intro x other
    simp only [storeBb, bound, self, Cfg.findBb, dif_pos, Function.update_of_ne other]
    rfl
  case findBbByLastInsnAddress =>
    intro x other
    simp only [storeBb, bound, self, Cfg.findBbByLastInsnAddress, dif_pos, Function.update_of_ne other]
    rfl
  case lastInsnAddress =>
    intro c below
    rw [block, newBlock_block_of_ne below.ne]
  case edge => exact edge
  case edgeCount => exact edgeCount
  case edgeAddress => simp only [storeBb, bound, dif_pos]; rfl
  case outgoing =>
    intro c
    rw [outgoing, block]
    exact newBlock_outgoing c
  case incoming =>
    intro c
    rw [incoming, block]
    exact newBlock_incoming c

/-- The graphs differ in their functions only. -/
structure FunctionsOnly (g g' : Cfg) : Prop extends SameHeap g g' where
  last2bb : g'.last2bb = g.last2bb
  edgeAddress : g'.edgeAddress = g.edgeAddress

namespace FunctionsOnly
variable {g g' : Cfg}

theorem findBb (same : FunctionsOnly g g') (x : Address) : g'.findBb x = g.findBb x :=
  congrFun same.start2bb x

theorem findBbByLastInsnAddress (same : FunctionsOnly g g') (x : Address) :
    g'.findBbByLastInsnAddress x = g.findBbByLastInsnAddress x :=
  congrFun same.last2bb x

end FunctionsOnly

namespace Hosts
variable {g g₁ g₂ g' : Cfg} {b : Address} {lib bb : BlockId}

theorem of_same (same : FunctionsOnly g g') (found : g.findBb b = some lib)
    (last : g.findBbByLastInsnAddress b = some lib) : g.Hosts b lib g' where
  found := by rw [same.findBb]; exact found
  last := by rw [same.findBbByLastInsnAddress]; exact last
  findBb x _ := same.findBb x
  findBbByLastInsnAddress x _ := same.findBbByLastInsnAddress x
  lastInsnAddress c _ := by rw [same.block]
  edge := same.edge
  edgeCount := same.edgeCount
  edgeAddress := same.edgeAddress
  outgoing c := by rw [Cfg.outgoing, same.block]
  incoming c := by rw [Cfg.incoming, same.block]

theorem frame (hosts : g₁.Hosts b lib g₂) (before : FunctionsOnly g g₁)
    (after : FunctionsOnly g₂ g') : g.Hosts b lib g' where
  found := by rw [after.findBb]; exact hosts.found
  last := by rw [after.findBbByLastInsnAddress]; exact hosts.last
  findBb x other := by rw [after.findBb, hosts.findBb x other, before.findBb]
  findBbByLastInsnAddress x other := by
    rw [after.findBbByLastInsnAddress, hosts.findBbByLastInsnAddress x other,
      before.findBbByLastInsnAddress]
  lastInsnAddress c below := by
    rw [after.block, hosts.lastInsnAddress c (before.blockCount ▸ below), before.block]
  edge := after.edge.trans (hosts.edge.trans before.edge)
  edgeCount := after.edgeCount.trans (hosts.edgeCount.trans before.edgeCount)
  edgeAddress := after.edgeAddress.trans (hosts.edgeAddress.trans before.edgeAddress)
  outgoing c := by
    rw [Cfg.outgoing, after.block]
    exact (hosts.outgoing c).trans (by rw [Cfg.outgoing, before.block])
  incoming c := by
    rw [Cfg.incoming, after.block]
    exact (hosts.incoming c).trans (by rw [Cfg.incoming, before.block])

/-- The new block is no place to return to but its own. -/
theorem fallthrough (hosts : g.Hosts b lib g') (other : bb ≠ lib) {c : BlockId}
    (allocated : c < g.blockCount) (found : g'.getFallthroughBb c = some bb) :
    g.getFallthroughBb c = some bb := by
  unfold getFallthroughBb at found ⊢
  rw [hosts.lastInsnAddress c allocated] at found
  have elsewhere (x : Address) (differs : g'.findBb x ≠ some lib) : g'.findBb x = g.findBb x := by
    refine hosts.findBb x ?_
    rintro rfl
    exact differs hosts.found
  rw [List.findSome?_eq_some_iff] at found ⊢
  obtain ⟨before, i, after, range, here, missed⟩ := found
  refine ⟨before, i, after, range, ?_, fun j member => ?_⟩
  · rw [← elsewhere _ (by simp [here, other])]
    exact here
  · rw [← elsewhere _ (by simp [missed j member])]
    exact missed j member

theorem behind (hosts : g.Hosts b lib g')
    (behind : ∀ i ∈ List.range' 1 15, g.findBb (b + UInt64.ofNat i) = none) :
    g'.getFallthroughBb lib = none := by
  have further : ∀ i ∈ List.range' 1 15, UInt64.ofNat i ≠ 0 := by decide
  unfold getFallthroughBb
  rw [(g'.last2bb_last b lib hosts.last).2, List.findSome?_eq_none_iff]
  intro i member
  rw [hosts.findBb _ (by simpa using further i member)]
  exact behind i member

end Hosts

theorem newFunction_functionsOnly (g : Cfg) (funname : String) (b : Address) :
    FunctionsOnly g ((g.newFunction { baseAddr := b, funname }).storeFunction g.funcCount) := by
  refine ⟨⟨?_, ?_, ?_, ?_, ?_⟩, ?_, ?_⟩ <;> simp [storeFunction, newFunction]

theorem updateFunction_functionsOnly (g : Cfg) (f : FuncId) {change : ArmsFunction → ArmsFunction}
    {keepsBlocks : ∀ x, (change x).basicBlocks = x.basicBlocks} :
    FunctionsOnly g (g.updateFunction f change keepsBlocks) :=
  ⟨⟨rfl, rfl, rfl, rfl, rfl⟩, rfl, rfl⟩

theorem updateFunction_baseAddr (g : Cfg) (f : FuncId) {change : ArmsFunction → ArmsFunction}
    {keepsBlocks : ∀ x, (change x).basicBlocks = x.basicBlocks}
    (keepsBase : ∀ x, (change x).baseAddr = x.baseAddr) (f' : FuncId) :
    ((g.updateFunction f change keepsBlocks).func f').baseAddr = (g.func f').baseAddr := by
  simp only [updateFunction, Function.update_apply]
  split_ifs with same
  · rw [keepsBase, same]
  · rfl

theorem createDummyFunction_hosts {g : Cfg} {b : Address} {bb : BlockId} (entry : g.LibEntry bb b)
    (funname : String) :
    ∃ lib, g.Hosts b lib (g.createDummyFunction funname b).1 ∧
      (∀ into ∈ g.incoming bb, g.source into ≠ lib) ∧
      ((g.createDummyFunction funname b).1.func (g.createDummyFunction funname b).2).baseAddr = b ∧
      ∀ f < g.funcCount, ((g.createDummyFunction funname b).1.func f).baseAddr =
        (g.func f).baseAddr := by
  unfold createDummyFunction
  cases found : g.findFunction b with
  | some f =>
      obtain ⟨base, lib, start, last, callers⟩ := entry.known f found
      exact ⟨lib, .of_same ⟨.refl g, rfl, rfl⟩ start last, callers, base, fun _ _ => rfl⟩
  | none =>
      dsimp only
      have func : ((g.newFunction { baseAddr := b, funname }).storeFunction g.funcCount).func =
          Function.update g.func g.funcCount { baseAddr := b, funname } := by
        simp [storeFunction, newFunction]
      have before := newFunction_functionsOnly g funname b
      generalize (g.newFunction { baseAddr := b, funname }).storeFunction g.funcCount = g₁ at *
      have base (f : FuncId) : ((((g₁.newBlock b (b + 1) b true [g.funcCount]).storeBb
          g₁.blockCount).updateFunction g.funcCount
            (fun x => { x with entryPoints := [g₁.blockCount], exitPoints := [g₁.blockCount] })
            fun _ => rfl).func f).baseAddr = (g₁.func f).baseAddr := by
        rw [updateFunction_baseAddr _ _ (by exact fun _ => rfl), (storeBb_same _).2.2.2.2.2]
        rfl
      refine ⟨g₁.blockCount,
        (hosts_newBlock g₁ b _).frame before (updateFunction_functionsOnly _ _),
        fun into member => ?_, ?_, fun f below => ?_⟩
      · rw [before.blockCount]
        exact (g.endpoint_lt into (g.incoming_lt bb into member)).1.ne
      · rw [base, func, Function.update_self]
      · rw [base, func, Function.update_of_ne below.ne]

section Jump
variable {g g₁ : Cfg} {a b : Address} {plt : FuncId} {lib bb : BlockId}

theorem Hosts.ne (hosts : g.Hosts b lib g₁) (start : g.findBb a = some bb) (differ : a ≠ b) :
    bb ≠ lib := by
  rintro rfl
  have here := (g₁.start2bb_start b bb hosts.found).2
  have there := (g₁.start2bb_start a bb ((hosts.findBb a differ).trans start)).2
  exact differ (there.symm.trans here)

theorem PltEntry.bound (entry : g.PltEntry a plt bb) (hosts : g.Hosts b lib g₁) (differ : a ≠ b) :
    bb < g₁.blockCount ∧ lib < g₁.blockCount :=
  ⟨findBb_lt ((hosts.findBb a differ).trans entry.start), findBb_lt hosts.found⟩

theorem PltEntry.not_returnSite (entry : g.PltEntry a plt bb) (hosts : g.Hosts b lib g₁)
    (differ : a ≠ b) (callers : ∀ into ∈ g.incoming bb, g.source into ≠ lib) :
    ¬ (g₁.linkInter bb lib .interIndirectJmp).ReturnSite bb bb := by
  have bound := entry.bound hosts differ
  have other := hosts.ne entry.start differ
  obtain ⟨start2bb, -, -⟩ := linkInter_maps bound .interIndirectJmp
  have incoming (c : BlockId) (elsewhere : c ≠ lib) :
      (g₁.linkInter bb lib .interIndirectJmp).incoming c = g.incoming c := by
    rw [linkInter_incoming bound _, if_neg elsewhere, hosts.incoming]
  have edge (e : EdgeId) (below : e < g.edgeCount) :
      (g₁.linkInter bb lib .interIndirectJmp).edge e = g.edge e := by
    rw [linkInter_edge bound, hosts.edgeCount, Function.update_of_ne below.ne, hosts.edge]
  have fallthrough (e : EdgeId) (below : e < g.edgeCount)
      (found : (g₁.linkInter bb lib .interIndirectJmp).getFallthroughBb
        ((g₁.linkInter bb lib .interIndirectJmp).source e) = some bb) :
      g.getFallthroughBb (g.source e) = some bb := by
    rw [Cfg.source, edge e below, getFallthroughBb_congr start2bb (linkInter_last bound _ _)] at found
    exact hosts.fallthrough other (g.endpoint_lt e below).1 found
  rintro ⟨into, member, through⟩
  rw [incoming bb other] at member
  have below := g.incoming_lt bb into member
  have source : (g₁.linkInter bb lib .interIndirectJmp).source into = g.source into :=
    congrArg ArmsEdge.source (edge into below)
  rcases through with found | ⟨⟨out, here, call⟩, caller, from', found⟩
  · exact entry.apart ⟨into, member, .inl (fallthrough into below found)⟩
  · rw [source, incoming _ (callers into member)] at from'
    have found := fallthrough caller (g.incoming_lt _ caller from') found
    rw [source, linkInter_outgoing bound _, hosts.outgoing] at here
    split_ifs at here with itself
    · -- The entry jumps to itself, so the caller is one of the entry.
      rw [itself] at from'
      exact entry.apart ⟨caller, from', .inl found⟩
    · rw [edge out (g.outgoing_lt _ out here)] at call
      exact entry.apart ⟨into, member, .inr ⟨⟨out, here, call⟩, caller, from', found⟩⟩

theorem PltEntry.linked (entry : g.PltEntry a plt bb) (hosts : g.Hosts b lib g₁) (differ : a ≠ b)
    (distinct : Function.Injective g.edgeAddress)
    (behind : ∀ i ∈ List.range' 1 15, g.findBb (b + UInt64.ofNat i) = none)
    (callers : ∀ into ∈ g.incoming bb, g.source into ≠ lib) :
    Linked (g₁.linkInter bb lib .interIndirectJmp) b lib bb := by
  have bound := entry.bound hosts differ
  obtain ⟨start2bb, last2bb, edgeAddress⟩ := linkInter_maps bound .interIndirectJmp
  constructor
  case distinct =>
    rw [edgeAddress, hosts.edgeAddress]
    exact distinct
  case source => exact (congrFun last2bb b).trans hosts.last
  case behind =>
    exact (getFallthroughBb_congr start2bb (linkInter_last bound _ lib)).trans (hosts.behind behind)
  case callers =>
    intro into member
    rw [linkInter_incoming bound _, if_neg (hosts.ne entry.start differ), hosts.incoming] at member
    rw [Cfg.source, linkInter_edge bound, hosts.edgeCount,
      Function.update_of_ne (g.incoming_lt bb into member).ne, hosts.edge]
    exact callers into member
  case apart => exact entry.not_returnSite hosts differ callers

end Jump

end Cfg

section
variable {g : Cfg} {a b : Address} {plt : FuncId} {bb : BlockId}

theorem addInterEdge_of_blocks {g : Cfg} {lib : BlockId} (type : ArmsEdgeType)
    (source : g.findBbByLastInsnAddress a = some bb) (target : g.findBb b = some lib) :
    g.addInterEdge a b type = (g.linkInter bb lib type, g.edgeCount) := by
  unfold addInterEdge createAndAddEdge
  simp only [source, target]
  rfl

theorem jitAddPltGotEdge_of_loop (entry : g.PltEntry a plt bb) (library : g.LibEntry bb b)
    (differ : a ≠ b) : ∃ lib g₁, g.Hosts b lib g₁ ∧ (∀ into ∈ g.incoming bb, g.source into ≠ lib) ∧
      ∀ fuel g', forEachEdge (·.incoming bb) (addRetEdges fuel b) fuel 0
          (g₁.linkInter bb lib .interIndirectJmp) = some g' →
        jitAddPltGotEdge fuel g a b = .ok (some (g', g.edgeCount)) := by
  obtain ⟨lib, created, callers, base, bases⟩ :=
    createDummyFunction_hosts library (g.func plt).funname
  have pltBase := (bases plt entry.allocated).trans entry.base
  unfold jitAddPltGotEdge
  simp only [entry.function, entry.isPlt, if_true]
  generalize g.createDummyFunction (g.func plt).funname b = shlib at *
  have marked (f : FuncId) : ((shlib.1.setIsLibDummy shlib.2).func f).baseAddr =
      (shlib.1.func f).baseAddr := updateFunction_baseAddr _ _ (by exact fun _ => rfl) f
  have hosts : g.Hosts b lib (shlib.1.setIsLibDummy shlib.2) :=
    created.frame ⟨.refl g, rfl, rfl⟩ (updateFunction_functionsOnly _ _)
  rw [← marked] at base pltBase
  generalize shlib.1.setIsLibDummy shlib.2 = g₁ at *
  have jump := addInterEdge_of_blocks .interIndirectJmp
    ((hosts.findBbByLastInsnAddress a differ).trans entry.last) hosts.found
  have func : (g₁.linkInter bb lib .interIndirectJmp).func = g₁.func := by
    have same := addInterEdge_func g₁ a b .interIndirectJmp
    rwa [jump] at same
  have start : (g₁.linkInter bb lib .interIndirectJmp).findBb a = some bb := by
    rw [Cfg.findBb, (linkInter_maps (entry.bound hosts differ) _).1]
    exact (hosts.findBb a differ).trans entry.start
  refine ⟨lib, g₁, hosts, callers, fun fuel g' looped => ?_⟩
  simp only [jump, func, base, pltBase, start, looped, hosts.edgeCount]

/-- The call of a library function through its PLT entry is entered into the graph as a whole: the
jump, and a return edge to each place from where the entry is reached, and to no other. -/
theorem jitAddPltGotEdge_returns (distinct : Function.Injective g.edgeAddress)
    (entry : g.PltEntry a plt bb) (library : g.LibEntry bb b) (differ : a ≠ b) :
    ∃ lib g', (∃ enough, ∀ fuel ≥ enough,
        jitAddPltGotEdge fuel g a b = .ok (some (g', g.edgeCount))) ∧
      g'.findBb b = some lib ∧ g'.findBbByLastInsnAddress b = some lib ∧
      (∀ e < g.edgeCount, g'.edge e = g.edge e ∧ (g.IsEdge e → g'.IsEdge e)) ∧
      (g'.IsEdge g.edgeCount ∧ g'.edge g.edgeCount =
        { source := bb, target := lib, type := .interIndirectJmp, intraProcedural := false }) ∧
      (∀ e, g.edgeCount < e → e < g'.edgeCount →
        g'.IsEdge e ∧ ∃ f, g'.ReturnSite bb f ∧ g'.edge e = retEdge lib f) ∧
      ∀ f, g'.ReturnSite bb f → ∃ e > g.edgeCount, g'.IsEdge e ∧ g'.edge e = retEdge lib f := by
  obtain ⟨lib, g₁, hosts, callers, run⟩ := jitAddPltGotEdge_of_loop entry library differ
  have bound := entry.bound hosts differ
  have linked := entry.linked hosts differ distinct library.behind callers
  have count : (g₁.linkInter bb lib .interIndirectJmp).edgeCount = g.edgeCount + 1 := by
    rw [linkInter_edgeCount bound _, hosts.edgeCount]
  have edge := linkInter_edge bound .interIndirectJmp
  rw [hosts.edgeCount, hosts.edge] at edge
  have isEdge : ∀ e, g.IsEdge e → g₁.IsEdge e := fun e isEdge => by
    rw [IsEdge, hosts.outgoing, Cfg.source, hosts.edge]
    exact isEdge
  have newEdge := linkInter_isEdge_new bound .interIndirectJmp
  rw [hosts.edgeCount] at newEdge
  obtain ⟨g', ⟨returns, has⟩, enough, looped⟩ := pltReturns_converge linked
  rw [count] at has
  refine ⟨lib, g', ⟨enough, fun fuel above => ?_⟩, ?_, linked.source_in returns, ?_, ?_, ?_, ?_⟩
  · exact run fuel g' (looped fuel above)
  · rw [Cfg.findBb, returns.start2bb, (linkInter_maps bound _).1]
    exact hosts.found
  · intro e below
    constructor
    · rw [returns.old e (count ▸ Nat.lt_succ_of_lt below), edge, Function.update_of_ne below.ne]
    · exact fun there => returns.isEdge e (linkInter_isEdge_old bound _ (isEdge e there))
  · refine ⟨returns.isEdge _ newEdge, ?_⟩
    rw [returns.old _ (count ▸ Nat.lt_succ_self _), edge, Function.update_self]
    rfl
  · intro e above below
    obtain ⟨there, f, site, ret⟩ := returns.new e (count ▸ above) below
    exact ⟨there, f, (linked.returnSite_iff returns f).mpr site, ret⟩
  · intro f site
    exact has f ((linked.returnSite_iff returns f).mp site)

end

/-- `main` calls `puts` and `wrapper` and ends with a jump to `puts`, as `wrapper` does. -/
def putsProgram : Cfg := (Cfg.ofProgram 0x400000 0x401000
  [(0x400100, "main"), (0x400200, "wrapper"), (0x400040, "puts")]
  [(0x400100, 0x400108, false, [0]), (0x40010d, 0x400118, false, [0]),
    (0x40011d, 0x400120, false, [0]), (0x400200, 0x400208, false, [1]),
    (0x400040, 0x400040, false, [2])]
  [(0, 4, .directCall), (1, 3, .directCall), (1, 2, .callFt), (2, 4, .interDirectJmp),
    (3, 4, .interDirectJmp)]).markFunctionAsPlt 0x400040

theorem putsProgram_pltEntry : putsProgram.PltEntry 0x400040 2 4 := by
  constructor <;> decide +kernel

theorem putsProgram_libEntry : putsProgram.LibEntry 4 0x7f0000000040 := by
  have unknown : putsProgram.findFunction 0x7f0000000040 = none := by decide +kernel
  constructor
  · decide +kernel
  · simp [unknown]

-- The edge back to block 2 goes into the set that the innermost loop reads.
theorem jitAddPltGotEdge_returns_puts : putsProgram.ReturnSite 4 2 ∧
    ∃ lib g', (∃ enough, ∀ fuel ≥ enough,
        jitAddPltGotEdge fuel putsProgram 0x400040 0x7f0000000040 = .ok (some (g', 5))) ∧
      ∀ f, g'.ReturnSite 4 f → ∃ e > 5, g'.IsEdge e ∧ g'.edge e = retEdge lib f := by
  have count : putsProgram.edgeCount = 5 := by decide +kernel
  have distinct : Function.Injective putsProgram.edgeAddress := Function.injective_id
  obtain ⟨lib, g', run, -, -, -, -, -, sites⟩ := jitAddPltGotEdge_returns distinct
    putsProgram_pltEntry putsProgram_libEntry (by decide)
  rw [count] at run sites
  exact ⟨by decide +kernel, lib, g', run, sites⟩

end PathArmor.Analyzer

import PathArmor.Analyzer.StateFound

/-!
# The search for LBR states comes to an end

Each edge on a path lowers the number of edges that can still be added, as long as the laps of
direct edges are recognized by their signature.
-/

namespace PathArmor.Analyzer

namespace Cfg
open Dfs
variable {g : Cfg} {conf : LbrConfig} {f : FuncId} {dfs : Dfs} {e : EdgeId}
  {path : List EdgeId} {n : Nat} {root : BlockId}

variable (g) in
/-- `is_direct_cycle` returns 0 for "no cycle", so no lap may have the signature 0. -/
def LapsDetected : Prop :=
  ∀ root e path, g.BackPath root (e :: path) → g.Matched (e :: path) → g.LapFree path →
    edgeIsIndirect (g.edge e) = false → e ∈ g.directRun path → g.isDirectCycle e path ≠ 0

theorem LapFree.directRun_nodup (lapFree : g.LapFree path) : (g.directRun path).Nodup := by
  induction path with
  | nil => exact List.nodup_nil
  | cons e path ih =>
      cases indirect : edgeIsIndirect (g.edge e) with
      | true =>
          rw [directRun_indirect indirect]
          exact List.nodup_nil
      | false =>
          rw [directRun_direct indirect]
          exact List.nodup_cons.mpr ⟨lapFree.1 indirect, ih lapFree.2⟩

theorem BackPath.lt_edgeCount (leads : g.BackPath root path) : ∀ e ∈ path, e < g.edgeCount := by
  induction leads with
  | first entering =>
      intro e mem
      obtain rfl := List.mem_singleton.mp mem
      exact g.incoming_lt _ e entering
  | extend rest entering visible ih =>
      intro e mem
      rcases List.mem_cons.mp mem with rfl | earlier
      · exact g.incoming_lt _ e entering
      · exact ih e earlier

theorem length_directRun_le (leads : g.BackPath root path) (lapFree : g.LapFree path) :
    (g.directRun path).length ≤ g.edgeCount := by
  have below : g.directRun path ⊆ List.range g.edgeCount := by
    intro e mem
    exact List.mem_range.mpr (leads.lt_edgeCount e ((List.takeWhile_sublist _).mem mem))
  simpa using (List.subperm_of_subset lapFree.directRun_nodup below).length_le

variable (g conf) in
/-- How many more edges the path can get. -/
def budget (path : List EdgeId) : Nat :=
  (conf.windowSize - (g.recorded path).length) * (g.edgeCount + 1) - (g.directRun path).length

theorem budget_cons_lt (leads : g.BackPath root (e :: path)) (lapFree : g.LapFree (e :: path))
    (run : (g.directRun path).length ≤ g.edgeCount)
    (room : (g.recorded path).length < conf.windowSize) :
    g.budget conf (e :: path) < g.budget conf path := by
  obtain ⟨left, enough⟩ : ∃ left, conf.windowSize - (g.recorded path).length = left + 1 :=
    ⟨conf.windowSize - (g.recorded path).length - 1, by omega⟩
  have more := length_directRun_le leads lapFree
  unfold budget
  rw [enough, Nat.succ_mul]
  cases indirect : edgeIsIndirect (g.edge e) with
  | true =>
      have fewer : conf.windowSize - (g.recorded (e :: path)).length = left := by
        rw [recorded_indirect indirect, List.length_cons]
        omega
      rw [fewer, directRun_indirect indirect, List.length_nil]
      omega
  | false =>
      rw [directRun_direct indirect] at more ⊢
      rw [recorded_direct indirect, enough, Nat.succ_mul]
      rw [List.length_cons] at more ⊢
      omega

theorem exhausted_scheduleNext (e : EdgeId) (dfs : Dfs) :
    (g.scheduleNext conf e dfs).exhausted = dfs.exhausted := by
  unfold scheduleNext
  split_ifs
  · rw [scheduleNode_eq]
  · rfl

theorem search_pruned (detected : g.LapsDetected) (fuel : Nat) (tracks : g.Tracks path dfs)
    (leads : g.BackPath root (e :: path)) (matched : g.Matched (e :: path))
    (lapFree : g.LapFree path) (lap : ¬ g.LapFree (e :: path)) :
    g.searchInboundEdges conf (fuel + 1) e dfs = dfs := by
  simp only [LapFree, lapFree, and_true, Classical.not_imp, not_not] at lap
  obtain ⟨direct, again⟩ := lap
  have cycle := detected root e path leads matched lapFree direct again
  have visited : dfs.visited e ≠ 0 := by
    rw [tracks.visited]
    exact (List.count_pos_iff.mpr ((List.takeWhile_sublist _).mem again)).ne'
  simp [searchInboundEdges, tracks.blacklisted, searchDepth, tracks.edge, cycle, visited]

theorem Searching.running (detected : g.LapsDetected) (fuel : Nat)
    (searching : g.Searching conf f n root path dfs) (leads : g.BackPath root (e :: path))
    (matched : g.Matched (e :: path)) (room : (g.recorded path).length < conf.windowSize)
    (lapFree : g.LapFree path) (run : (g.directRun path).length ≤ g.edgeCount)
    (enough : g.budget conf path < fuel) (running : dfs.exhausted = false) :
    (g.searchInboundEdges conf fuel e dfs).exhausted = false := by
  induction fuel generalizing e path dfs with
  | zero => exact absurd enough (Nat.not_lt_zero _)
  | succ fuel ih =>
      by_cases clean : g.LapFree (e :: path)
      · rw [search_notPruned fuel searching.tracks clean]
        have entered := (searching.enter e).scheduleNext leads matched
        have still : (g.scheduleNext conf e (g.enterEdge e dfs)).exhausted = false := by
          rw [exhausted_scheduleNext]
          exact running
        change (g.searchFrom conf _ e _).exhausted = false
        unfold searchFrom
        split_ifs with ends
        · rwa [storeLbrState_eq]
        · refine (List.foldlRecOn (motive := fun dfs =>
            g.Searching conf f n root (e :: path) dfs ∧ dfs.exhausted = false) _ _
            ⟨entered, still⟩ ?_).2
          rintro dfs' ⟨searching', running'⟩ next mem
          rw [entered.tracks.len, not_or] at ends
          have room' := lt_of_le_of_ne (length_recorded_cons_le room e) ends.1
          have lower := budget_cons_lt leads clean run room
          refine searchEdge_rule (P := fun dfs => g.Searching conf f n root (e :: path) dfs ∧
            dfs.exhausted = false) searching'.tracks leads matched mem ⟨searching', running'⟩ ?_
          intro leads' matched'
          refine ⟨searching'.search fuel leads' matched' room', ?_⟩
          exact ih searching' leads' matched' room' clean (length_directRun_le leads clean)
            (by omega) running'
      · rwa [search_pruned detected fuel searching.tracks leads matched lapFree clean]

theorem Searching.nodeRunning (detected : g.LapsDetected) {depth : Nat}
    (searching : g.Searching conf f n root [] dfs) (enough : g.budget conf [] < depth)
    (running : dfs.exhausted = false) : (g.searchNode conf depth root dfs).exhausted = false := by
  refine (List.foldlRecOn (motive := fun dfs =>
    g.Searching conf f n root [] dfs ∧ dfs.exhausted = false) _ _ ⟨searching, running⟩ ?_).2
  rintro dfs' ⟨searching', running'⟩ e mem
  have leads : g.BackPath root [e] := .first mem
  have matched := matched_singleton (g := g) e
  refine ⟨searching'.search depth leads matched length_recorded_nil, ?_⟩
  exact searching'.running detected depth leads matched length_recorded_nil trivial
    (Nat.zero_le _) enough running'

variable (g) in
/-- The blocks in the queue and the edges whose targets can still get there. -/
def openBlocks (dfs : Dfs) : Nat :=
  dfs.searchQueue.length +
    ((List.range g.edgeCount).filter fun e => (dfs.whenScheduled (g.target e)).isNone).length

theorem openBlocks_schedule (isEdge : e < g.edgeCount) (dfs : Dfs) :
    g.openBlocks (dfs.scheduleNode (g.target e)) ≤ g.openBlocks dfs := by
  unfold scheduleNode
  split
  · exact Nat.le_refl _
  · rename_i unscheduled
    have narrower : (List.range g.edgeCount).filter (fun e' => (Function.update dfs.whenScheduled
          (g.target e) (some dfs.windowShift) (g.target e')).isNone) =
        ((List.range g.edgeCount).filter fun e' =>
          (dfs.whenScheduled (g.target e')).isNone).filter fun e' => g.target e' ≠ g.target e := by
      rw [List.filter_filter]
      apply List.filter_congr
      intro e' _
      by_cases same : g.target e' = g.target e
      · simp [same]
      · simp [same]
    have fewer : (List.filter (fun e' => decide (g.target e' ≠ g.target e))
        ((List.range g.edgeCount).filter fun e' =>
          (dfs.whenScheduled (g.target e')).isNone)).length < _ :=
      List.length_filter_lt_length_iff_exists.mpr ⟨e, by simp [isEdge, unscheduled], by simp⟩
    simp only [openBlocks, List.length_append, List.length_singleton, narrower]
    omega

theorem respected_openBlocks :
    g.Respected fun before after => g.openBlocks after ≤ g.openBlocks before where
  refl _ := Nat.le_refl _
  trans _ _ _ first second := Nat.le_trans second first
  enter _ _ := Nat.le_refl _
  leave _ _ := Nat.le_refl _
  store dfs := by
    rw [storeLbrState_eq]
    exact Nat.le_refl _
  schedule _ isEdge dfs := openBlocks_schedule isEdge dfs
  cutOff _ := Nat.le_refl _

theorem Between.running (detected : g.LapsDetected) {depth : Nat} (fuel : Nat)
    (between : g.Between conf f dfs) (enough : g.budget conf [] < depth)
    (rounds : g.openBlocks dfs ≤ fuel) (running : dfs.exhausted = false) :
    (g.searchNodes conf depth fuel dfs).exhausted = false := by
  induction fuel generalizing dfs with
  | zero =>
      have empty : dfs.searchQueue = [] := by
        rw [← List.length_eq_zero_iff]
        unfold openBlocks at rounds
        omega
      simpa [Cfg.searchNodes, empty] using running
  | succ fuel ih =>
      unfold Cfg.searchNodes
      split
      · exact running
      · rename_i bb queue queued
        obtain ⟨n, searching⟩ := between.next queued
        have searched := searching.searchNode depth
        have fewer : g.openBlocks (dfs.nextNode bb queue) + 1 = g.openBlocks dfs := by
          simp only [openBlocks, nextNode, queued, List.length_cons]
          omega
        have after : g.openBlocks (g.searchNode conf depth bb (dfs.nextNode bb queue)) ≤
            g.openBlocks (dfs.nextNode bb queue) := respected_openBlocks.searchNode depth bb _
        apply ih ⟨searched.tracks, searched.sound⟩ (by omega)
        exact searching.nodeRunning detected enough running

end Cfg

end PathArmor.Analyzer

import PathArmor.Analyzer.StateSearch

/-!
# What the search for LBR states finds

The search gives up a path when a direct edge would be taken again with only direct edges in
between. All other paths are followed to their end if the search as a whole comes to an end.
-/

namespace PathArmor.Analyzer
open PathArmor.Library

/-! ## What a search leaves as it is -/

namespace Dfs

/-- Nothing is lost, and blocks scheduled on the way are in the queue. -/
structure Grows (before after : Dfs) : Prop where
  states : before.stateSet ⊆ after.stateSet
  running : after.exhausted = false → before.exhausted = false
  scheduled : ∀ bb, before.whenScheduled bb ≠ none → after.whenScheduled bb ≠ none
  queued : ∀ bb, bb ∈ before.searchQueue → bb ∈ after.searchQueue
  fresh : ∀ bb, after.whenScheduled bb ≠ none →
    before.whenScheduled bb ≠ none ∨ bb ∈ after.searchQueue

variable {dfs dfs' dfs'' : Dfs}

theorem Grows.refl (dfs : Dfs) : Grows dfs dfs :=
  ⟨List.Subset.refl _, id, fun _ => id, fun _ => id, fun _ => .inl⟩

theorem Grows.trans (first : Grows dfs dfs') (second : Grows dfs' dfs'') : Grows dfs dfs'' := by
  refine ⟨List.Subset.trans first.states second.states, first.running ∘ second.running,
    fun bb => second.scheduled bb ∘ first.scheduled bb,
    fun bb => second.queued bb ∘ first.queued bb, fun bb scheduled => ?_⟩
  rcases second.fresh bb scheduled with before | queued
  · exact (first.fresh bb before).imp_right (second.queued bb)
  · exact .inr queued

theorem Grows.of_eq (states : dfs'.stateSet = dfs.stateSet)
    (running : dfs'.exhausted = dfs.exhausted ∨ dfs'.exhausted = true)
    (scheduled : dfs'.whenScheduled = dfs.whenScheduled)
    (queue : dfs'.searchQueue = dfs.searchQueue) : Grows dfs dfs' := by
  refine ⟨by rw [states]; exact List.Subset.refl _, fun still => ?_, ?_, ?_, ?_⟩
  · rcases running with same | exhausted
    · rwa [← same]
    · simp [exhausted] at still
  · rw [scheduled]
    exact fun _ => id
  · rw [queue]
    exact fun _ => id
  · rw [scheduled]
    exact fun _ => .inl

theorem Grows.store (dfs : Dfs) : Grows dfs dfs.storeLbrState := by
  unfold storeLbrState
  split_ifs
  · exact .refl dfs
  · exact .refl dfs
  · exact ⟨List.subset_append_left _ _, id, fun _ => id, fun _ => id, fun _ => .inl⟩

theorem Grows.schedule (dfs : Dfs) (bb : BlockId) : Grows dfs (dfs.scheduleNode bb) := by
  unfold scheduleNode
  split
  · exact .refl dfs
  · refine ⟨List.Subset.refl _, id, fun bb' scheduled => ?_, fun bb' => ?_, fun bb' scheduled => ?_⟩
    · rcases eq_or_ne bb' bb with rfl | other
      · simp
      · simpa [other] using scheduled
    · exact List.mem_append_left _
    · rcases eq_or_ne bb' bb with rfl | other
      · exact .inr (by simp)
      · exact .inl (by simpa [other] using scheduled)

theorem lbrState_mem_storeLbrState (notEmpty : dfs.len ≠ 0) :
    dfs.lbrState ∈ dfs.storeLbrState.stateSet := by
  unfold storeLbrState
  split_ifs with empty known
  · exact absurd empty notEmpty
  · exact known
  · exact List.mem_append_right _ (List.mem_singleton_self _)

end Dfs

namespace Cfg
open Dfs
variable {g : Cfg} {conf : LbrConfig} {f : FuncId} {dfs : Dfs} {e : EdgeId}
  {path : List EdgeId} {n : Nat} {root : BlockId}

theorem relates_foldl {R : Dfs → Dfs → Prop} (refl : ∀ dfs, R dfs dfs)
    (trans : ∀ dfs dfs' dfs'', R dfs dfs' → R dfs' dfs'' → R dfs dfs'')
    {step : Dfs → EdgeId → Dfs} {edges : List EdgeId}
    (steps : ∀ e ∈ edges, ∀ dfs, R dfs (step dfs e)) (dfs : Dfs) :
    R dfs (edges.foldl step dfs) := by
  induction edges generalizing dfs with
  | nil => exact refl dfs
  | cons e edges ih =>
      apply trans _ _ _ (steps e List.mem_cons_self dfs)
      exact ih (fun e later => steps e (List.mem_cons_of_mem _ later)) _

/-- A relation between states that every part of the search respects. -/
structure Respected (g : Cfg) (R : Dfs → Dfs → Prop) : Prop where
  refl : ∀ dfs, R dfs dfs
  trans : ∀ dfs dfs' dfs'', R dfs dfs' → R dfs' dfs'' → R dfs dfs''
  enter : ∀ e dfs, R dfs (g.enterEdge e dfs)
  leave : ∀ e dfs, R dfs (g.leaveEdge e dfs)
  store : ∀ dfs, R dfs dfs.storeLbrState
  schedule : ∀ e < g.edgeCount, ∀ dfs, R dfs (dfs.scheduleNode (g.target e))
  cutOff : ∀ dfs, R dfs { dfs with exhausted := true }

namespace Respected
variable {R : Dfs → Dfs → Prop}

theorem searchEdge (respected : g.Respected R) {recur : EdgeId → Dfs → Dfs}
    (recurs : R dfs (recur e dfs)) : R dfs (g.searchEdge recur dfs e) := by
  unfold Cfg.searchEdge
  split_ifs
  · exact respected.refl dfs
  · exact respected.refl dfs
  · exact recurs

theorem search (respected : g.Respected R) (fuel : Nat) (isEdge : e < g.edgeCount) (dfs : Dfs) :
    R dfs (g.searchInboundEdges conf fuel e dfs) := by
  induction fuel generalizing e dfs with
  | zero => exact respected.cutOff dfs
  | succ fuel ih =>
      unfold searchInboundEdges
      split_ifs
      · exact respected.refl dfs
      · exact respected.refl dfs
      · exact respected.refl dfs
      · apply respected.trans _ _ _ (respected.enter e dfs)
        refine respected.trans _ (g.scheduleNext conf e (g.enterEdge e dfs)) _ ?_ ?_
        · unfold scheduleNext
          split_ifs
          · exact respected.schedule e isEdge _
          · exact respected.refl _
        · refine respected.trans _ _ _ ?_ (respected.leave e _)
          unfold searchFrom
          split_ifs
          · exact respected.store _
          · apply relates_foldl respected.refl respected.trans
            intro next mem dfs'
            exact respected.searchEdge (ih (g.incoming_lt _ next mem) dfs')

theorem searchNode (respected : g.Respected R) (depth : Nat) (bb : BlockId) (dfs : Dfs) :
    R dfs (g.searchNode conf depth bb dfs) := by
  apply relates_foldl respected.refl respected.trans
  intro e mem dfs'
  exact respected.search depth (g.incoming_lt _ e mem) dfs'

end Respected

theorem respected_grows : g.Respected Grows where
  refl := .refl
  trans _ _ _ := .trans
  enter _ _ := .of_eq rfl (.inl rfl) rfl rfl
  leave _ _ := .of_eq rfl (.inl rfl) rfl rfl
  store := .store
  schedule e _ dfs := .schedule dfs (g.target e)
  cutOff _ := .of_eq rfl (.inr rfl) rfl rfl

/-! ## Paths without laps -/

variable (g) in
/-- The direct edges at the end of a path, up to the first recorded one. -/
def directRun (path : List EdgeId) : List EdgeId :=
  path.takeWhile fun e => !edgeIsIndirect (g.edge e)

variable (g) in
/-- No direct edge is taken again with only direct edges in between. -/
def LapFree : List EdgeId → Prop
  | [] => True
  | e :: path => (edgeIsIndirect (g.edge e) = false → e ∉ g.directRun path) ∧ LapFree path

theorem directRun_indirect (indirect : edgeIsIndirect (g.edge e)) (path : List EdgeId) :
    g.directRun (e :: path) = [] := List.takeWhile_cons_of_neg (by simp [indirect])

theorem directRun_direct (direct : edgeIsIndirect (g.edge e) = false) (path : List EdgeId) :
    g.directRun (e :: path) = e :: g.directRun path :=
  List.takeWhile_cons_of_pos (by simp [direct])

theorem mem_directRun_of_cycleSignature {sig : UInt64} (nonzero : g.cycleSignature e sig path ≠ 0) :
    e ∈ g.directRun path := by
  induction path generalizing sig with
  | nil => simp [cycleSignature] at nonzero
  | cons f path ih =>
      simp only [cycleSignature] at nonzero
      split_ifs at nonzero with indirect same
      · exact absurd rfl nonzero
      · rw [directRun_direct (by simpa using indirect), same]
        exact List.mem_cons_self
      · rw [directRun_direct (by simpa using indirect)]
        exact List.mem_cons_of_mem f (ih nonzero)

theorem lap_of_isDirectCycle (nonzero : g.isDirectCycle e path ≠ 0) :
    edgeIsIndirect (g.edge e) = false ∧ e ∈ g.directRun path := by
  unfold isDirectCycle at nonzero
  split_ifs at nonzero with indirect
  · exact absurd rfl nonzero
  · exact ⟨by simpa using indirect, mem_directRun_of_cycleSignature nonzero⟩

theorem BackPath.tail {next : EdgeId} (leads : g.BackPath root (next :: e :: path)) :
    g.BackPath root (e :: path) ∧ next ∈ g.incoming (g.source e) ∧
      (g.edge next).hidden = false := by
  cases leads with
  | extend rest entering visible => exact ⟨rest, entering, visible⟩

theorem BackPath.of_append {front : List EdgeId} (leads : g.BackPath root (front ++ e :: path)) :
    g.BackPath root (e :: path) := by
  induction front with
  | nil => exact leads
  | cons next front ih =>
      apply ih
      cases front with
      | nil => exact leads.tail.1
      | cons _ front => exact leads.tail.1

theorem LapFree.of_append {front : List EdgeId} (lapFree : g.LapFree (front ++ path)) :
    g.LapFree path := by
  induction front with
  | nil => exact lapFree
  | cons next front ih => exact ih lapFree.2

theorem Matched.of_append {front : List EdgeId} (matched : g.Matched (front ++ path)) :
    g.Matched path := by
  induction front with
  | nil => exact matched
  | cons next front ih => exact ih (matched_cons.mp matched).2

theorem length_recorded_le_append (front path : List EdgeId) :
    (g.recorded path).length ≤ (g.recorded (front ++ path)).length := by
  rw [recorded, recorded, List.filter_append, List.length_append]
  exact Nat.le_add_left _ _

/-! ## What is found from one block -/

variable (g conf) in
structure Found (root : BlockId) (whole : List EdgeId) : Prop where
  leads : g.BackPath root whole
  matched : g.Matched whole
  lapFree : g.LapFree whole
  room : (g.recorded whole.tail).length < conf.windowSize
  ends : g.Ends conf whole
  recorded : g.recorded whole ≠ []

theorem Found.room_of_append {front : List EdgeId} {next : EdgeId}
    (found : g.Found conf root (front ++ next :: path)) :
    (g.recorded path).length < conf.windowSize := by
  have room := found.room
  cases front with
  | nil => exact room
  | cons _ front =>
      refine lt_of_le_of_lt ?_ room
      simpa using length_recorded_le_append (g := g) (front ++ [next]) path

theorem search_notPruned (fuel : Nat) (tracks : g.Tracks path dfs)
    (lapFree : g.LapFree (e :: path)) :
    g.searchInboundEdges conf (fuel + 1) e dfs =
      g.leaveEdge e (g.searchFrom conf (g.searchInboundEdges conf fuel) e
        (g.scheduleNext conf e (g.enterEdge e dfs))) := by
  have noCycle : g.isDirectCycle e path = 0 := by
    by_contra nonzero
    obtain ⟨direct, lap⟩ := lap_of_isDirectCycle nonzero
    exact lapFree.1 direct lap
  simp [searchInboundEdges, tracks.blacklisted, searchDepth, tracks.edge, noCycle]

theorem searchEdge_eq {recur : EdgeId → Dfs → Dfs} {next : EdgeId} (tracks : g.Tracks path dfs)
    (visible : (g.edge next).hidden = false) (matched : g.Matched (next :: path)) :
    g.searchEdge recur dfs next = recur next dfs := by
  have traversable := (matched_cons.mp matched).1
  simp [searchEdge, edgeIsHidden, visible, tracks.edge, traversable]

theorem Searching.foldl (fuel : Nat) (searching : g.Searching conf f n root (e :: path) dfs)
    (leads : g.BackPath root (e :: path)) (matched : g.Matched (e :: path))
    (room : (g.recorded (e :: path)).length < conf.windowSize) {edges : List EdgeId}
    (entering : edges ⊆ g.incoming (g.source e)) :
    g.Searching conf f n root (e :: path)
      (edges.foldl (g.searchEdge (g.searchInboundEdges conf fuel)) dfs) := by
  apply List.foldlRecOn (motive := g.Searching conf f n root (e :: path)) _ _ searching
  intro dfs' searching' next mem
  refine searchEdge_rule searching'.tracks leads matched (entering mem) searching' ?_
  intro leads' matched'
  exact searching'.search fuel leads' matched' room

theorem lt_edgeCount_of_split {bb : BlockId} {before after : List EdgeId} {next later : EdgeId}
    (split : g.incoming bb = before ++ next :: after) (mem : later ∈ after) :
    later < g.edgeCount := by
  apply g.incoming_lt bb
  change later ∈ g.incoming bb
  rw [split]
  exact List.mem_append_right _ (List.mem_cons_of_mem _ mem)

theorem mem_foldl {step : Dfs → EdgeId → Dfs} {before after : List EdgeId} {state : List EdgeId}
    (grows : ∀ e ∈ after, ∀ dfs, Grows dfs (step dfs e))
    (running : ((before ++ e :: after).foldl step dfs).exhausted = false)
    (stored : (step (before.foldl step dfs) e).exhausted = false →
      state ∈ (step (before.foldl step dfs) e).stateSet) :
    state ∈ ((before ++ e :: after).foldl step dfs).stateSet := by
  rw [List.foldl_append, List.foldl_cons] at running ⊢
  have later := relates_foldl .refl (fun _ _ _ => .trans) grows (step (before.foldl step dfs) e)
  exact later.states (stored (later.running running))

theorem Searching.finds (fuel : Nat) (searching : g.Searching conf f n root path dfs)
    {front : List EdgeId} (found : g.Found conf root (front ++ e :: path))
    (running : (g.searchInboundEdges conf fuel e dfs).exhausted = false) :
    (g.recorded (front ++ e :: path)).reverse ∈
      (g.searchInboundEdges conf fuel e dfs).stateSet := by
  induction fuel generalizing e path dfs front with
  | zero => cases running
  | succ fuel ih =>
      have leads := found.leads.of_append
      have matched := found.matched.of_append
      rw [search_notPruned fuel searching.tracks found.lapFree.of_append] at running ⊢
      have entered := (searching.enter e).scheduleNext leads matched
      rcases List.eq_nil_or_concat' front with rfl | ⟨front, next, rfl⟩
      · -- the path ends here
        have ends : (g.scheduleNext conf e (g.enterEdge e dfs)).len = conf.windowSize ∨
            (g.incoming (g.source e)).length = 0 := by
          rw [entered.tracks.len, List.length_eq_zero_iff]
          exact found.ends
        have notEmpty : (g.scheduleNext conf e (g.enterEdge e dfs)).len ≠ 0 := by
          rw [entered.tracks.len, Ne, List.length_eq_zero_iff]
          exact found.recorded
        have stored := lbrState_mem_storeLbrState notEmpty
        rw [entered.tracks.lbr] at stored
        simp only [searchFrom, ends, if_true]
        exact stored
      · -- one of the rounds follows the path
        rw [List.append_assoc, List.singleton_append] at found ⊢
        have next_leads := found.leads.of_append
        obtain ⟨-, entering, visible⟩ := next_leads.tail
        have room := found.room_of_append
        have notEnds : ¬ ((g.scheduleNext conf e (g.enterEdge e dfs)).len = conf.windowSize ∨
            (g.incoming (g.source e)).length = 0) := by
          rw [entered.tracks.len, List.length_eq_zero_iff]
          rintro (full | deadEnd)
          · exact room.ne full
          · simp [deadEnd] at entering
        simp only [searchFrom, notEnds, if_false] at running ⊢
        obtain ⟨before, after, split⟩ := List.append_of_mem entering
        rw [split] at running ⊢
        have reached := entered.foldl fuel leads matched room
          (split ▸ List.subset_append_left before (next :: after))
        refine mem_foldl ?_ running ?_
        · intro later mem dfs'
          apply respected_grows.searchEdge
          exact respected_grows.search fuel (lt_edgeCount_of_split split mem) dfs'
        · rw [searchEdge_eq reached.tracks visible found.matched.of_append]
          exact ih reached found

theorem Searching.nodeFinds (depth : Nat) (searching : g.Searching conf f n root [] dfs)
    {whole : List EdgeId} (found : g.Found conf root whole)
    (running : (g.searchNode conf depth root dfs).exhausted = false) :
    (g.recorded whole).reverse ∈ (g.searchNode conf depth root dfs).stateSet := by
  rcases List.eq_nil_or_concat' whole with rfl | ⟨front, e, rfl⟩
  · cases found.leads
  · have entering : e ∈ g.incoming root := by
      cases found.leads.of_append with
      | first entering => exact entering
    obtain ⟨before, after, split⟩ := List.append_of_mem entering
    unfold Cfg.searchNode at running ⊢
    rw [split] at running ⊢
    refine mem_foldl ?_ running ?_
    · intro later mem dfs'
      exact respected_grows.search depth (lt_edgeCount_of_split split mem) dfs'
    · have reached : g.Searching conf f n root [] (before.foldl
          (fun dfs e => g.searchInboundEdges conf depth e dfs) dfs) := by
        apply List.foldlRecOn (motive := g.Searching conf f n root []) _ _ searching
        intro dfs' searching' first mem
        exact searching'.search depth (.first (by simp [split, mem])) (matched_singleton first)
          length_recorded_nil
      exact reached.finds depth found

/-! ## What is found from all blocks -/

variable (g conf) in
def Finished (bb : BlockId) (dfs : Dfs) : Prop :=
  ∀ whole, g.Found conf bb whole → (g.recorded whole).reverse ∈ dfs.stateSet

theorem searchNodes_running {depth fuel : Nat}
    (running : (g.searchNodes conf depth fuel dfs).exhausted = false) : dfs.exhausted = false := by
  induction fuel generalizing dfs with
  | zero =>
      unfold searchNodes at running
      split_ifs at running
      exact running
  | succ fuel ih =>
      unfold searchNodes at running
      split at running
      · exact running
      · rename_i bb queue _
        have grows : Grows (dfs.nextNode bb queue)
            (g.searchNode conf depth bb (dfs.nextNode bb queue)) :=
          respected_grows.searchNode depth bb _
        exact grows.running (ih running)

theorem Between.finishes (depth fuel : Nat) (between : g.Between conf f dfs)
    (settled : ∀ bb, dfs.whenScheduled bb ≠ none → bb ∈ dfs.searchQueue ∨ g.Finished conf bb dfs)
    (running : (g.searchNodes conf depth fuel dfs).exhausted = false) {bb : BlockId}
    (scheduled : dfs.whenScheduled bb ≠ none) :
    g.Finished conf bb (g.searchNodes conf depth fuel dfs) := by
  induction fuel generalizing dfs with
  | zero =>
      unfold Cfg.searchNodes at running ⊢
      split_ifs at running ⊢ with empty
      exact (settled bb scheduled).resolve_left (by simp [empty])
  | succ fuel ih =>
      unfold Cfg.searchNodes at running ⊢
      split at running <;> rename_i queued
      · exact (settled bb scheduled).resolve_left (by simp [queued])
      · rename_i first queue
        obtain ⟨n, searching⟩ := between.next queued
        have searched := searching.searchNode depth
        have grows : Grows (dfs.nextNode first queue)
            (g.searchNode conf depth first (dfs.nextNode first queue)) :=
          respected_grows.searchNode depth first _
        have ended := searchNodes_running running
        refine ih ⟨searched.tracks, searched.sound⟩ (fun bb' scheduled' => ?_) running
          (grows.scheduled bb scheduled)
        rcases grows.fresh bb' scheduled' with before | fresh
        · rcases settled bb' before with waiting | finished
          · rw [queued] at waiting
            rcases List.mem_cons.mp waiting with rfl | later
            · exact .inr fun whole found => searching.nodeFinds depth found ended
            · exact .inl (grows.queued bb' later)
          · exact .inr fun whole found => grows.states (finished whole found)
        · exact .inl fresh

end Cfg

end PathArmor.Analyzer

import PathArmor.Analyzer.StateComplete

/-!
# The bounds of the search for LBR states

The run of `get_func_lbr_states` is taken apart into the rounds of its queue and the calls of
`search_inbound_edges`, so that something can be said about every one of them.
-/

namespace PathArmor.Analyzer

namespace Cfg
open Dfs
variable (g : Cfg) (conf : LbrConfig) (fuel : Nat) (f : FuncId)

/-- The blocks `done` have been taken from the queue and searched. -/
inductive Dequeued : List BlockId → Dfs → Prop
  | start : Dequeued [] (g.scheduleEntries f)
  | next {done queue : List BlockId} {bb : BlockId} {dfs : Dfs} (earlier : Dequeued done dfs)
      (queued : dfs.searchQueue = bb :: queue) :
      Dequeued (done ++ [bb]) (g.searchNode conf fuel bb (dfs.nextNode bb queue))

structure Enters (e : EdgeId) (dfs : Dfs) : Prop where
  blacklisted : dfs.blacklisted e = false
  shallow : ¬ (0 < searchDepth ∧ searchDepth ≤ dfs.edge.length)
  noCycle : ¬ (dfs.visited e ≠ 0 ∧ g.isDirectCycle e dfs.edge ≠ 0)

/-- The state in which the edges that lead to the source of `e` are looked at. -/
def entered (e : EdgeId) (dfs : Dfs) : Dfs := g.scheduleNext conf e (g.enterEdge e dfs)

/-- `search_inbound_edges` is called for an edge. -/
inductive SearchCall : List BlockId → Nat → EdgeId → Dfs → Prop
  | root {done queue : List BlockId} {bb : BlockId} {dfs : Dfs} {before after : List EdgeId}
      {e : EdgeId} (dequeued : g.Dequeued conf fuel f done dfs)
      (queued : dfs.searchQueue = bb :: queue) (split : g.incoming bb = before ++ e :: after) :
      SearchCall (done ++ [bb]) fuel e
        (before.foldl (fun dfs e => g.searchInboundEdges conf fuel e dfs) (dfs.nextNode bb queue))
  | deeper {done : List BlockId} {depth : Nat} {e next : EdgeId} {dfs dfs' : Dfs}
      {before after : List EdgeId} (call : SearchCall done (depth + 1) e dfs)
      (enters : g.Enters e dfs)
      (goesOn : ¬ ((g.entered conf e dfs).len = conf.windowSize ∨
        (g.incoming (g.source e)).length = 0))
      (split : g.incoming (g.source e) = before ++ next :: after)
      (state : dfs' = before.foldl (g.searchEdge (g.searchInboundEdges conf depth))
        (g.entered conf e dfs))
      (visible : edgeIsHidden (g.edge next) = false)
      (traversable : g.edgeIsTraversable next dfs'.edge = true) :
      SearchCall done depth next dfs'

/-- What has been put into the queue so far, and the marks that keep it from being put there
again. -/
structure Pending (done : List BlockId) (dfs : Dfs) : Prop where
  nodup : (done ++ dfs.searchQueue).Nodup
  scheduled : ∀ bb ∈ done ++ dfs.searchQueue, dfs.whenScheduled bb ≠ none

variable {g conf fuel f} {done queue : List BlockId} {dfs : Dfs} {bb root : BlockId} {e : EdgeId}
  {path run : List EdgeId} {depth n : Nat}

/-! ## The queue -/

theorem Pending.schedule (pending : Pending done dfs) (bb : BlockId) :
    Pending done (dfs.scheduleNode bb) := by
  unfold scheduleNode
  split
  · exact pending
  · rename_i unscheduled
    have new : bb ∉ done ++ dfs.searchQueue := fun member =>
      pending.scheduled bb member unscheduled
    constructor
    · change (done ++ (dfs.searchQueue ++ [bb])).Nodup
      rw [← List.append_assoc]
      exact pending.nodup.append (List.nodup_singleton bb) (List.disjoint_singleton.mpr new)
    · intro bb' member
      change bb' ∈ done ++ (dfs.searchQueue ++ [bb]) at member
      rw [← List.append_assoc, List.mem_append, List.mem_singleton] at member
      rcases eq_or_ne bb' bb with rfl | other
      · simp
      · have before := member.resolve_right other
        simpa [other] using pending.scheduled bb' before

theorem Pending.next (pending : Pending done dfs) (queued : dfs.searchQueue = bb :: queue) :
    Pending (done ++ [bb]) (dfs.nextNode bb queue) := by
  obtain ⟨nodup, scheduled⟩ := pending
  rw [queued, List.append_cons] at nodup scheduled
  exact ⟨nodup, scheduled⟩

theorem respected_pending (done : List BlockId) :
    g.Respected fun before after => Pending done before → Pending done after where
  refl _ := id
  trans _ _ _ first second := second ∘ first
  enter _ _ pending := ⟨pending.nodup, pending.scheduled⟩
  leave _ _ pending := ⟨pending.nodup, pending.scheduled⟩
  store dfs pending := by
    rw [storeLbrState_eq]
    exact ⟨pending.nodup, pending.scheduled⟩
  schedule _ _ _ pending := pending.schedule _
  cutOff _ pending := ⟨pending.nodup, pending.scheduled⟩

theorem pending_scheduleEntries (f : FuncId) : Pending [] (g.scheduleEntries f) := by
  have nothing : Pending [] {} := ⟨List.nodup_nil, fun _ member => absurd member List.not_mem_nil⟩
  apply List.foldlRecOn (motive := Pending []) _ _ nothing
  exact fun _ pending bb _ => pending.schedule bb

theorem Dequeued.pending (dequeued : g.Dequeued conf fuel f done dfs) : Pending done dfs := by
  induction dequeued with
  | start => exact pending_scheduleEntries f
  | next earlier queued ih => exact (respected_pending _).searchNode fuel _ _ (ih.next queued)

theorem Dequeued.between (dequeued : g.Dequeued conf fuel f done dfs) : g.Between conf f dfs := by
  induction dequeued with
  | start => exact scheduleEntries_between f
  | next earlier queued ih =>
      obtain ⟨n, searching⟩ := ih.next queued
      have searched := searching.searchNode fuel
      exact ⟨searched.tracks, searched.sound⟩

/-! ## The calls -/

/-- Direct edges between two recorded ones are not repeated. -/
theorem LapFree.nodup_of_isInfix (lapFree : g.LapFree path) (isInfix : run <:+: path)
    (direct : ∀ x ∈ run, edgeIsIndirect (g.edge x) = false) : run.Nodup := by
  obtain ⟨front, back, rfl⟩ := isInfix
  rw [List.append_assoc] at lapFree
  replace lapFree := lapFree.of_append
  induction run with
  | nil => exact List.nodup_nil
  | cons x run ih =>
      have direct' : ∀ y ∈ run, edgeIsIndirect (g.edge y) = false :=
        fun y member => direct y (List.mem_cons_of_mem x member)
      have inRun : run ⊆ g.directRun (run ++ back) := by
        unfold directRun
        rw [List.takeWhile_append_of_pos fun y member => by simp [direct' y member]]
        exact List.subset_append_left run _
      refine List.nodup_cons.mpr ⟨fun again => ?_, ih direct' lapFree.2⟩
      exact lapFree.1 (direct x List.mem_cons_self) (inRun again)

theorem Enters.lapFree (enters : g.Enters e dfs) (detected : g.LapsDetected)
    (tracks : g.Tracks path dfs) (leads : g.BackPath root (e :: path))
    (matched : g.Matched (e :: path)) (lapFree : g.LapFree path) : g.LapFree (e :: path) := by
  refine ⟨fun direct again => ?_, lapFree⟩
  apply enters.noCycle
  constructor
  · rw [tracks.visited]
    exact (List.count_pos_iff.mpr ((List.takeWhile_sublist _).mem again)).ne'
  · rw [tracks.edge]
    exact detected root e path leads matched lapFree direct again

/-- What holds when `search_inbound_edges` is called for `e` at the end of `path`. -/
structure CallAt (g : Cfg) (conf : LbrConfig) (f : FuncId) (done : List BlockId) (e : EdgeId)
    (dfs : Dfs) (n : Nat) (root : BlockId) (path : List EdgeId) : Prop where
  searching : g.Searching conf f n root path dfs
  leads : g.BackPath root (e :: path)
  matched : g.Matched (e :: path)
  room : (g.recorded path).length < conf.windowSize
  lapFree : g.LapFree path
  pending : Pending done dfs

/-- The part of it that does not depend on the signatures of laps. -/
structure AtCall (g : Cfg) (conf : LbrConfig) (f : FuncId) (done : List BlockId) (e : EdgeId)
    (dfs : Dfs) (n : Nat) (root : BlockId) (path : List EdgeId) : Prop where
  searching : g.Searching conf f n root path dfs
  leads : g.BackPath root (e :: path)
  matched : g.Matched (e :: path)
  room : (g.recorded path).length < conf.windowSize
  pending : Pending done dfs

theorem AtCall.entered (call : g.AtCall conf f done e dfs n root path) :
    g.Searching conf f n root (e :: path) (g.entered conf e dfs) ∧
      Pending done (g.entered conf e dfs) := by
  refine ⟨(call.searching.enter e).scheduleNext call.leads call.matched, ?_⟩
  have pending := (respected_pending done).enter (g := g) e dfs call.pending
  unfold Cfg.entered scheduleNext
  split_ifs
  · exact pending.schedule _
  · exact pending

theorem CallAt.atCall (call : g.CallAt conf f done e dfs n root path) :
    g.AtCall conf f done e dfs n root path :=
  ⟨call.searching, call.leads, call.matched, call.room, call.pending⟩

theorem Searching.foldl_search (fuel : Nat) (searching : g.Searching conf f n root [] dfs)
    {edges : List EdgeId} (entering : edges ⊆ g.incoming root) :
    g.Searching conf f n root [] (edges.foldl (fun dfs e => g.searchInboundEdges conf fuel e dfs)
      dfs) := by
  apply List.foldlRecOn (motive := g.Searching conf f n root []) _ _ searching
  intro dfs' searching' e member
  exact searching'.search fuel (.first (entering member)) (matched_singleton e) length_recorded_nil

theorem SearchCall.atCall (call : g.SearchCall conf fuel f done depth e dfs) :
    ∃ n root path, g.AtCall conf f done e dfs n root path ∧ (g.LapsDetected → g.LapFree path) := by
  induction call with
  | @root done queue bb dfs before after e dequeued queued split =>
      obtain ⟨n, searching⟩ := dequeued.between.next queued
      have entering : before ⊆ g.incoming bb := by
        rw [split]
        exact List.subset_append_left _ _
      refine ⟨n, bb, [], ⟨searching.foldl_search fuel entering, .first ?_, matched_singleton e,
        length_recorded_nil, ?_⟩, fun _ => trivial⟩
      · rw [split]
        exact List.mem_append_right _ List.mem_cons_self
      · have kept := respected_pending (g := g) (done ++ [bb])
        apply relates_foldl kept.refl kept.trans _ _ (dequeued.pending.next queued)
        intro e' member dfs'
        exact kept.search fuel (g.incoming_lt _ e' (entering member)) dfs'
  | @deeper done depth e next dfs dfs' before after call enters goesOn split state visible
      traversable ih =>
      obtain ⟨n, root, path, here, lapFree⟩ := ih
      obtain ⟨searching, pending⟩ := here.entered
      have entering : before ⊆ g.incoming (g.source e) := by
        rw [split]
        exact List.subset_append_left _ _
      have room : (g.recorded (e :: path)).length < conf.windowSize := by
        rw [searching.tracks.len, not_or] at goesOn
        exact lt_of_le_of_ne (length_recorded_cons_le here.room e) goesOn.1
      have searching' := searching.foldl depth here.leads here.matched room entering
      rw [← state] at searching'
      rw [searching'.tracks.edge] at traversable
      refine ⟨n, root, e :: path, ⟨searching', .extend here.leads ?_ visible,
        matched_cons.mpr ⟨traversable, here.matched⟩, room, ?_⟩, fun detected => ?_⟩
      · rw [split]
        exact List.mem_append_right _ List.mem_cons_self
      · have kept := respected_pending (g := g) done
        rw [state]
        apply relates_foldl kept.refl kept.trans _ _ pending
        intro e' member dfs''
        exact kept.searchEdge (kept.search depth (g.incoming_lt _ e' (entering member)) dfs'')
      · exact enters.lapFree detected here.searching.tracks here.leads here.matched (lapFree detected)

theorem SearchCall.callAt (detected : g.LapsDetected)
    (call : g.SearchCall conf fuel f done depth e dfs) :
    ∃ n root path, g.CallAt conf f done e dfs n root path := by
  obtain ⟨n, root, path, here, lapFree⟩ := call.atCall
  exact ⟨n, root, path, here.searching, here.leads, here.matched, here.room, lapFree detected,
    here.pending⟩

/-- The search for LBR states comes to an end; no block is put into the queue twice, and whenever an
edge is entered, the path and the array of recorded edges have room for it. -/
theorem getFuncLbrStates_bounded (detected : g.LapsDetected) (conf : LbrConfig) (f : FuncId) :
    (∃ enough, ∀ fuel ≥ enough, ∀ dfs, g.getFuncLbrStates conf fuel f = some dfs →
      dfs.exhausted = false) ∧
    ∀ fuel,
      (∀ done dfs, g.Dequeued conf fuel f done dfs → (done ++ dfs.searchQueue).Nodup) ∧
      ∀ done depth e dfs, g.SearchCall conf fuel f done depth e dfs → g.Enters e dfs →
        dfs.len < conf.windowSize ∧
        (done ++ (g.entered conf e dfs).searchQueue).Nodup ∧
        (g.recorded (g.entered conf e dfs).edge).length ≤ conf.windowSize ∧
        ∀ run, run <:+: (g.entered conf e dfs).edge →
          (∀ x ∈ run, edgeIsIndirect (g.edge x) = false) → run.Nodup := by
  constructor
  · refine ⟨g.budget conf [] + 1 + g.openBlocks (g.scheduleEntries f), fun fuel enough dfs found => ?_⟩
    unfold getFuncLbrStates at found
    split_ifs at found
    obtain rfl := Option.some.inj found
    exact (scheduleEntries_between f).running detected fuel (by omega) (by omega)
      (scheduleEntries_running f)
  · intro fuel
    refine ⟨fun done dfs dequeued => dequeued.pending.nodup, fun done depth e dfs call enters => ?_⟩
    obtain ⟨n, root, path, here⟩ := call.callAt detected
    obtain ⟨searching, pending⟩ := here.atCall.entered
    have lapFree := enters.lapFree detected here.searching.tracks here.leads here.matched here.lapFree
    rw [here.searching.tracks.len, searching.tracks.edge]
    exact ⟨here.room, pending.nodup, length_recorded_cons_le here.room e,
      fun run isInfix direct => lapFree.nodup_of_isInfix isInfix direct⟩

theorem getFuncLbrStates_bounded_loopAndCall :
    (∃ enough, ∀ fuel ≥ enough, ∀ dfs, loopAndCall.getFuncLbrStates pairs fuel 0 = some dfs →
      dfs.exhausted = false) ∧
    ∃ dfs, loopAndCall.SearchCall pairs 9 0 [0] 9 0 dfs ∧ dfs.len < 2 := by
  have bounded := getFuncLbrStates_bounded loopAndCall_lapsDetected pairs 0
  have queued : (loopAndCall.scheduleEntries 0).searchQueue = 0 :: [] := by decide +kernel
  have split : loopAndCall.incoming 0 = [] ++ 0 :: [] := by decide +kernel
  have call : loopAndCall.SearchCall pairs 9 0 [0] 9 0 _ := .root .start queued split
  have enters : loopAndCall.Enters 0 (([] : List EdgeId).foldl
      (fun dfs e => loopAndCall.searchInboundEdges pairs 9 e dfs)
      ((loopAndCall.scheduleEntries 0).nextNode 0 [])) :=
    ⟨by decide +kernel, by decide +kernel, by decide +kernel⟩
  exact ⟨bounded.1, _, call, ((bounded.2 9).2 _ _ _ _ call enters).1⟩

/-! ## The index of `is_direct_cycle` -/

variable (g) in
/-- The loop of `is_direct_cycle` over `dfs->edge`, started with `sig`. The edges below the bound are
still to be looked at, and the index is the bound minus one: it wraps when the bound is 0, and the
loop does not end there. -/
def cycleLoop (e : EdgeId) (edges : List EdgeId) : Nat → UInt64 → Option UInt64
  | 0, _ => none
  | i + 1, sig =>
      match edges[i]? with
      | none => none
      | some f =>
          let sig := sig ^^^ xorshift (UInt64.ofNat (g.edgeAddress f))
          if edgeIsIndirect (g.edge f) then some 0
          else if f = e then some sig
          else cycleLoop e edges i sig

variable (g) in
/-- `is_direct_cycle` with its index; `none` if the index is lowered below 0. -/
def isDirectCycleByIndex (e : EdgeId) (edges : List EdgeId) : Option UInt64 :=
  if edgeIsIndirect (g.edge e) then some 0 else g.cycleLoop e edges edges.length 0xffffffff

theorem cycleLoop_of_mem {rest : List EdgeId} (stops : e ∈ rest) (later : List EdgeId)
    (sig : UInt64) :
    g.cycleLoop e (rest.reverse ++ later) rest.length sig = some (g.cycleSignature e sig rest) := by
  induction rest generalizing later sig with
  | nil => exact absurd stops List.not_mem_nil
  | cons f rest ih =>
      have here : ((f :: rest).reverse ++ later)[rest.length]? = some f := by simp
      simp only [List.length_cons, cycleLoop, here, cycleSignature]
      split_ifs with indirect same
      · rfl
      · rfl
      · have stops' : e ∈ rest := (List.mem_cons.mp stops).resolve_left (Ne.symm same)
        rw [List.reverse_cons, List.append_assoc]
        exact ih stops' (f :: later) _

theorem isDirectCycleByIndex_of_mem (stops : e ∈ path) :
    g.isDirectCycleByIndex e path.reverse = some (g.isDirectCycle e path) := by
  unfold isDirectCycleByIndex isDirectCycle
  split_ifs
  · rfl
  · have looped := cycleLoop_of_mem (g := g) stops [] 0xffffffff
    rwa [List.append_nil, ← List.length_reverse] at looped

theorem LapFree.count_le (lapFree : g.LapFree path) (x : EdgeId) :
    path.count x ≤ (g.recorded path).length + if x ∈ g.directRun path then 1 else 0 := by
  induction path with
  | nil => exact Nat.zero_le _
  | cons e path ih =>
      have before := ih lapFree.2
      cases indirect : edgeIsIndirect (g.edge e) with
      | true =>
          have notDirect : e ∉ g.directRun path := fun member => by
            simpa [indirect] using List.mem_takeWhile_imp member
          rw [recorded_indirect indirect, directRun_indirect indirect, List.length_cons]
          rcases eq_or_ne e x with rfl | other
          · rw [if_neg notDirect] at before
            simpa using before
          · rw [List.count_cons_of_ne other]
            split_ifs at before <;> simp <;> omega
      | false =>
          rw [recorded_direct indirect, directRun_direct indirect]
          rcases eq_or_ne e x with rfl | other
          · rw [if_neg (lapFree.1 indirect)] at before
            simpa using before
          · simpa [List.count_cons_of_ne other, other.symm] using before

/-- Whenever `search_inbound_edges` is called, the counters and the recorded edges belong to the path
in `dfs->edge`, so that the index of `is_direct_cycle` stays above 0 where it is called. The counters
do not exceed the window as long as laps are recognized. -/
theorem searchInboundEdges_bookkeeping (call : g.SearchCall conf fuel f done depth e dfs) :
    (∀ x, dfs.visited x = dfs.edge.reverse.count x) ∧
    dfs.lbrState = g.recorded dfs.edge.reverse ∧
    (dfs.visited e ≠ 0 →
      g.isDirectCycleByIndex e dfs.edge.reverse = some (g.isDirectCycle e dfs.edge)) ∧
    (g.LapsDetected → ∀ x, dfs.visited x ≤ conf.windowSize) := by
  obtain ⟨n, root, path, here, lapFree⟩ := call.atCall
  obtain ⟨rfl, lbr, visited, -⟩ := here.searching.tracks
  refine ⟨fun x => ?_, ?_, fun again => ?_, fun detected x => ?_⟩
  · rw [visited, List.count_reverse]
  · rw [lbr, recorded, recorded, List.filter_reverse]
  · rw [visited] at again
    exact isDirectCycleByIndex_of_mem (List.count_pos_iff.mp (Nat.pos_of_ne_zero again))
  · have bound := (lapFree detected).count_le x
    have room := here.room
    rw [visited]
    split_ifs at bound <;> omega

/-- The block that jumps to itself is left through its jump and entered again. -/
theorem searchInboundEdges_bookkeeping_loopAndCall :
    ∃ dfs, loopAndCall.SearchCall pairs 9 0 [0] 7 1 dfs ∧ dfs.visited 1 = 1 ∧
      loopAndCall.isDirectCycleByIndex 1 dfs.edge.reverse ≠ none := by
  have queued : (loopAndCall.scheduleEntries 0).searchQueue = 0 :: [] := by decide +kernel
  have toCall : loopAndCall.incoming 0 = [] ++ 0 :: [] := by decide +kernel
  have toLoop : loopAndCall.incoming 1 = [] ++ 1 :: [2] := by decide +kernel
  have call : loopAndCall.SearchCall pairs 9 0 [0] 9 0 _ := .root .start queued toCall
  have loop := SearchCall.deeper call ⟨by decide +kernel, by decide +kernel, by decide +kernel⟩
    (by decide +kernel) toLoop rfl (by decide +kernel) (by decide +kernel)
  have again := SearchCall.deeper loop ⟨by decide +kernel, by decide +kernel, by decide +kernel⟩
    (by decide +kernel) toLoop rfl (by decide +kernel) (by decide +kernel)
  refine ⟨_, again, by decide +kernel, ?_⟩
  rw [(searchInboundEdges_bookkeeping again).2.2.1 (by decide +kernel)]
  exact Option.some_ne_none _

end Cfg

end PathArmor.Analyzer

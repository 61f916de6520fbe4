import PathArmor.Analyzer.BackwardMatching

/-!
# The search for LBR states

For a library function on the blacklist, `get_func_lbr_states` follows the edges backwards from the
blocks where it is entered and stores the sequences of recorded branches it finds. Direct calls are
not among them. `DFSState` is passed on explicitly; the path in `edge`, `lbr_edge` and `visited` is
undone on the way back. `exhausted` is not in the sources: the recursion or the queue was cut off
because the fuel of the model was used up.
-/

namespace PathArmor.Analyzer
open PathArmor.Library

def searchDepth : Nat := 0

structure LbrConfig where
  blacklist : List String :=
    ["execve", "execl", "execlp", "execle", "execv", "execvp", "execvpe", "fexecve", "mprotect",
      "mmap", "mmap64", "system", "syscall", "raise", "kill", "pthread_kill", "tkill", "tgkill",
      "sigaction", "signal"]
  windowSize : Nat
  windowSize_gt : 1 < windowSize
  windowSize_le : windowSize ≤ lbrSize

def LbrConfig.isBlacklisted (conf : LbrConfig) (name : String) : Bool :=
  conf.blacklist.contains name

structure Dfs where
  lbrEdge : Nat → EdgeId := fun _ => 0
  len : Nat := 0
  edge : List EdgeId := [] -- the edge added last is in front
  stateSet : List (List EdgeId) := []
  windowShift : Nat := 0
  searchQueue : List BlockId := []
  whenScheduled : BlockId → Option Nat := fun _ => none
  visited : EdgeId → Nat := fun _ => 0
  blacklisted : EdgeId → Bool := fun _ => false
  exhausted : Bool := false

namespace Dfs

def lbrState (dfs : Dfs) : List EdgeId := (List.range dfs.len).map dfs.lbrEdge

def storeLbrState (dfs : Dfs) : Dfs :=
  if dfs.len = 0 then dfs
  else if dfs.lbrState ∈ dfs.stateSet then dfs
  else { dfs with stateSet := dfs.stateSet ++ [dfs.lbrState] }

def scheduleNode (dfs : Dfs) (bb : BlockId) : Dfs :=
  match dfs.whenScheduled bb with
  | some _ => dfs
  | none => { dfs with
      searchQueue := dfs.searchQueue ++ [bb]
      whenScheduled := Function.update dfs.whenScheduled bb (some dfs.windowShift) }

/-- The block in front of the queue is taken from it. It has been scheduled. -/
def nextNode (dfs : Dfs) (bb : BlockId) (queue : List BlockId) : Dfs :=
  { dfs with
    searchQueue := queue
    windowShift := (dfs.whenScheduled bb).getD 0 + 1 }

theorem storeLbrState_eq (dfs : Dfs) :
    dfs.storeLbrState = { dfs with stateSet := dfs.storeLbrState.stateSet } := by
  unfold storeLbrState
  split_ifs <;> rfl

theorem scheduleNode_eq (dfs : Dfs) (bb : BlockId) : dfs.scheduleNode bb = { dfs with
    searchQueue := (dfs.scheduleNode bb).searchQueue
    whenScheduled := (dfs.scheduleNode bb).whenScheduled } := by
  unfold scheduleNode
  split <;> rfl

theorem scheduleNode_scheduled {dfs : Dfs} (bb : BlockId) {bb' : BlockId} {n : Nat}
    (scheduled : dfs.whenScheduled bb' = some n) :
    (dfs.scheduleNode bb).whenScheduled bb' = some n := by
  unfold scheduleNode
  split
  · exact scheduled
  · rename_i unscheduled
    have other : bb' ≠ bb := by
      rintro rfl
      simp [unscheduled] at scheduled
    simpa [other] using scheduled

end Dfs

/-- One round of Marsaglia's xorshift. -/
def xorshift (s : UInt64) : UInt64 :=
  let s := s ^^^ (s >>> 12)
  let s := s ^^^ (s <<< 25)
  let s := s ^^^ (s >>> 27)
  s * 2685821657736338717

namespace Cfg
variable (g : Cfg)

/-- The loop of `is_direct_cycle`. It is started only if `e` is among the edges, so it does not run
past the last one. -/
def cycleSignature (e : EdgeId) : UInt64 → List EdgeId → UInt64
  | _, [] => 0
  | sig, f :: edges =>
      let sig := sig ^^^ xorshift (UInt64.ofNat (g.edgeAddress f))
      if edgeIsIndirect (g.edge f) then 0
      else if f = e then sig
      else cycleSignature e sig edges

def isDirectCycle (e : EdgeId) (edges : List EdgeId) : UInt64 :=
  if edgeIsIndirect (g.edge e) then 0 else g.cycleSignature e 0xffffffff edges

def enterEdge (e : EdgeId) (dfs : Dfs) : Dfs :=
  let indirect := edgeIsIndirect (g.edge e)
  { dfs with
    lbrEdge := if indirect then Function.update dfs.lbrEdge dfs.len e else dfs.lbrEdge
    len := if indirect then dfs.len + 1 else dfs.len
    visited := Function.update dfs.visited e (dfs.visited e + 1)
    edge := e :: dfs.edge }

def leaveEdge (e : EdgeId) (dfs : Dfs) : Dfs :=
  { dfs with
    edge := dfs.edge.tail
    visited := Function.update dfs.visited e (dfs.visited e - 1)
    len := if edgeIsIndirect (g.edge e) then dfs.len - 1 else dfs.len }

variable (conf : LbrConfig)

/-- The first edge of the next search overlaps with the last one of this search. -/
def scheduleNext (e : EdgeId) (dfs : Dfs) : Dfs :=
  if dfs.len = conf.windowSize ∧ 1 + dfs.windowShift * (conf.windowSize - 1) < lbrSize then
    dfs.scheduleNode (g.target e)
  else dfs

def searchEdge (recur : EdgeId → Dfs → Dfs) (dfs : Dfs) (f : EdgeId) : Dfs :=
  if edgeIsHidden (g.edge f) then dfs
  else if !g.edgeIsTraversable f dfs.edge then dfs
  else recur f dfs

/-- What happens while `e` is on the path. -/
def searchFrom (recur : EdgeId → Dfs → Dfs) (e : EdgeId) (dfs : Dfs) : Dfs :=
  if dfs.len = conf.windowSize ∨ (g.incoming (g.source e)).length = 0 then dfs.storeLbrState
  else (g.incoming (g.source e)).foldl (g.searchEdge recur) dfs

def searchInboundEdges : Nat → EdgeId → Dfs → Dfs
  | 0, _, dfs => { dfs with exhausted := true }
  | fuel + 1, e, dfs =>
      if dfs.blacklisted e then dfs
      else if 0 < searchDepth ∧ searchDepth ≤ dfs.edge.length then dfs
      else if dfs.visited e ≠ 0 ∧ g.isDirectCycle e dfs.edge ≠ 0 then dfs
      else
        let dfs := g.scheduleNext conf e (g.enterEdge e dfs)
        g.leaveEdge e (g.searchFrom conf (searchInboundEdges fuel) e dfs)

def searchNode (depth : Nat) (bb : BlockId) (dfs : Dfs) : Dfs :=
  (g.incoming bb).foldl (fun dfs e => g.searchInboundEdges conf depth e dfs) dfs

/-- The loop over the queue. -/
def searchNodes (depth : Nat) : Nat → Dfs → Dfs
  | 0, dfs => if dfs.searchQueue = [] then dfs else { dfs with exhausted := true }
  | fuel + 1, dfs =>
      match dfs.searchQueue with
      | [] => dfs
      | bb :: queue => searchNodes depth fuel (g.searchNode conf depth bb (dfs.nextNode bb queue))

def scheduleEntries (f : FuncId) : Dfs := (g.func f).entryPoints.foldl Dfs.scheduleNode {}

/-- The states of other functions are not searched for. -/
def getFuncLbrStates (fuel : Nat) (f : FuncId) : Option Dfs :=
  if !(g.func f).isLibDummy then none
  else if !conf.isBlacklisted (g.func f).funname then none
  else some (g.searchNodes conf fuel fuel (g.scheduleEntries f))

/-! ## What the states are -/

def recorded (path : List EdgeId) : List EdgeId := path.filter fun e => edgeIsIndirect (g.edge e)

/-- Edges that lead to `root` one after the other, in the order of time. Whether the last one is
hidden is not looked at. -/
inductive BackPath (root : BlockId) : List EdgeId → Prop
  | first {e : EdgeId} (entering : e ∈ g.incoming root) : BackPath root [e]
  | extend {e f : EdgeId} {path : List EdgeId} (rest : BackPath root (e :: path))
      (entering : f ∈ g.incoming (g.source e)) (visible : (g.edge f).hidden = false) :
      BackPath root (f :: e :: path)

/-- The blocks searches start from, with the number of searches before. -/
inductive Root (f : FuncId) : Nat → BlockId → Prop
  | entry {b : BlockId} (isEntry : b ∈ (g.func f).entryPoints) : Root f 0 b
  | next {n : Nat} {b : BlockId} {e : EdgeId} {path : List EdgeId} (earlier : Root f n b)
      (leads : g.BackPath b (e :: path)) (matched : g.Matched (e :: path))
      (full : (g.recorded (e :: path)).length = conf.windowSize)
      (reached : 1 + (n + 1) * (conf.windowSize - 1) < lbrSize) : Root f (n + 1) (g.target e)

/-- The path ends where the window is full or where no edge leads to. -/
def Ends : List EdgeId → Prop
  | [] => False
  | e :: path =>
      (g.recorded (e :: path)).length = conf.windowSize ∨ g.incoming (g.source e) = []

/-- The recorded branches, the newest first, of a path to one of the blocks `scheduled`. -/
def IsState (scheduled : BlockId → Option Nat) (state : List EdgeId) : Prop :=
  (0 < state.length ∧ state.length ≤ conf.windowSize) ∧
    ∃ root path, scheduled root ≠ none ∧ g.BackPath root path ∧ g.Matched path ∧
      g.Ends conf path ∧ state = (g.recorded path).reverse

/-- The part of the state that is undone on the way back. -/
structure Tracks (path : List EdgeId) (dfs : Dfs) : Prop where
  edge : dfs.edge = path
  lbr : dfs.lbrState = (g.recorded path).reverse
  visited : ∀ e, dfs.visited e = path.count e
  blacklisted : ∀ e, dfs.blacklisted e = false

/-- The part of the state that grows. -/
structure SoundDfs (f : FuncId) (dfs : Dfs) : Prop where
  states : ∀ state ∈ dfs.stateSet, g.IsState conf dfs.whenScheduled state
  roots : ∀ bb n, dfs.whenScheduled bb = some n → g.Root conf f n bb
  queue : ∀ bb ∈ dfs.searchQueue, dfs.whenScheduled bb ≠ none

variable {g conf} {f : FuncId} {dfs : Dfs} {e : EdgeId} {path : List EdgeId} {n : Nat}
  {root : BlockId}

theorem recorded_indirect (indirect : edgeIsIndirect (g.edge e)) (path : List EdgeId) :
    g.recorded (e :: path) = e :: g.recorded path := List.filter_cons_of_pos indirect

theorem recorded_direct (direct : edgeIsIndirect (g.edge e) = false) (path : List EdgeId) :
    g.recorded (e :: path) = g.recorded path := List.filter_cons_of_neg (by simp [direct])

theorem Tracks.len (tracks : g.Tracks path dfs) : dfs.len = (g.recorded path).length := by
  have length := congrArg List.length tracks.lbr
  simpa [Dfs.lbrState] using length

theorem Tracks.enter (tracks : g.Tracks path dfs) (e : EdgeId) :
    g.Tracks (e :: path) (g.enterEdge e dfs) := by
  refine ⟨congrArg (e :: ·) tracks.edge, ?_, fun e' => ?_, tracks.blacklisted⟩
  · cases indirect : edgeIsIndirect (g.edge e) with
    | true =>
        have kept : (List.range dfs.len).map (Function.update dfs.lbrEdge dfs.len e) =
            dfs.lbrState := by
          apply List.map_congr_left
          intro k mem
          exact Function.update_of_ne (List.mem_range.mp mem).ne _ _
        simp only [Dfs.lbrState, enterEdge, indirect, if_true, List.range_succ, List.map_append,
          List.map_singleton, Function.update_self, kept]
        rw [recorded_indirect indirect, List.reverse_cons, ← tracks.lbr]
        rfl
    | false =>
        rw [recorded_direct indirect, ← tracks.lbr]
        simp [Dfs.lbrState, enterEdge, indirect]
  · rcases eq_or_ne e' e with rfl | other
    · simp [enterEdge, tracks.visited]
    · simp [enterEdge, tracks.visited, other, List.count_cons_of_ne other.symm]

theorem Tracks.leave (tracks : g.Tracks (e :: path) dfs) : g.Tracks path (g.leaveEdge e dfs) := by
  refine ⟨congrArg List.tail tracks.edge, ?_, fun e' => ?_, tracks.blacklisted⟩
  · have lbr := tracks.lbr
    have len := tracks.len
    cases indirect : edgeIsIndirect (g.edge e) with
    | true =>
        rw [recorded_indirect indirect] at lbr len
        obtain ⟨below, counted⟩ : ∃ below, dfs.len = below + 1 := ⟨_, len⟩
        rw [Dfs.lbrState, counted, List.range_succ, List.map_append, List.reverse_cons] at lbr
        have prefixes := (List.append_inj' lbr rfl).1
        simpa [Dfs.lbrState, leaveEdge, indirect, counted] using prefixes
    | false =>
        rw [recorded_direct indirect] at lbr
        rw [← lbr]
        simp [Dfs.lbrState, leaveEdge, indirect]
  · rcases eq_or_ne e' e with rfl | other
    · simp [leaveEdge, tracks.visited]
    · simp [leaveEdge, tracks.visited, other, List.count_cons_of_ne other.symm]

theorem Tracks.of_eq {dfs' : Dfs} (tracks : g.Tracks path dfs) (edge : dfs'.edge = dfs.edge)
    (lbr : dfs'.lbrState = dfs.lbrState) (visited : dfs'.visited = dfs.visited)
    (blacklisted : dfs'.blacklisted = dfs.blacklisted) : g.Tracks path dfs' :=
  ⟨edge.trans tracks.edge, lbr.trans tracks.lbr, visited ▸ tracks.visited,
    blacklisted ▸ tracks.blacklisted⟩

theorem length_recorded_cons_le (room : (g.recorded path).length < conf.windowSize) (e : EdgeId) :
    (g.recorded (e :: path)).length ≤ conf.windowSize := by
  cases indirect : edgeIsIndirect (g.edge e) with
  | true =>
      rw [recorded_indirect indirect]
      exact room
  | false =>
      rw [recorded_direct indirect]
      exact room.le

theorem SoundDfs.schedule (sound : g.SoundDfs conf f dfs) {bb : BlockId}
    (isRoot : g.Root conf f dfs.windowShift bb) : g.SoundDfs conf f (dfs.scheduleNode bb) := by
  unfold Dfs.scheduleNode
  split
  · exact sound
  · rename_i unscheduled
    refine ⟨fun state mem => ?_, fun bb' n scheduled => ?_, fun bb' queued => ?_⟩
    · obtain ⟨length, root, path, scheduled, rest⟩ := sound.states state mem
      refine ⟨length, root, path, ?_, rest⟩
      have other : root ≠ bb := by
        rintro rfl
        exact scheduled unscheduled
      simpa [other] using scheduled
    · rcases eq_or_ne bb' bb with rfl | other
      · obtain rfl : dfs.windowShift = n := by simpa using scheduled
        exact isRoot
      · exact sound.roots bb' n (by simpa [other] using scheduled)
    · rcases eq_or_ne bb' bb with rfl | other
      · simp
      · have before : bb' ∈ dfs.searchQueue := by simpa [other] using queued
        simpa [other] using sound.queue bb' before

theorem SoundDfs.store (sound : g.SoundDfs conf f dfs)
    (isState : dfs.len ≠ 0 → g.IsState conf dfs.whenScheduled dfs.lbrState) :
    g.SoundDfs conf f dfs.storeLbrState := by
  unfold Dfs.storeLbrState
  split_ifs with empty known
  · exact sound
  · exact sound
  · refine ⟨fun state mem => ?_, sound.roots, sound.queue⟩
    rcases List.mem_append.mp mem with before | new
    · exact sound.states state before
    · obtain rfl := List.mem_singleton.mp new
      exact isState empty

theorem searchEdge_rule {P : Dfs → Prop} {recur : EdgeId → Dfs → Dfs}
    (tracks : g.Tracks (e :: path) dfs) (leads : g.BackPath root (e :: path))
    (matched : g.Matched (e :: path)) {next : EdgeId} (entering : next ∈ g.incoming (g.source e))
    (kept : P dfs) (recurs : g.BackPath root (next :: e :: path) →
      g.Matched (next :: e :: path) → P (recur next dfs)) :
    P (g.searchEdge recur dfs next) := by
  unfold searchEdge
  split_ifs with hidden notTraversable
  · exact kept
  · exact kept
  · have visible : (g.edge next).hidden = false := by simpa [edgeIsHidden] using hidden
    have traversable : g.edgeIsTraversable next (e :: path) = true := by
      simpa [tracks.edge] using notTraversable
    exact recurs (.extend leads entering visible) (matched_cons.mpr ⟨traversable, matched⟩)

variable (g conf) in
/-- The search from `root` is at the end of `path`. -/
structure Searching (f : FuncId) (n : Nat) (root : BlockId) (path : List EdgeId) (dfs : Dfs) :
    Prop where
  scheduled : dfs.whenScheduled root = some n
  shift : dfs.windowShift = n + 1
  tracks : g.Tracks path dfs
  sound : g.SoundDfs conf f dfs

namespace Searching

theorem isRoot (searching : g.Searching conf f n root path dfs) : g.Root conf f n root :=
  searching.sound.roots root n searching.scheduled

theorem enter (searching : g.Searching conf f n root path dfs) (e : EdgeId) :
    g.Searching conf f n root (e :: path) (g.enterEdge e dfs) :=
  ⟨searching.scheduled, searching.shift, searching.tracks.enter e,
    ⟨searching.sound.states, searching.sound.roots, searching.sound.queue⟩⟩

theorem leave (searching : g.Searching conf f n root (e :: path) dfs) :
    g.Searching conf f n root path (g.leaveEdge e dfs) :=
  ⟨searching.scheduled, searching.shift, searching.tracks.leave,
    ⟨searching.sound.states, searching.sound.roots, searching.sound.queue⟩⟩

theorem scheduleNext (searching : g.Searching conf f n root (e :: path) dfs)
    (leads : g.BackPath root (e :: path)) (matched : g.Matched (e :: path)) :
    g.Searching conf f n root (e :: path) (g.scheduleNext conf e dfs) := by
  unfold Cfg.scheduleNext
  split_ifs with full
  · obtain ⟨len, reached⟩ := full
    rw [searching.tracks.len] at len
    rw [searching.shift] at reached
    have isRoot : g.Root conf f dfs.windowShift (g.target e) := by
      rw [searching.shift]
      exact .next searching.isRoot leads matched len reached
    refine ⟨?_, ?_, ?_, searching.sound.schedule isRoot⟩
    · exact Dfs.scheduleNode_scheduled _ searching.scheduled
    · rw [Dfs.scheduleNode_eq]
      exact searching.shift
    · rw [Dfs.scheduleNode_eq]
      exact searching.tracks.of_eq rfl rfl rfl rfl
  · exact searching

theorem store (searching : g.Searching conf f n root path dfs)
    (isState : dfs.len ≠ 0 → g.IsState conf dfs.whenScheduled dfs.lbrState) :
    g.Searching conf f n root path dfs.storeLbrState := by
  have sound := searching.sound.store isState
  rw [Dfs.storeLbrState_eq] at sound ⊢
  exact ⟨searching.scheduled, searching.shift, searching.tracks.of_eq rfl rfl rfl rfl, sound⟩

theorem storeEnd (searching : g.Searching conf f n root (e :: path) dfs)
    (leads : g.BackPath root (e :: path)) (matched : g.Matched (e :: path))
    (room : (g.recorded path).length < conf.windowSize)
    (ends : dfs.len = conf.windowSize ∨ (g.incoming (g.source e)).length = 0) :
    g.Searching conf f n root (e :: path) dfs.storeLbrState := by
  apply searching.store
  intro notEmpty
  have length : dfs.lbrState.length = dfs.len := by simp [Dfs.lbrState]
  refine ⟨⟨by omega, ?_⟩, root, e :: path, by simp [searching.scheduled], leads, matched, ?_,
    searching.tracks.lbr⟩
  · rw [length, searching.tracks.len]
    exact length_recorded_cons_le room e
  · rcases ends with full | deadEnd
    · exact .inl (searching.tracks.len ▸ full)
    · exact .inr (List.length_eq_zero_iff.mp deadEnd)

theorem search (fuel : Nat) (searching : g.Searching conf f n root path dfs)
    (leads : g.BackPath root (e :: path)) (matched : g.Matched (e :: path))
    (room : (g.recorded path).length < conf.windowSize) :
    g.Searching conf f n root path (g.searchInboundEdges conf fuel e dfs) := by
  induction fuel generalizing e path dfs with
  | zero =>
      exact ⟨searching.scheduled, searching.shift, searching.tracks.of_eq rfl rfl rfl rfl,
        ⟨searching.sound.states, searching.sound.roots, searching.sound.queue⟩⟩
  | succ fuel ih =>
      unfold searchInboundEdges
      split_ifs
      · exact searching
      · exact searching
      · exact searching
      · have entered := (searching.enter e).scheduleNext leads matched
        apply leave
        unfold searchFrom
        split_ifs with ends
        · exact entered.storeEnd leads matched room ends
        · apply List.foldlRecOn (motive := g.Searching conf f n root (e :: path)) _ _ entered
          intro dfs' searching' next mem
          refine searchEdge_rule searching'.tracks leads matched mem searching' ?_
          intro leads' matched'
          apply ih searching' leads' matched'
          rw [entered.tracks.len, not_or] at ends
          exact lt_of_le_of_ne (length_recorded_cons_le room e) ends.1

end Searching

theorem matched_nil : g.Matched [] := traversableBackwards_iff.mp rfl

theorem matched_singleton (e : EdgeId) : g.Matched [e] := by
  refine matched_cons.mpr ⟨?_, matched_nil⟩
  unfold edgeIsTraversable
  split_ifs
  · rfl
  · rfl

theorem length_recorded_nil : (g.recorded []).length < conf.windowSize :=
  Nat.lt_of_succ_lt conf.windowSize_gt

/-! ## The queue -/

variable (g conf) in
structure Between (f : FuncId) (dfs : Dfs) : Prop where
  tracks : g.Tracks [] dfs
  sound : g.SoundDfs conf f dfs

theorem Between.next (between : g.Between conf f dfs) {bb : BlockId} {queue : List BlockId}
    (queued : dfs.searchQueue = bb :: queue) :
    ∃ n, g.Searching conf f n bb [] (dfs.nextNode bb queue) := by
  cases scheduled : dfs.whenScheduled bb with
  | none => exact absurd scheduled (between.sound.queue bb (by simp [queued]))
  | some n =>
      refine ⟨n, scheduled, by simp [Dfs.nextNode, scheduled], between.tracks.of_eq rfl rfl rfl rfl,
        between.sound.states, between.sound.roots, fun bb' later => ?_⟩
      exact between.sound.queue bb' (by simp [queued, show bb' ∈ queue from later])

theorem Searching.searchNode (depth : Nat) (searching : g.Searching conf f n root [] dfs) :
    g.Searching conf f n root [] (g.searchNode conf depth root dfs) := by
  apply List.foldlRecOn (motive := g.Searching conf f n root []) _ _ searching
  intro dfs' searching' e mem
  exact searching'.search depth (.first mem) (matched_singleton e) length_recorded_nil

theorem Between.searchNodes (depth fuel : Nat) (between : g.Between conf f dfs) :
    g.Between conf f (g.searchNodes conf depth fuel dfs) := by
  induction fuel generalizing dfs with
  | zero =>
      unfold Cfg.searchNodes
      split_ifs
      · exact between
      · exact ⟨between.tracks.of_eq rfl rfl rfl rfl, between.sound.states, between.sound.roots,
          between.sound.queue⟩
  | succ fuel ih =>
      unfold Cfg.searchNodes
      split
      · exact between
      · rename_i bb queue queued
        obtain ⟨n, searching⟩ := between.next queued
        have searched := searching.searchNode depth
        exact ih ⟨searched.tracks, searched.sound⟩

theorem Between.schedule (between : g.Between conf f dfs) {bb : BlockId}
    (isRoot : g.Root conf f dfs.windowShift bb) : g.Between conf f (dfs.scheduleNode bb) := by
  refine ⟨?_, between.sound.schedule isRoot⟩
  rw [Dfs.scheduleNode_eq]
  exact between.tracks.of_eq rfl rfl rfl rfl

theorem scheduleEntries_between (f : FuncId) : g.Between conf f (g.scheduleEntries f) := by
  have start : g.Between conf f {} ∧ ({} : Dfs).windowShift = 0 :=
    ⟨⟨⟨rfl, rfl, fun _ => rfl, fun _ => rfl⟩, nofun, nofun, nofun⟩, rfl⟩
  refine (List.foldlRecOn (motive := fun dfs => g.Between conf f dfs ∧ dfs.windowShift = 0)
    _ _ start ?_).1
  rintro dfs ⟨between, shift⟩ bb isEntry
  refine ⟨between.schedule ?_, ?_⟩
  · rw [shift]
    exact .entry isEntry
  · rw [Dfs.scheduleNode_eq]
    exact shift

/-- Every state that is stored is the recorded part of a path to a block that was scheduled; on the
path each return goes back to the call it belongs to. -/
theorem getFuncLbrStates_sound {fuel : Nat} (searched : g.getFuncLbrStates conf fuel f = some dfs) :
    (∀ state ∈ dfs.stateSet, g.IsState conf dfs.whenScheduled state) ∧
      ∀ root n, dfs.whenScheduled root = some n → g.Root conf f n root := by
  unfold getFuncLbrStates at searched
  split_ifs at searched
  obtain rfl := Option.some.inj searched
  have between := (@scheduleEntries_between g conf f).searchNodes fuel fuel
  exact ⟨between.sound.states, between.sound.roots⟩

def pairs : LbrConfig where
  windowSize := 2
  windowSize_gt := by decide
  windowSize_le := by decide

/-- All functions of the graph are the one that the blacklist starts with. -/
def withExecve (g : Cfg) (entryPoints : List BlockId) : Cfg :=
  { g with
    func := fun _ => { baseAddr := 0, funname := "execve", isLibDummy := true, entryPoints }
    basicBlocks_lt := by simp }

/-- An indirect jump, an edge taken by falling through, and the indirect call of the function. -/
def jumpAndCall : Cfg :=
  withExecve (ofEdges id [(0x10, 0x14), (0x20, 0x24), (0x30, 0x34), (0x40, 0x44)]
    [(1, 0, .indirectCall), (2, 1, .fallthrough), (3, 2, .indirectJmp)]) [0]

theorem getFuncLbrStates_sound_jumpAndCall :
    ∃ dfs, jumpAndCall.getFuncLbrStates pairs 9 0 = some dfs ∧ dfs.stateSet = [[0, 2], [2]] ∧
      jumpAndCall.IsState pairs dfs.whenScheduled [0, 2] := by
  have searched : ∃ dfs, jumpAndCall.getFuncLbrStates pairs 9 0 = some dfs ∧
      dfs.stateSet = [[0, 2], [2]] := ⟨_, rfl, by decide +kernel⟩
  obtain ⟨dfs, searched, states⟩ := searched
  refine ⟨dfs, searched, states, (getFuncLbrStates_sound searched).1 _ ?_⟩
  rw [states]
  exact List.mem_cons_self

end Cfg

end PathArmor.Analyzer

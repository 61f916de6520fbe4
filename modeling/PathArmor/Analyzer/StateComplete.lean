import Mathlib.Data.List.TakeWhile
import Mathlib.Logic.Relation
import Mathlib.Tactic.IntervalCases
import PathArmor.Analyzer.StateEnd

/-!
# Completeness of the search for LBR states

A path with laps of direct edges is not followed. Its state is found all the same if the calls on
the path still match without the laps.
-/

namespace PathArmor.Analyzer
open PathArmor.Library

namespace Cfg
open Dfs
variable {g : Cfg} {conf : LbrConfig} {f : FuncId} {dfs : Dfs} {e : EdgeId}
  {path : List EdgeId} {n : Nat} {root : BlockId}

/-! ## Paths with laps -/

variable (g) in
/-- `lap` consists of direct edges, and its first edge is taken again after it. -/
structure IsLap (lap rest : List EdgeId) : Prop where
  again : lap.head? = rest.head?
  direct : ∀ e ∈ lap, edgeIsIndirect (g.edge e) = false

variable (g) in
inductive WithoutLap : List EdgeId → List EdgeId → Prop
  | leaveOut {lap rest : List EdgeId} (front : List EdgeId) (isLap : g.IsLap lap rest) :
      WithoutLap (front ++ (lap ++ rest)) (front ++ rest)

variable (g) in
/-- The laps of the path can be left out such that the calls match without them. -/
def Reducible (path : List EdgeId) : Prop :=
  ∃ short, Relation.ReflTransGen g.WithoutLap path short ∧ g.LapFree short ∧ g.Matched short

theorem IsLap.head {lap rest : List EdgeId} (isLap : g.IsLap lap rest) :
    (lap ++ rest).head? = rest.head? := by
  rw [List.head?_append, isLap.again, Option.or_self]

theorem IsLap.recorded {lap rest : List EdgeId} (isLap : g.IsLap lap rest) :
    g.recorded lap = [] := by
  rw [Cfg.recorded, List.filter_eq_nil_iff]
  intro e mem
  simp [isLap.direct e mem]

theorem BackPath.replace {u v : List EdgeId} (leads : g.BackPath root (e :: u))
    (same : u.head? = v.head?) (onward : g.BackPath root u → g.BackPath root v) :
    g.BackPath root (e :: v) := by
  cases u with
  | nil =>
      obtain rfl := List.head?_eq_none_iff.mp same.symm
      exact leads
  | cons next u =>
      obtain ⟨v, rfl⟩ := List.head?_eq_some_iff.mp same.symm
      obtain ⟨leads', entering, visible⟩ := leads.tail
      exact .extend (onward leads') entering visible

theorem BackPath.leaveOut {lap rest : List EdgeId} (isLap : g.IsLap lap rest) {front : List EdgeId}
    (leads : g.BackPath root (front ++ (lap ++ rest))) : g.BackPath root (front ++ rest) := by
  induction front with
  | nil =>
      cases rest with
      | nil =>
          obtain rfl := List.head?_eq_none_iff.mp isLap.again
          exact leads
      | cons e rest => exact leads.of_append
  | cons e front ih =>
      have heads : (front ++ (lap ++ rest)).head? = (front ++ rest).head? := by
        rw [List.head?_append, isLap.head, List.head?_append]
      exact leads.replace heads ih

theorem WithoutLap.head {whole short : List EdgeId} (without : g.WithoutLap whole short) :
    whole.head? = short.head? := by
  cases without with
  | leaveOut front isLap => rw [List.head?_append, isLap.head, List.head?_append]

theorem WithoutLap.recorded {whole short : List EdgeId} (without : g.WithoutLap whole short) :
    g.recorded whole = g.recorded short := by
  cases without with
  | leaveOut front isLap =>
      have nothing := isLap.recorded
      simp only [Cfg.recorded, List.filter_append] at nothing ⊢
      rw [nothing, List.nil_append]

theorem Ends.of_same {whole short : List EdgeId} (ends : g.Ends conf whole)
    (head : whole.head? = short.head?) (recorded : g.recorded whole = g.recorded short) :
    g.Ends conf short := by
  cases whole with
  | nil => cases ends
  | cons e whole =>
      obtain ⟨short, rfl⟩ := List.head?_eq_some_iff.mp head.symm
      simp only [Ends] at ends ⊢
      rwa [← recorded]

theorem leadsAndEnds_of_withoutLaps {whole short : List EdgeId}
    (without : Relation.ReflTransGen g.WithoutLap whole short) (leads : g.BackPath root whole)
    (ends : g.Ends conf whole) :
    g.BackPath root short ∧ g.Ends conf short ∧ g.recorded whole = g.recorded short := by
  induction without with
  | refl => exact ⟨leads, ends, rfl⟩
  | tail _ step ih =>
      obtain ⟨leads', ends', same⟩ := ih
      refine ⟨?_, ends'.of_same step.head step.recorded, same.trans step.recorded⟩
      cases step with
      | leaveOut front isLap => exact leads'.leaveOut isLap

theorem exists_found {short : List EdgeId} (leads : g.BackPath root short)
    (matched : g.Matched short) (lapFree : g.LapFree short) (ends : g.Ends conf short)
    (recorded : g.recorded short ≠ [])
    (within : (g.recorded short).length ≤ conf.windowSize) :
    ∃ whole, g.Found conf root whole ∧ g.recorded whole = g.recorded short := by
  induction short with
  | nil => cases leads
  | cons e short ih =>
      rcases within.lt_or_eq with less | full
      · refine ⟨e :: short, ⟨leads, matched, lapFree, ?_, ends, recorded⟩, rfl⟩
        exact lt_of_le_of_lt (length_recorded_le_append [e] short) less
      cases indirect : edgeIsIndirect (g.edge e) with
      | true =>
          refine ⟨e :: short, ⟨leads, matched, lapFree, ?_, ends, recorded⟩, rfl⟩
          rw [recorded_indirect indirect, List.length_cons] at full
          exact Nat.lt_of_succ_le full.le
      | false =>
          rw [recorded_direct indirect] at recorded within full ⊢
          cases short with
          | nil => exact absurd rfl recorded
          | cons next short =>
              exact ih leads.tail.1 (matched_cons.mp matched).2 lapFree.2 (.inl full) recorded
                within

/-! ## Laps that can be left out -/

variable (g) in
/-- A lap with calls is only on the path where no later return is left over for them. -/
def Unentangled (path : List EdgeId) : Prop :=
  ∀ front lap rest, path = front ++ (lap ++ rest) → g.IsLap lap rest →
    (∀ e ∈ lap, edgeIsCall (g.edge e) = false) ∨ g.callBrackets.closer 0 rest = none

theorem not_return_of_direct (direct : edgeIsIndirect (g.edge e) = false) :
    edgeIsReturn (g.edge e) = false := (Bool.or_eq_false_iff.mp direct).2

theorem IsLap.closer {lap rest : List EdgeId} (isLap : g.IsLap lap rest)
    (harmless : (∀ e ∈ lap, edgeIsCall (g.edge e) = false) ∨
      g.callBrackets.closer 0 rest = none) (d : Nat) :
    g.callBrackets.closer d (lap ++ rest) = g.callBrackets.closer d rest := by
  have noReturn : ∀ e ∈ lap, g.callBrackets.closes e = false :=
    fun e mem => not_return_of_direct (isLap.direct e mem)
  rcases harmless with noCall | unclosed
  · exact Brackets.closer_append_neutral (fun e mem => ⟨noCall e mem, noReturn e mem⟩) d rest
  · have never : g.callBrackets.closer d rest = none := by
      induction d with
      | zero => exact unclosed
      | succ d ih => exact Brackets.closer_succ_eq_none ih
    rw [never]
    exact Brackets.closer_append_eq_none noReturn never

theorem Matched.replace {u v front : List EdgeId} (matched : g.Matched (front ++ u))
    (same : ∀ d, g.callBrackets.closer d u = g.callBrackets.closer d v) (matched' : g.Matched v) :
    g.Matched (front ++ v) := by
  induction front with
  | nil => exact matched'
  | cons e front ih =>
      rw [List.cons_append, matched_cons, edgeIsTraversable_iff] at matched ⊢
      rw [← Brackets.closer_append_congr same]
      exact ⟨matched.1, ih matched.2⟩

theorem exists_lap (notLapFree : ¬ g.LapFree path) :
    ∃ front lap rest, path = front ++ (lap ++ rest) ∧ g.IsLap lap rest ∧ lap ≠ [] := by
  induction path with
  | nil => exact absurd trivial notLapFree
  | cons e path ih =>
      by_cases lapFree : g.LapFree path
      · simp only [LapFree, lapFree, and_true, Classical.not_imp, not_not] at notLapFree
        obtain ⟨direct, again⟩ := notLapFree
        obtain ⟨u, v, split⟩ := List.append_of_mem again
        have directs : ∀ e ∈ u, edgeIsIndirect (g.edge e) = false := by
          intro e mem
          have inRun : e ∈ g.directRun path := by simp [split, mem]
          simpa using List.mem_takeWhile_imp inRun
        refine ⟨[], e :: u, e :: (v ++ path.dropWhile fun e => !edgeIsIndirect (g.edge e)), ?_,
          ⟨rfl, List.forall_mem_cons.mpr ⟨direct, directs⟩⟩, List.cons_ne_nil _ _⟩
        have parts : g.directRun path ++ _ = path := List.takeWhile_append_dropWhile
        rw [split] at parts
        simpa using parts.symm
      · obtain ⟨front, lap, rest, rfl, isLap, notEmpty⟩ := ih lapFree
        exact ⟨e :: front, lap, rest, rfl, isLap, notEmpty⟩

theorem IsLap.around {between lap later rest : List EdgeId}
    (outer : g.IsLap (between ++ later) rest) (inner : g.IsLap lap (later ++ rest)) :
    g.IsLap (between ++ (lap ++ later)) rest := by
  constructor
  · have innerAgain := inner.again
    have outerAgain := outer.again
    cases between with
    | nil =>
        rw [List.nil_append] at outerAgain ⊢
        rw [List.head?_append, innerAgain, List.head?_append, outerAgain, Option.or_self,
          Option.or_self]
    | cons e between => exact outerAgain
  · intro e mem
    rcases List.mem_append.mp mem with first | more
    · exact outer.direct e (List.mem_append_left _ first)
    rcases List.mem_append.mp more with own | last
    · exact inner.direct e own
    · exact outer.direct e (List.mem_append_right _ last)

theorem Unentangled.leaveOut {front lap rest : List EdgeId}
    (unentangled : g.Unentangled (front ++ (lap ++ rest))) (isLap : g.IsLap lap rest) :
    g.Unentangled (front ++ rest) := by
  intro front' lap' rest' split isLap'
  rcases List.append_eq_append_iff.mp split with ⟨between, rfl, rfl⟩ | ⟨between, rfl, inner⟩
  · -- the other lap comes after this one
    exact unentangled (front ++ (lap ++ between)) lap' rest' (by simp) isLap'
  have harmless := unentangled (front' ++ between) lap rest rfl isLap
  rcases List.append_eq_append_iff.mp inner with ⟨later, rfl, rfl⟩ | ⟨later, rfl, rfl⟩
  · -- the other one comes first
    have before : g.IsLap lap' (later ++ (lap ++ rest)) := by
      refine ⟨?_, isLap'.direct⟩
      rw [isLap'.again, List.head?_append, List.head?_append, isLap.head]
    rw [← Brackets.closer_append_congr (isLap.closer harmless)]
    exact unentangled front' lap' _ (by simp) before
  · -- this one is in the middle of the other one
    have around : g.IsLap (between ++ (lap ++ later)) rest' := isLap'.around isLap
    refine (unentangled front' _ rest' (by simp) around).imp_left fun noCall e mem => ?_
    apply noCall
    rcases List.mem_append.mp mem with first | last
    · exact List.mem_append_left _ first
    · exact List.mem_append_right _ (List.mem_append_right _ last)

theorem Matched.reducible (matched : g.Matched path) (unentangled : g.Unentangled path) :
    g.Reducible path := by
  induction len : path.length using Nat.strongRecOn generalizing path with
  | ind _ ih =>
      by_cases lapFree : g.LapFree path
      · exact ⟨path, .refl, lapFree, matched⟩
      · obtain ⟨front, lap, rest, rfl, isLap, notEmpty⟩ := exists_lap lapFree
        have same := isLap.closer (unentangled front lap rest rfl isLap)
        have shorter : (front ++ rest).length < (front ++ (lap ++ rest)).length := by
          have positive := List.length_pos_iff.mpr notEmpty
          simp only [List.length_append]
          omega
        have rested : g.Matched rest := (List.append_assoc front lap rest ▸ matched).of_append
        obtain ⟨short, without, rest'⟩ := ih _ (len ▸ shorter) (matched.replace same rested)
          (unentangled.leaveOut isLap) rfl
        exact ⟨short, .head (.leaveOut front isLap) without, rest'⟩

/-! ## The states of a function -/

theorem scheduleEntries_grows (f : FuncId) : Grows {} (g.scheduleEntries f) :=
  relates_foldl .refl (fun _ _ _ => .trans) (fun bb _ dfs => .schedule dfs bb) {}

theorem scheduleEntries_queued (f : FuncId) {bb : BlockId}
    (scheduled : (g.scheduleEntries f).whenScheduled bb ≠ none) :
    bb ∈ (g.scheduleEntries f).searchQueue :=
  ((scheduleEntries_grows f).fresh bb scheduled).resolve_left (absurd rfl)

theorem scheduleEntries_scheduled {bb : BlockId} (isEntry : bb ∈ (g.func f).entryPoints) :
    (g.scheduleEntries f).whenScheduled bb ≠ none := by
  obtain ⟨before, after, split⟩ := List.append_of_mem isEntry
  unfold scheduleEntries
  rw [split, List.foldl_append, List.foldl_cons]
  refine (relates_foldl .refl (fun _ _ _ => .trans) (fun bb _ dfs => Grows.schedule dfs bb)
    _).scheduled bb ?_
  unfold scheduleNode
  split
  · rename_i scheduled
    simp [scheduled]
  · simp

theorem scheduleEntries_running (f : FuncId) : (g.scheduleEntries f).exhausted = false := by
  refine List.foldlRecOn (motive := fun (dfs : Dfs) => dfs.exhausted = false) _ _ rfl ?_
  intro dfs running bb _
  rw [scheduleNode_eq]
  exact running

theorem getFuncLbrStates_eq (dummy : (g.func f).isLibDummy)
    (blacklisted : conf.isBlacklisted (g.func f).funname) (fuel : Nat) :
    g.getFuncLbrStates conf fuel f = some (g.searchNodes conf fuel fuel (g.scheduleEntries f)) := by
  simp [getFuncLbrStates, dummy, blacklisted]

/-- The recorded part of a path is among the states that a search has found in the end if the path
is matched without its laps. The search comes to an end if all laps are recognized. -/
theorem getFuncLbrStates_complete (dummy : (g.func f).isLibDummy)
    (blacklisted : conf.isBlacklisted (g.func f).funname)
    (isEntry : root ∈ (g.func f).entryPoints) (leads : g.BackPath root path)
    (ends : g.Ends conf path) (recorded : g.recorded path ≠ [])
    (within : (g.recorded path).length ≤ conf.windowSize) (reducible : g.Reducible path) :
    (∀ fuel dfs, g.getFuncLbrStates conf fuel f = some dfs → dfs.exhausted = false →
      (g.recorded path).reverse ∈ dfs.stateSet) ∧
    (g.LapsDetected → ∃ enough, ∀ fuel ≥ enough, ∃ dfs,
      g.getFuncLbrStates conf fuel f = some dfs ∧ dfs.exhausted = false) := by
  have between : g.Between conf f (g.scheduleEntries f) := scheduleEntries_between f
  constructor
  · intro fuel dfs searched running
    rw [getFuncLbrStates_eq dummy blacklisted] at searched
    obtain rfl := Option.some.inj searched
    obtain ⟨short, without, lapFree, matched⟩ := reducible
    obtain ⟨leads', ends', same⟩ := leadsAndEnds_of_withoutLaps without leads ends
    rw [same] at recorded within ⊢
    obtain ⟨whole, found, same'⟩ := exists_found leads' matched lapFree ends' recorded within
    rw [← same']
    refine between.finishes fuel fuel ?_ running (scheduleEntries_scheduled isEntry) whole found
    exact fun bb scheduled => .inl (scheduleEntries_queued f scheduled)
  · intro detected
    refine ⟨g.budget conf [] + 1 + g.openBlocks (g.scheduleEntries f), fun fuel enough => ?_⟩
    refine ⟨_, getFuncLbrStates_eq dummy blacklisted fuel, ?_⟩
    exact between.running detected fuel (by omega) (by omega) (scheduleEntries_running f)

/-- The indirect call of the function, a block that jumps to itself, and an indirect jump there. -/
def loopAndCall : Cfg :=
  withExecve (ofEdges id [(0x10, 0x14), (0x20, 0x24), (0x30, 0x34)]
    [(1, 0, .indirectCall), (1, 1, .directJmp), (2, 1, .indirectJmp)]) [0]

theorem loopAndCall_direct (isEdge : e < 3) (direct : edgeIsIndirect (loopAndCall.edge e) = false) :
    e = 1 := by
  revert e
  decide +kernel

theorem loopAndCall_lapsDetected : loopAndCall.LapsDetected := by
  intro root e path leads _ _ direct again
  obtain rfl := loopAndCall_direct (leads.lt_edgeCount e List.mem_cons_self) direct
  cases path with
  | nil => cases again
  | cons f path =>
      cases indirect : edgeIsIndirect (loopAndCall.edge f) with
      | true =>
          rw [directRun_indirect indirect] at again
          cases again
      | false =>
          obtain rfl := loopAndCall_direct (leads.tail.1.lt_edgeCount f List.mem_cons_self) indirect
          have signature :
              0xffffffff ^^^ xorshift (UInt64.ofNat (loopAndCall.edgeAddress 1)) ≠ 0 := by
            decide +kernel
          simpa [isDirectCycle, direct, cycleSignature] using signature

theorem getFuncLbrStates_complete_loopAndCall :
    ∃ enough, ∀ fuel ≥ enough, ∃ dfs, loopAndCall.getFuncLbrStates pairs fuel 0 = some dfs ∧
      [0, 2] ∈ dfs.stateSet := by
  have leads : loopAndCall.BackPath 0 [2, 1, 1, 0] := by
    repeat first
      | exact .first (by decide +kernel)
      | refine .extend ?_ (by decide +kernel) (by decide +kernel)
  have isLap : loopAndCall.IsLap [1] [1, 0] := ⟨rfl, by decide +kernel⟩
  have reducible : loopAndCall.Reducible [2, 1, 1, 0] :=
    ⟨[2, 1, 0], .single (.leaveOut [2] isLap), by
      simp only [LapFree]
      decide +kernel, traversableBackwards_iff.mp (by decide +kernel)⟩
  have complete := @getFuncLbrStates_complete loopAndCall pairs 0 [2, 1, 1, 0] 0 (by decide +kernel)
    (by decide +kernel) (by decide +kernel) leads (.inl (by decide +kernel)) (by decide +kernel)
    (by decide +kernel) reducible
  obtain ⟨stored, enough, running⟩ := And.imp_right (· loopAndCall_lapsDetected) complete
  refine ⟨enough, fun fuel isEnough => ?_⟩
  obtain ⟨dfs, searched, notExhausted⟩ := running fuel isEnough
  have isStored := stored fuel dfs searched notExhausted
  have state : (loopAndCall.recorded [2, 1, 1, 0]).reverse = [0, 2] := by decide +kernel
  exact ⟨dfs, searched, state ▸ isStored⟩

/-! ## What the search misses -/

variable (g conf) in
/-- The window is full, or no further edge is visible and traversable. -/
def Stops : List EdgeId → Prop
  | [] => False
  | e :: path =>
      (g.recorded (e :: path)).length = conf.windowSize ∧ edgeIsIndirect (g.edge e) ∨
        ∀ next ∈ g.incoming (g.source e),
          (g.edge next).hidden ∨ g.edgeIsTraversable next (e :: path) = false

variable (g conf) in
/-- A path to the entry of a function whose search ends without the state of the path. -/
structure Missed (f : FuncId) (path : List EdgeId) : Prop where
  leads : ∃ root ∈ (g.func f).entryPoints, g.BackPath root path
  visible : ∀ e ∈ path, (g.edge e).hidden = false
  matched : g.Matched path
  stops : g.Stops conf path
  recorded : g.recorded path ≠ []
  missing : ∃ fuel dfs, g.getFuncLbrStates conf fuel f = some dfs ∧ dfs.exhausted = false ∧
    (g.recorded path).reverse ∉ dfs.stateSet

def triples : LbrConfig where
  windowSize := 3
  windowSize_gt := by decide
  windowSize_le := by decide

/-- A function that calls itself in block 2 and goes on in block 1, where it may call `execve`. -/
def recursive : Cfg :=
  withExecve (ofEdges id [(0x10, 0x14), (0x36, 0x38), (0x30, 0x34), (0x20, 0x24), (0x40, 0x44),
      (0x66, 0x68), (0x60, 0x64)]
    [(1, 0, .directCall), (4, 1, .ret), (1, 4, .directJmp), (3, 4, .condTaken), (2, 3, .directCall),
      (3, 2, .condNotTaken), (6, 3, .indirectCall)]) [0]

def hiddenJump : Cfg :=
  (withExecve (ofEdges id [(0x10, 0x14), (0x20, 0x24), (0x30, 0x34)]
    [(1, 0, .indirectCall), (2, 1, .directJmp)]) [0]).setHidden 1 true

/-- The only edge to the returning block is a call that returns somewhere else. -/
def foreignCall : Cfg :=
  withExecve (ofEdges id [(0x10, 0x14), (0x20, 0x24), (0x30, 0x34), (0x40, 0x44), (0x46, 0x48)]
    [(1, 0, .indirectCall), (2, 1, .ret), (3, 2, .directCall)]) [0]

def threeJumps : Cfg :=
  withExecve (ofEdges id [(0x10, 0x14), (0x20, 0x24), (0x30, 0x34), (0x40, 0x44)]
    [(1, 0, .indirectCall), (2, 1, .indirectJmp), (3, 2, .indirectJmp)]) [0]

/-- A loop of four jumps, allocated where its signature is 0. -/
def spinning : Cfg :=
  withExecve (ofEdges
      ([0x1000000, 0x5524e00, 0x4ea90e40, 0xb97679c0, 0xd495f880, 0xd495f8c0].getD · 0)
    [(0x10, 0x14), (0x20, 0x24), (0x30, 0x34), (0x40, 0x44), (0x50, 0x54), (0x60, 0x64)]
    [(1, 0, .directCall), (2, 1, .directJmp), (3, 2, .directJmp), (4, 3, .directJmp),
      (1, 4, .directJmp), (5, 0, .indirectCall)]) [0]

/-- The call and then `k` jumps of the loop, backwards. -/
def spin : Nat → List EdgeId
  | 0 => [0]
  | k + 1 => (k % 4 + 1) :: spin k

theorem spinning_loop : ∀ i < 4, spinning.incoming (spinning.source (i + 1)) = [(i + 1) % 4 + 1] ∧
    edgeIsIndirect (spinning.edge (i + 1)) = false ∧ edgeIsCall (spinning.edge (i + 1)) = false ∧
    edgeIsHidden (spinning.edge (i + 1)) = false := by
  decide +kernel

theorem spinning_signature (path : List EdgeId) : ∀ i : Nat, i < 4 → spinning.isDirectCycle (i + 1)
    (((i + 3) % 4 + 1) :: ((i + 2) % 4 + 1) :: ((i + 1) % 4 + 1) :: (i + 1) :: path) = 0 := by
  have direct : ∀ e ∈ [1, 2, 3, 4], edgeIsIndirect (spinning.edge e) = false := by decide +kernel
  simp only [List.forall_mem_cons] at direct
  intro i less
  interval_cases i <;>
    simp only [isDirectCycle, cycleSignature, direct, Nat.reduceAdd, Nat.reduceMod,
      Nat.reduceEqDiff, Bool.false_eq_true, if_false, if_true] <;>
    decide +kernel

theorem spin_undetected (k : Nat) : spinning.isDirectCycle (k % 4 + 1) (spin k) = 0 := by
  have early : ∀ k < 4, spinning.isDirectCycle (k % 4 + 1) (spin k) = 0 := by decide +kernel
  rcases Nat.lt_or_ge k 4 with less | more
  · exact early k less
  obtain ⟨k, rfl⟩ := Nat.exists_eq_add_of_le' more
  have signature := spinning_signature (spin k) (k % 4) (Nat.mod_lt k (by decide))
  simp only [Nat.mod_add_mod] at signature
  rw [Nat.add_mod_right]
  exact signature

theorem search_onlyEdge {next : EdgeId} (only : g.incoming (g.source e) = [next])
    (direct : edgeIsIndirect (g.edge e) = false) (notCall : edgeIsCall (g.edge next) = false)
    (visible : edgeIsHidden (g.edge next) = false) (undetected : g.isDirectCycle e dfs.edge = 0)
    (blacklisted : dfs.blacklisted e = false) (notFull : dfs.len ≠ conf.windowSize) (fuel : Nat) :
    g.searchInboundEdges conf (fuel + 1) e dfs =
      g.leaveEdge e (g.searchInboundEdges conf fuel next (g.enterEdge e dfs)) := by
  have len : (g.enterEdge e dfs).len = dfs.len := by simp [enterEdge, direct]
  have unscheduled : g.scheduleNext conf e (g.enterEdge e dfs) = g.enterEdge e dfs := by
    simp [scheduleNext, len, notFull]
  simp [searchInboundEdges, blacklisted, searchDepth, undetected, unscheduled, searchFrom, len,
    notFull, only, searchEdge, visible, edgeIsTraversable, notCall]

theorem spinning_exhausted (fuel k : Nat) {dfs : Dfs} (edge : dfs.edge = spin k)
    (len : dfs.len = 0) (blacklisted : ∀ e, dfs.blacklisted e = false) :
    (spinning.searchInboundEdges pairs fuel (k % 4 + 1) dfs).exhausted = true := by
  induction fuel generalizing k dfs with
  | zero => rfl
  | succ fuel ih =>
      obtain ⟨only, direct, -, -⟩ := spinning_loop (k % 4) (Nat.mod_lt _ (by decide))
      obtain ⟨-, -, notCall, visible⟩ := spinning_loop ((k + 1) % 4) (Nat.mod_lt _ (by decide))
      rw [Nat.mod_add_mod] at only
      rw [search_onlyEdge only direct notCall visible (edge ▸ spin_undetected k) (blacklisted _)
        (by simp [len, pairs])]
      apply ih (k + 1)
      · simp [enterEdge, edge, spin]
      · simp [enterEdge, direct, len]
      · exact blacklisted

theorem spinning_entry (fuel : Nat) {dfs : Dfs} (edge : dfs.edge = []) (len : dfs.len = 0)
    (blacklisted : ∀ e, dfs.blacklisted e = false) :
    (spinning.searchInboundEdges pairs fuel 0 dfs).exhausted = true := by
  cases fuel with
  | zero => rfl
  | succ fuel =>
      have direct : edgeIsIndirect (spinning.edge 0) = false := by decide +kernel
      have only : spinning.incoming (spinning.source 0) = [1] := by decide +kernel
      have undetected : spinning.isDirectCycle 0 [] = 0 := by decide +kernel
      obtain ⟨-, -, notCall, visible⟩ := spinning_loop 0 (by decide)
      rw [search_onlyEdge only direct notCall visible (edge ▸ undetected) (blacklisted 0)
        (by simp [len, pairs])]
      apply spinning_exhausted fuel 0
      · simp [enterEdge, edge, spin]
      · simp [enterEdge, direct, len]
      · exact blacklisted

theorem spinning_endless (fuel : Nat) :
    (spinning.searchNodes pairs fuel fuel (spinning.scheduleEntries 0)).exhausted = true := by
  have queued : (spinning.scheduleEntries 0).searchQueue = [0] := by decide +kernel
  have incoming : spinning.incoming 0 = [0, 5] := by decide +kernel
  have between : spinning.Between pairs 0 (spinning.scheduleEntries 0) := scheduleEntries_between 0
  cases fuel with
  | zero => simp [Cfg.searchNodes, queued]
  | succ fuel =>
      obtain ⟨n, searching⟩ := between.next queued
      have entered := spinning_entry (fuel + 1) searching.tracks.edge searching.tracks.len
        searching.tracks.blacklisted
      by_contra running
      rw [Bool.not_eq_true, Cfg.searchNodes, queued] at running
      have ended := searchNodes_running running
      unfold Cfg.searchNode at ended
      rw [incoming, List.foldl_cons, List.foldl_cons, List.foldl_nil] at ended
      have isEdge : 5 < spinning.edgeCount := by decide +kernel
      simp [(respected_grows.search (fuel + 1) isEdge _).running ended] at entered

/-- A path through a recursion, two where no edge can be taken any more, one longer than the window,
and one whose search does not come to an end. -/
theorem states_missed : recursive.Missed triples 0 [6, 5, 4, 5, 4, 3, 1, 2, 1, 0] ∧
    hiddenJump.Missed pairs 0 [0] ∧ foreignCall.Missed triples 0 [1, 0] ∧
    threeJumps.Missed pairs 0 [2, 1, 0] ∧
    spinning.BackPath 0 [5] ∧ spinning.Matched [5] ∧ spinning.Stops pairs [5] ∧
    ∀ fuel dfs, spinning.getFuncLbrStates pairs fuel 0 = some dfs → dfs.exhausted = true := by
  have calls : recursive.BackPath 0 [6, 5, 4, 5, 4, 3, 1, 2, 1, 0] := by
    repeat first
      | exact .first (by decide +kernel)
      | refine .extend ?_ (by decide +kernel) (by decide +kernel)
  have jumps : threeJumps.BackPath 0 [2, 1, 0] := by
    repeat first
      | exact .first (by decide +kernel)
      | refine .extend ?_ (by decide +kernel) (by decide +kernel)
  have returns : foreignCall.BackPath 0 [1, 0] :=
    .extend (.first (by decide +kernel)) (by decide +kernel) (by decide +kernel)
  have jump : hiddenJump.BackPath 0 [0] := .first (by decide +kernel)
  refine ⟨⟨⟨0, by decide +kernel, calls⟩, by decide +kernel, ?_, .inl (by decide +kernel),
      by decide +kernel, 12, _, rfl, by decide +kernel, by decide +kernel⟩,
    ⟨⟨0, by decide +kernel, jump⟩, by decide +kernel, ?_, .inr (by decide +kernel),
      by decide +kernel, 12, _, rfl, by decide +kernel, by decide +kernel⟩,
    ⟨⟨0, by decide +kernel, returns⟩, by decide +kernel, ?_, .inr (by decide +kernel),
      by decide +kernel, 12, _, rfl, by decide +kernel, by decide +kernel⟩,
    ⟨⟨0, by decide +kernel, jumps⟩, by decide +kernel, ?_, .inr (by decide +kernel),
      by decide +kernel, 12, _, rfl, by decide +kernel, by decide +kernel⟩,
    .first (by decide +kernel), ?_, .inr (by decide +kernel), ?_⟩
  · exact traversableBackwards_iff.mp (by decide +kernel)
  · exact matched_singleton 0
  · exact traversableBackwards_iff.mp (by decide +kernel)
  · exact traversableBackwards_iff.mp (by decide +kernel)
  · exact matched_singleton 5
  · intro fuel dfs searched
    rw [getFuncLbrStates_eq (by decide +kernel) (by decide +kernel)] at searched
    obtain rfl := Option.some.inj searched
    exact spinning_endless fuel

end Cfg

end PathArmor.Analyzer

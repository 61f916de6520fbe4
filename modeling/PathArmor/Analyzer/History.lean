import PathArmor.Analyzer.Learning

/-!
# What a verdict remembers

The daemon keeps three things between two calls of `jit_validate_lbr`. The call stack is empty
again whenever the next LBR comes. The graph grows on purpose. `last_lib_call` is meant to be the
last library address of the same LBR, but is not reset: an LBR reads the value of an earlier one
unless it has met a library address itself before its first return from a library.
-/

namespace PathArmor.Analyzer

section
variable (t : Tables) (fuel : Nat)

def jitValidateAll : List Lbr → Daemon → Except Halt Daemon
  | [], d => .ok d
  | lbr :: rest, d =>
      match jitValidateLbr t fuel d lbr with
      | .ok (_, d) => jitValidateAll rest d
      | .error h => .error h

def verdictAfter (history : List Lbr) (d : Daemon) (lbr : Lbr) : Option Verdict :=
  match jitValidateAll t fuel history d with
  | .ok d => (jitValidateLbr t fuel d lbr).toOption.map (·.1)
  | .error _ => none

/-! ## The call stack -/

variable {t fuel}

theorem jitValidateLbr_stack {d d' : Daemon} {lbr : Lbr} {v : Verdict} (cleared : d.stack = [])
    (validated : jitValidateLbr t fuel d lbr = .ok (v, d')) : d'.stack = [] := by
  unfold jitValidateLbr at validated
  dsimp only at validated
  split at validated
  · unfold searchPath at validated
    dsimp only at validated
    split at validated <;> cases validated <;> rfl
  · cases validated
    exact cleared
  · cases validated

theorem jitValidateAll_stack {history : List Lbr} {d d' : Daemon} (cleared : d.stack = [])
    (run : jitValidateAll t fuel history d = .ok d') : d'.stack = [] := by
  induction history generalizing d with
  | nil =>
      cases run
      exact cleared
  | cons lbr rest ih =>
      cases validated : jitValidateLbr t fuel d lbr with
      | error h => simp [jitValidateAll, validated] at run
      | ok result =>
          simp only [jitValidateAll, validated] at run
          exact ih (jitValidateLbr_stack cleared validated) run

theorem jitValidateAll_concat {history : List Lbr} {d d' d'' : Daemon} {lbr : Lbr} {v : Verdict}
    (all : jitValidateAll t fuel history d = .ok d')
    (validated : jitValidateLbr t fuel d' lbr = .ok (v, d'')) :
    jitValidateAll t fuel (history ++ [lbr]) d = .ok d'' := by
  induction history generalizing d with
  | nil =>
      cases all
      simp [jitValidateAll, validated]
  | cons first history ih =>
      cases head : jitValidateLbr t fuel d first with
      | error h => simp [jitValidateAll, head] at all
      | ok found =>
          simp only [jitValidateAll, head, List.cons_append] at all ⊢
          exact ih all

theorem exists_of_verdictAfter {history : List Lbr} {d : Daemon} {lbr : Lbr} {v : Verdict}
    (verdict : verdictAfter t fuel history d lbr = some v) :
    ∃ d' d'', jitValidateAll t fuel history d = .ok d' ∧ jitValidateLbr t fuel d' lbr = .ok (v, d'') := by
  unfold verdictAfter at verdict
  cases before : jitValidateAll t fuel history d with
  | error h => simp [before] at verdict
  | ok d' =>
      simp only [before] at verdict
      cases validated : jitValidateLbr t fuel d' lbr with
      | error h => simp [validated, Except.toOption] at verdict
      | ok found =>
          simp only [validated, Except.toOption, Option.map_some, Option.some.injEq] at verdict
          exact ⟨d', found.2, rfl, by rw [validated, ← verdict]⟩

/-! ## The last library call -/

namespace Offsets
variable (o : Offsets) (g : Cfg)

def isLibReturn (addr : Address) : Bool :=
  !g.addrInCfg addr && addr != o.indirectCallSource && addr != o.loadFrom &&
    addr == o.armorLibReturn

def isLibCall (addr : Address) : Bool :=
  !g.addrInCfg addr && addr != o.indirectCallSource && addr != o.loadFrom &&
    addr != o.armorLibReturn && addr != o.pthreadCreate && addr != o.pthreadCreateReturn &&
    o.libs.any fun lib => lib.1 < addr && addr < lib.2

end Offsets

theorem jitNormalizeAddr_libCall {o : Offsets} {g : Cfg} {addr : Address} (last : Address)
    (call : o.isLibCall g addr = true) : jitNormalizeAddr o g last addr = (addr, addr) := by
  simp only [Offsets.isLibCall, Bool.and_eq_true, Bool.not_eq_true', bne_iff_ne] at call
  simp [jitNormalizeAddr, call]

theorem jitNormalizeAddr_other {o : Offsets} {g : Cfg} {addr : Address}
    (noReturn : o.isLibReturn g addr = false) (noCall : o.isLibCall g addr = false) :
    ∃ x, ∀ last, jitNormalizeAddr o g last addr = (x, last) := by
  by_cases inCfg : g.addrInCfg addr = true
  · exact ⟨addr, fun last => by rw [jitNormalizeAddr, if_pos inCfg]⟩
  by_cases callback : addr = o.indirectCallSource
  · exact ⟨addressTaken, fun last => by rw [jitNormalizeAddr, if_neg inCfg, if_pos callback]⟩
  by_cases loader : addr = o.loadFrom
  · exact ⟨0, fun last => by
      rw [jitNormalizeAddr, if_neg inCfg, if_neg callback, if_pos loader]⟩
  have notReturn : addr ≠ o.armorLibReturn := by
    simpa [Offsets.isLibReturn, inCfg, callback, loader] using noReturn
  by_cases pthread : addr = o.pthreadCreate ∨ addr = o.pthreadCreateReturn
  · cases dummy : g.findLibDummyByName "pthread_create" with
    | none => exact ⟨addr, fun last => by
        simp [jitNormalizeAddr, inCfg, callback, loader, notReturn, pthread, dummy]⟩
    | some f => exact ⟨(g.func f).baseAddr, fun last => by
        simp [jitNormalizeAddr, inCfg, callback, loader, notReturn, pthread, dummy]⟩
  · have notLib : (o.libs.any fun lib => lib.1 < addr && addr < lib.2) = false := by
      rw [not_or] at pthread
      simpa [Offsets.isLibCall, inCfg, callback, loader, notReturn, pthread] using noCall
    exact ⟨jitAddrUnknown, fun last => by
      simp only [jitNormalizeAddr, inCfg, callback, loader, notReturn, pthread, notLib]
      rfl⟩

theorem jitNormalizeAddr_agree {o : Offsets} {g : Cfg} {addr last last' : Address} {known : Bool}
    (agree : known = true → last' = last) (own : (known || !o.isLibReturn g addr) = true) :
    (jitNormalizeAddr o g last' addr).1 = (jitNormalizeAddr o g last addr).1 ∧
      ((known || o.isLibCall g addr) = true →
        (jitNormalizeAddr o g last' addr).2 = (jitNormalizeAddr o g last addr).2) := by
  cases known with
  | true =>
      rw [agree rfl]
      exact ⟨rfl, fun _ => rfl⟩
  | false =>
      cases call : o.isLibCall g addr with
      | true =>
          rw [jitNormalizeAddr_libCall last call, jitNormalizeAddr_libCall last' call]
          exact ⟨rfl, fun _ => rfl⟩
      | false =>
          obtain ⟨x, same⟩ := jitNormalizeAddr_other (by simpa using own) call
          rw [same, same]
          exact ⟨rfl, fun absurd => by cases absurd⟩

end

/-! ## Two runs of the loop -/

def Progress.setLast (s : Progress) (last : Address) : Progress := { s with lastLibCall := last }
section
variable (t : Tables) (fuel : Nat)

/-- Every return from a library that the loop looks up comes after a library address of the same
entries; `known` tells whether there was one already. -/
def readsOwnCalls : Bool → List (Address × Address) → Progress → Bool
  | _, [], _ => true
  | known, (a, b) :: rest, s =>
      let between := known || t.offsets.isLibCall s.cfg a
      (known || !t.offsets.isLibReturn s.cfg a) && (between || !t.offsets.isLibReturn s.cfg b) &&
        match jitRound t fuel s (a, b) with
        | (s', none) => readsOwnCalls (between || t.offsets.isLibCall s.cfg b) rest s'
        | (_, some _) => true

def OwnLibCalls (d : Daemon) (lbr : Lbr) : Prop :=
  readsOwnCalls t fuel false (lookups t (prepared t lbr))
    { cfg := d.cfg, lastLibCall := d.lastLibCall, edges := [] } = true

instance (d : Daemon) (lbr : Lbr) : Decidable (OwnLibCalls t fuel d lbr) :=
  inferInstanceAs (Decidable (_ = true))

variable {t fuel}

theorem lookupPltGot_setLast (s : Progress) (last : Address) (entry : Address × Address)
    (a b : Address) :
    lookupPltGot t fuel (s.setLast last) entry a b =
      ((lookupPltGot t fuel s entry a b).1.setLast last,
        (lookupPltGot t fuel s entry a b).2) := by
  simp only [lookupPltGot, Progress.setLast]
  cases scanPltGot entry.1 entry.2 t.pltGot with
  | unsupported => rfl
  | missing => rfl
  | inPlt =>
      cases jitAddPltGotEdge fuel s.cfg a b with
      | error h => rfl
      | ok added => cases added <;> rfl

theorem lookupEdge_setLast (s : Progress) (last : Address) (entry : Address × Address)
    (a b : Address) :
    lookupEdge t fuel (s.setLast last) entry a b =
      ((lookupEdge t fuel s entry a b).1.setLast last, (lookupEdge t fuel s entry a b).2) := by
  simp only [lookupEdge, Progress.setLast]
  cases s.cfg.findEdge a b with
  | some e => rfl
  | none =>
      cases s.cfg.intraJump a b with
      | some added => rfl
      | none => exact lookupPltGot_setLast s last entry a b

theorem lookupEdge_lastLibCall (s : Progress) (entry : Address × Address) (a b : Address) :
    (lookupEdge t fuel s entry a b).1.lastLibCall = s.lastLibCall :=
  congrArg (·.1.lastLibCall) (lookupEdge_setLast s s.lastLibCall entry a b)

theorem normalizeEntry_setLast {s : Progress} {last a b : Address} {known : Bool}
    (agree : known = true → last = s.lastLibCall)
    (ownA : (known || !t.offsets.isLibReturn s.cfg a) = true)
    (ownB : (known || t.offsets.isLibCall s.cfg a || !t.offsets.isLibReturn s.cfg b) = true) :
    ∃ last', normalizeEntry t (s.setLast last) (a, b) =
        ((normalizeEntry t s (a, b)).1.setLast last', (normalizeEntry t s (a, b)).2) ∧
      ((known || t.offsets.isLibCall s.cfg a || t.offsets.isLibCall s.cfg b) = true →
        last' = (normalizeEntry t s (a, b)).1.lastLibCall) := by
  obtain ⟨sameA, agreeA⟩ := jitNormalizeAddr_agree agree ownA
  obtain ⟨sameB, agreeB⟩ := jitNormalizeAddr_agree agreeA ownB
  refine ⟨_, ?_, agreeB⟩
  simp only [normalizeEntry, Progress.setLast, sameA, sameB]

theorem jitRound_setLast {s : Progress} {last a b : Address} {known : Bool}
    (agree : known = true → last = s.lastLibCall)
    (ownA : (known || !t.offsets.isLibReturn s.cfg a) = true)
    (ownB : (known || t.offsets.isLibCall s.cfg a || !t.offsets.isLibReturn s.cfg b) = true) :
    ∃ last', jitRound t fuel (s.setLast last) (a, b) =
        ((jitRound t fuel s (a, b)).1.setLast last', (jitRound t fuel s (a, b)).2) ∧
      ((known || t.offsets.isLibCall s.cfg a || t.offsets.isLibCall s.cfg b) = true →
        last' = (jitRound t fuel s (a, b)).1.lastLibCall) := by
  obtain ⟨last', normalized, agree'⟩ := normalizeEntry_setLast agree ownA ownB
  refine ⟨last', ?_, fun settled => (agree' settled).trans ?_⟩
  · simp only [jitRound, normalized]
    split_ifs
    · rfl
    · exact lookupEdge_setLast { (normalizeEntry t s (a, b)).1 with cfg := _ } last' (a, b) _ _
  · simp only [jitRound]
    split_ifs
    · rfl
    · rw [lookupEdge_lastLibCall]

theorem jitRounds_setLast {entries : List (Address × Address)} {s : Progress} {last : Address}
    {known : Bool} (agree : known = true → last = s.lastLibCall)
    (own : readsOwnCalls t fuel known entries s = true) :
    ∃ last', jitRounds t fuel entries (s.setLast last) =
      ((jitRounds t fuel entries s).1.setLast last', (jitRounds t fuel entries s).2) := by
  induction entries generalizing s last known with
  | nil => exact ⟨last, rfl⟩
  | cons entry rest ih =>
      obtain ⟨a, b⟩ := entry
      simp only [readsOwnCalls, Bool.and_eq_true] at own
      obtain ⟨⟨ownA, ownB⟩, later⟩ := own
      obtain ⟨last', round, agree'⟩ := @jitRound_setLast t fuel s last a b known agree ownA ownB
      simp only [jitRounds, round]
      cases stepped : jitRound t fuel s (a, b) with
      | mk s' stop =>
          rw [stepped] at later agree'
          cases stop with
          | none => exact ih agree' later
          | some reason => exact ⟨last', rfl⟩

theorem jitValidateLbr_setLast {d : Daemon} {lbr : Lbr} (last : Address)
    (own : OwnLibCalls t fuel d lbr) :
    (jitValidateLbr t fuel { d with lastLibCall := last } lbr).map (fun r => (r.1, r.2.cfg)) =
      (jitValidateLbr t fuel d lbr).map (fun r => (r.1, r.2.cfg)) := by
  have unknown : false = true → last = d.lastLibCall := fun absurd => by cases absurd
  obtain ⟨last', rounds⟩ := jitRounds_setLast unknown own
  simp only [Progress.setLast] at rounds
  simp only [jitValidateLbr, rounds]
  cases jitRounds t fuel (lookups t (prepared t lbr))
      { cfg := d.cfg, lastLibCall := d.lastLibCall, edges := [] } with
  | mk s stop =>
      cases stop with
      | none =>
          simp only [searchPath]
          cases s.cfg.jitPathExists s.cfg.searchFuel s.edges (s.edges.headD 0) (.start d.stack) <;>
            rfl
      | some reason => cases reason <;> rfl

/-- Of the LBRs validated before, a verdict depends on what they left in the graph and on nothing
else, if the LBR names its library calls itself. -/
theorem verdict_of_graph (t : Tables) (fuel : Nat) (d d₁ d₂ : Daemon) (first second : List Lbr)
    (lbr : Lbr) (cleared : d.stack = [])
    (run₁ : jitValidateAll t fuel first d = .ok d₁) (run₂ : jitValidateAll t fuel second d = .ok d₂)
    (graph : d₁.cfg = d₂.cfg) (own : OwnLibCalls t fuel d₁ lbr) :
    (jitValidateLbr t fuel d₁ lbr).map (fun r => (r.1, r.2.cfg)) =
      (jitValidateLbr t fuel d₂ lbr).map (fun r => (r.1, r.2.cfg)) := by
  have stack : d₁.stack = d₂.stack :=
    (jitValidateAll_stack cleared run₁).trans (jitValidateAll_stack cleared run₂).symm
  have differ : d₂ = { d₁ with lastLibCall := d₂.lastLibCall } := by
    rw [graph, stack]
  rw [differ]
  exact (jitValidateLbr_setLast d₂.lastLibCall own).symm

end

/-! ## Histories that matter -/

/-- A jump in `dispatch` whose only known target is outside the executable. -/
def dispatchCfg : Cfg := .ofProgram 0x400000 0x401000
  [(0x400100, "dispatch")]
  [(0x400100, 0x400108, false, [0]), (0x400110, 0x400118, false, [0]),
    (0x400120, 0x400128, false, [0]), (0x500001, 0x500001, true, [])]
  [(0, 3, .interIndirectJmp)]

/-- A function pointer of `main` leads to `wrapper`, which jumps to the library function `puts`,
or to `puts` itself. -/
def wrapperCfg : Cfg := .ofProgram 0x400000 0x401000
  [(0x400100, "main"), (0x400200, "wrapper"), (0x7f0000000040, "puts")]
  [(0x400100, 0x400108, false, [0]), (0x40010d, 0x400118, false, [0]),
    (0x400200, 0x400208, false, [1]), (0x7f0000000040, 0x7f0000000040, true, [2])]
  [(0, 2, .indirectCall), (0, 3, .indirectCall), (2, 3, .interDirectJmp), (3, 1, .ret)]

def libraryTables : Tables :=
  { bareTables with
    offsets := { bareTables.offsets with libs := [(0x7f0000000000, 0x7f0000010000)] } }

theorem verdict_depends_on_history :
    (verdictAfter bareTables 0 [] { cfg := dispatchCfg }
        (.ofEntries [(0x400108, 0x400120)]) = some .valid ∧
      verdictAfter bareTables 0 [.ofEntries [(0x400108, 0x400110)]] { cfg := dispatchCfg }
        (.ofEntries [(0x400108, 0x400120)]) = some .invalid) ∧
    (verdictAfter libraryTables 0 [] { cfg := wrapperCfg }
        (.ofEntries [(0x400108, 0x400200), (0x7030, 0x40010d)]) = some .invalid ∧
      verdictAfter libraryTables 0 [.ofEntries [(0x400108, 0x7f0000000040)]] { cfg := wrapperCfg }
        (.ofEntries [(0x400108, 0x400200), (0x7030, 0x40010d)]) = some .valid) := by
  decide +kernel

theorem verdict_of_graph_wrapper :
    (jitValidateLbr libraryTables 0 ⟨wrapperCfg, 0x7f0000000040, []⟩
        (.ofEntries [(0x400108, 0x7f0000000040), (0x7030, 0x40010d)])).map
          (fun r => (r.1, r.2.cfg)) =
      (jitValidateLbr libraryTables 0 ⟨wrapperCfg, jitAddrUnknown, []⟩
        (.ofEntries [(0x400108, 0x7f0000000040), (0x7030, 0x40010d)])).map
          (fun r => (r.1, r.2.cfg)) :=
  verdict_of_graph libraryTables 0 ⟨wrapperCfg, jitAddrUnknown, []⟩ _ _
    [.ofEntries [(0x400108, 0x7f0000000040)]] [] _ rfl rfl rfl rfl (by decide +kernel)

end PathArmor.Analyzer

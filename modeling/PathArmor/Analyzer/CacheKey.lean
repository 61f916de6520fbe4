import PathArmor.Analyzer.History

/-!
# Cache keys

The kernel looks a verdict up by a digest of the LBR, which it reads from the newest entry back.
The analyzer reads the same ring from the oldest entry on, and edits it in one of two ways that
depend on where it starts. Neither sees more of the ring than the sequence of its entries.
-/

namespace PathArmor.Analyzer
open PathArmor.Library

/-! ## Both directions -/

theorem lbrIndex_eq_sub (lbr : Lbr) {i : Nat} (below : i < lbrEntries) :
    lbrIndex lbr i = ringIndex (lbr.tos - UInt64.ofNat (lbrEntries - 1 - i)) := by
  have bound := lbr.tos.toNat_lt
  have below16 : i < 16 := below
  rw [Fin.ext_iff]
  simp only [lbrIndex, ringIndex, lbrEntries, UInt64.toNat_mod, UInt64.toNat_add,
    UInt64.toNat_sub, UInt64.toNat_ofNat', UInt64.reduceToNat]
  omega

theorem oldestFirst_eq_reverse (lbr : Lbr) : oldestFirst lbr = lbr.newestFirst.reverse := by
  apply List.ext_getElem (by simp [oldestFirst_eq, Lbr.newestFirst])
  intro i below _
  have bound : i < lbrEntries := by simpa [oldestFirst_eq] using below
  simp only [oldestFirst_eq, Lbr.newestFirst, List.getElem_ofFn, List.getElem_reverse,
    List.getElem_map, List.getElem_range, List.length_map, List.length_range,
    lbrIndex_eq_sub lbr bound]

theorem oldestFirst_inj {lbr lbr' : Lbr} :
    oldestFirst lbr = oldestFirst lbr' ↔ lbr.newestFirst = lbr'.newestFirst := by
  rw [oldestFirst_eq_reverse, oldestFirst_eq_reverse, List.reverse_inj]

theorem entry_lbrIndex {lbr lbr' : Lbr} (same : oldestFirst lbr = oldestFirst lbr') {i : Nat}
    (below : i < lbrEntries) : lbr.entry (lbrIndex lbr i) = lbr'.entry (lbrIndex lbr' i) := by
  rw [oldestFirst_eq, oldestFirst_eq, List.ofFn_inj] at same
  exact congrFun same ⟨i, below⟩

/-! ## What the analyzer reads -/

section
variable (t : Tables)

def patchExit (entry : Address × Address) : Address × Address :=
  (if t.exitpoint entry.1 then t.offsets.armorLibReturn else entry.1, entry.2)

theorem oldestFirst_patchExits (lbr : Lbr) :
    oldestFirst (patchExits t lbr) = (oldestFirst lbr).map (patchExit t) := by
  rw [oldestFirst_eq, oldestFirst_eq, List.map_ofFn]
  rfl

theorem oldestFirst_prepared (lbr : Lbr) :
    oldestFirst (prepared t lbr) =
      (Ring.compact (matchesTarget t.offsets.armorLibEnter) (0, 0) (oldestFirst lbr)).map
        (patchExit t) := by
  rw [prepared, oldestFirst_patchExits, removeLibEnterEdges_oldestFirst]

variable {t} {lbr lbr' : Lbr}

theorem skips_congr (same : oldestFirst lbr = oldestFirst lbr') {i : Nat}
    (below : i < lbrEntries) : skips t lbr i = skips t lbr' i := by
  simp only [skips, entry_lbrIndex same below]
  cases i with
  | zero =>
      -- the entry before the oldest one is the newest one, but it makes no difference here
      generalize decide ((lbr'.entry (lbrIndex lbr' 0)).1 = t.offsets.armorLibReturn) = isReturn
      cases isReturn <;> simp
  | succ j =>
      have previous (lbr : Lbr) : ringIndex (lbr.tos + UInt64.ofNat (j + 1)) = lbrIndex lbr j := by
        rw [lbrIndex, UInt64.add_assoc]
        congr 2
        simp
      rw [previous, previous, entry_lbrIndex same (Nat.lt_of_succ_lt below)]

theorem lookups_congr (same : oldestFirst lbr = oldestFirst lbr') :
    lookups t lbr = lookups t lbr' := by
  have kept : (List.range lbrEntries).filter (fun i => !skips t lbr i) =
      (List.range lbrEntries).filter (fun i => !skips t lbr' i) :=
    List.filter_congr fun i member => by rw [skips_congr same (List.mem_range.mp member)]
  rw [lookups, lookups, kept]
  exact List.map_congr_left fun i member =>
    entry_lbrIndex same (List.mem_range.mp (List.mem_of_mem_filter member))

theorem jitValidateLbr_congr (fuel : Nat) (d : Daemon)
    (same : lbr.newestFirst = lbr'.newestFirst) :
    jitValidateLbr t fuel d lbr = jitValidateLbr t fuel d lbr' := by
  have read : lookups t (prepared t lbr) = lookups t (prepared t lbr') := by
    apply lookups_congr
    rw [oldestFirst_prepared, oldestFirst_prepared, oldestFirst_inj.mpr same]
  simp only [jitValidateLbr, read]

end

/-! ## Keys and verdicts -/

/-- The streams behind the keys determine the entries, the state file has the same ones, and LBRs
with the same entries get the same verdict and leave the same analyzer. -/
theorem cacheKey_determines_verdict (lbr lbr' : Lbr) :
    (hashLbrStream lbr = hashLbrStream lbr' ↔ lbr.newestFirst = lbr'.newestFirst) ∧
    (∀ state : LbrValidState,
      lbr.newestFirst = List.ofFn (fun k => (state.fromAddr k, state.toAddr k)) →
        hashPathsStream state = hashLbrStream lbr) ∧
    (lbr.newestFirst = lbr'.newestFirst → ∀ (t : Tables) (fuel : Nat) (d : Daemon),
      jitValidateLbr t fuel d lbr = jitValidateLbr t fuel d lbr') :=
  ⟨hashLbrStream_inj, fun _ => hashPathsStream_eq,
    fun same _ fuel d => jitValidateLbr_congr fuel d same⟩

theorem cacheKey_determines_verdict_wrapped :
    let entries : List (Address × Address) := [(0x400108, 0x7020), (0x400108, 0x7f0000000040)]
    let lbr : Lbr := .ofEntries entries
    let wrapped : Lbr :=
      { lbr with
        tos := 0
        fromAddr := fun k => lbr.fromAddr (k + 1)
        toAddr := fun k => lbr.toAddr (k + 1) }
    let state : LbrValidState :=
      { fromAddr := fun k => lbr.fromAddr (1 - k), toAddr := fun k => lbr.toAddr (1 - k) }
    hashLbrStream lbr = hashLbrStream wrapped ∧ hashPathsStream state = hashLbrStream lbr ∧
      jitValidateLbr libraryTables 0 { cfg := wrapperCfg } lbr =
        jitValidateLbr libraryTables 0 { cfg := wrapperCfg } wrapped := by
  intro entries lbr wrapped state
  have same : lbr.newestFirst = wrapped.newestFirst := by decide +kernel
  obtain ⟨streams, stateFile, verdicts⟩ := cacheKey_determines_verdict lbr wrapped
  exact ⟨streams.mpr same, stateFile state (by decide +kernel), verdicts same _ _ _⟩

end PathArmor.Analyzer

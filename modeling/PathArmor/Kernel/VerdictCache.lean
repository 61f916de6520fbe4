import PathArmor.Kernel.Validation

/-!
# What the verdict cache remembers

`jit_cache.hashes` is the next position to write and the number of entries that are searched. After
`JIT_CACHE_SIZE` stores it starts at zero again, and with it the search.
-/

namespace PathArmor.Kernel
open PathArmor.Library

section
variable {δ : Type} [DecidableEq δ] (hashLbr : Lbr → δ)

/-- The digest that an event puts into the cache. -/
def Validation.stored (s : Validation δ) : Event → List δ
  | .readResult i =>
      if s.jitResult = 0 ∨ s.jitResult = 2 ∨ s.jitResult = 1 then [hashLbr (s.call i).lbr] else []
  | _ => []

/-- The module, with the digests stored so far in their order. -/
def logged : System (Validation δ × List δ) Event where
  step s e := ((validation hashLbr).step s.1 e).map fun s' => (s', s.2 ++ s.1.stored hashLbr e)

/-- The digests stored since the counter was last zero. -/
def sinceWrap (digests : List δ) : List δ :=
  digests.drop (jitCacheSize * (digests.length / jitCacheSize))

end

section
variable {δ : Type}

theorem sinceWrap_concat {digests : List δ} (hash : δ) :
    sinceWrap (digests ++ [hash]) =
      if (digests.length + 1) % jitCacheSize = 0 then [] else sinceWrap digests ++ [hash] := by
  have size : jitCacheSize * (digests.length / jitCacheSize) ≤ digests.length :=
    Nat.mul_div_le _ _
  simp only [sinceWrap, List.length_append, List.length_singleton, Nat.succ_div,
    Nat.dvd_iff_mod_eq_zero]
  split
  · rename_i wrapped
    rw [List.drop_eq_nil_iff, List.length_append, List.length_singleton]
    simp only [jitCacheSize] at wrapped ⊢
    omega
  · rw [Nat.add_zero, List.drop_append_of_le_length size]

theorem length_sinceWrap (digests : List δ) :
    (sinceWrap digests).length = digests.length % jitCacheSize := by
  rw [sinceWrap, List.length_drop, Nat.mod_eq_sub_mul_div]

end

namespace Validation
variable {δ : Type} {s s' : Validation δ} {digests : List δ}

/-- The searched part of the cache. -/
def Remembers (s : Validation δ) (digests : List δ) : Prop :=
  s.cacheHashes = (sinceWrap digests).length ∧
    ∀ k < s.cacheHashes, s.cacheHash k = (sinceWrap digests)[k]?

theorem Remembers.store (remembers : s.Remembers digests) {hash : δ}
    (written : s'.cacheHash = Function.update s.cacheHash s.cacheHashes (some hash))
    (counted : s'.cacheHashes = (s.cacheHashes + 1) % jitCacheSize) :
    s'.Remembers (digests ++ [hash]) := by
  obtain ⟨length, entries⟩ := remembers
  have position := length.trans (length_sinceWrap digests)
  have counter : s'.cacheHashes = (digests.length + 1) % jitCacheSize := by
    rw [counted, position, Nat.mod_add_mod]
  unfold Remembers
  rw [sinceWrap_concat]
  split
  case isTrue wrapped =>
    rw [counter, wrapped]
    simp
  case isFalse notWrapped =>
    have next : s'.cacheHashes = s.cacheHashes + 1 := by
      simp only [jitCacheSize] at counter position notWrapped
      omega
    refine ⟨by simp [next, length], fun k below => ?_⟩
    rw [written]
    rcases Nat.lt_succ_iff_lt_or_eq.mp (next ▸ below) with earlier | rfl
    · rw [Function.update_of_ne earlier.ne, entries k earlier,
        List.getElem?_append_left (length ▸ earlier)]
    · rw [Function.update_self, length, List.getElem?_concat_length]

theorem Remembers.readResult (remembers : s.Remembers digests) {hashLbr : Lbr → δ} {i : Nat} :
    (s.processResult (hashLbr (s.call i).lbr)).Remembers
      (digests ++ s.stored hashLbr (.readResult i)) := by
  simp only [processResult, stored]
  split
  · exact remembers.store rfl rfl
  · rwa [List.append_nil]

theorem Remembers.stepAnalyzer (remembers : s.Remembers digests) {hashLbr : Lbr → δ}
    {e : Event} (step : s.stepAnalyzer e = some s') :
    s'.Remembers (digests ++ s.stored hashLbr e) := by
  cases e with
  | downWork =>
      simp only [Validation.stepAnalyzer] at step
      simp only [stored, List.append_nil]
      split at step
      · simp only [Option.ite_none_right_eq_some, Option.some.injEq] at step
        obtain ⟨-, rfl⟩ := step
        exact remembers
      · cases step
  | copyWork | putResult | upResult =>
      simp only [Validation.stepAnalyzer] at step
      simp only [stored, List.append_nil]
      split at step
      · cases step
        exact remembers
      · cases step
  | _ => simp [Validation.stepAnalyzer] at step

section
variable [DecidableEq δ] {hashLbr : Lbr → δ}

theorem Remembers.inCache_iff (remembers : s.Remembers digests) (hash : δ) :
    s.inCache hash ↔ hash ∈ sinceWrap digests := by
  obtain ⟨length, entries⟩ := remembers
  simp only [inCache, List.any_eq_true, List.mem_range, beq_iff_eq]
  rw [List.mem_iff_getElem?]
  constructor
  · rintro ⟨k, below, found⟩
    exact ⟨k, entries k below ▸ found⟩
  · rintro ⟨k, found⟩
    have below : k < s.cacheHashes := length ▸ (List.getElem?_eq_some_iff.mp found).1
    exact ⟨k, below, entries k below ▸ found⟩

theorem Remembers.stepCall (remembers : s.Remembers digests) {e : Event}
    (step : s.stepCall hashLbr e = some s') : s'.Remembers (digests ++ s.stored hashLbr e) := by
  cases e with
  | readResult i =>
      simp only [Validation.stepCall, Option.ite_none_right_eq_some, Option.some.injEq] at step
      obtain ⟨-, rfl⟩ := step
      exact remembers.readResult
  | lookup i =>
      simp only [Validation.stepCall, Option.ite_none_right_eq_some] at step
      obtain ⟨-, step⟩ := step
      simp only [stored, List.append_nil]
      split at step <;> cases step <;> exact remembers
  | downWork | copyWork | putResult | upResult => simp [Validation.stepCall] at step
  | _ =>
      simp only [Validation.stepCall, Option.ite_none_right_eq_some, Option.some.injEq] at step
      obtain ⟨-, rfl⟩ := step
      simp only [stored, List.append_nil]
      exact remembers

theorem Remembers.step (remembers : s.Remembers digests) {e : Event}
    (step : (validation hashLbr).step s e = some s') :
    s'.Remembers (digests ++ s.stored hashLbr e) := by
  rcases (Option.orElse_eq_some _ _ _).mp step with step | ⟨-, step⟩
  · exact remembers.stepCall step
  · exact remembers.stepAnalyzer step

theorem logged_remembers {s₀ : Validation δ} (initialized : s₀.cacheHashes = 0)
    {events : List Event}
    (run : (logged hashLbr).Run (fun _ _ => True) (s₀, []) events (s, digests)) :
    s.Remembers digests := by
  apply run.invariant (P := fun s => s.1.Remembers s.2)
  · intro s e s' remembers _ step
    simp only [logged, Option.map_eq_some_iff] at step
    obtain ⟨next, step, rfl⟩ := step
    exact remembers.step step
  · simp [Remembers, initialized, sinceWrap]

theorem lookup_eq {i : Nat} (step : (validation hashLbr).step s (.lookup i) = some s') :
    (s'.call i).phase = if s.inCache (hashLbr (s.call i).lbr) then .returned else .missed := by
  rcases (Option.orElse_eq_some _ _ _).mp step with step | ⟨-, step⟩
  · simp only [Validation.stepCall, Option.ite_none_right_eq_some] at step
    obtain ⟨-, step⟩ := step
    split at step <;> cases step <;> simp [setPhase, *]
  · simp [Validation.stepAnalyzer] at step

theorem exists_lookup (hashLbr : Lbr → δ) {i : Nat} (locked : (s.call i).phase = .locked) :
    ∃ s', (validation hashLbr).step s (.lookup i) = some s' := by
  simp only [validation, Validation.stepCall, locked, if_true]
  split
  · exact ⟨_, rfl⟩
  · exact ⟨_, rfl⟩

/-- A call of `validate_lbr` returns without asking the analyzer exactly if its digest was stored
since the counter was last zero. Before the run stands `INIT`, which clears the cache. -/
theorem lookup_returns_iff {s₀ : Validation δ} (initialized : s₀.cacheHashes = 0)
    {events : List Event}
    (run : (logged hashLbr).Run (fun _ _ => True) (s₀, []) events (s, digests)) {i : Nat}
    (step : (validation hashLbr).step s (.lookup i) = some s') :
    ((s'.call i).phase = .returned ↔ hashLbr (s.call i).lbr ∈ sinceWrap digests) ∧
      ((s'.call i).phase = .returned → hashLbr (s.call i).lbr ∈ digests) ∧
      ((s'.call i).phase = .returned ∨ (s'.call i).phase = .missed) := by
  have hit := (logged_remembers initialized run).inCache_iff (hashLbr (s.call i).lbr)
  have phase := lookup_eq step
  have found : (s'.call i).phase = .returned ↔ hashLbr (s.call i).lbr ∈ sinceWrap digests := by
    rw [phase, ← hit]
    split <;> simp_all
  refine ⟨found, fun returned => List.mem_of_mem_drop (found.mp returned), ?_⟩
  rw [phase]
  split
  · exact .inl rfl
  · exact .inr rfl

end

/-! ## A full cache -/

def begun (i : Nat) (lbr : Lbr) : List Event := [.capture i lbr, .test i, .lock i]

/-- One call whose digest is not in the cache. -/
def asked (i : Nat) (lbr : Lbr) : List Event :=
  begun i lbr ++ [.lookup i, .publish i, .upWork i, .downWork, .copyWork lbr, .putResult 1,
    .upResult, .downResult i, .readResult i]

def handedOver (i : Nat) (lbr : Lbr) : List Event :=
  [.lookup i, .publish i, .upWork i, .downWork, .copyWork lbr]

def resolved (i : Nat) : List Event := [.putResult 1, .upResult, .downResult i, .readResult i]

theorem asked_eq (i : Nat) (lbr : Lbr) :
    asked i lbr = begun i lbr ++ (handedOver i lbr ++ resolved i) := rfl

/-- Nothing is under way and the calls from `n` on have not started. -/
structure Ready (s : Validation δ) (n : Nat) : Prop where
  quiet : s.Quiet
  enabled : s.disableJit = false
  unlocked : s.validationLock = none
  idle : ∀ i, n ≤ i → (s.call i).phase = .idle

theorem init_ready (lbr : Lbr) : (init lbr : Validation δ).Ready 0 :=
  ⟨⟨rfl, rfl, rfl⟩, rfl, rfl, fun _ _ => rfl⟩

section
variable [DecidableEq δ] (hashLbr : Lbr → δ) (digests : List δ) (lbr : Lbr)

theorem exec_begun {n : Nat} (ready : s.Ready n) :
    (logged hashLbr).exec (s, digests) (begun n lbr) = some ({ s with
      call := Function.update s.call n { phase := .locked, lbr }
      validationLock := some n }, digests) := by
  have phase := ready.idle n le_rfl
  simp [System.exec, logged, validation, begun, stepCall, setPhase, stored, phase, ready.enabled,
    ready.unlocked]

theorem exists_locked {n : Nat} (ready : s.Ready n) :
    ∃ s', (logged hashLbr).exec (s, digests) (begun n lbr) = some (s', digests) ∧
      s'.call n = { phase := .locked, lbr } :=
  ⟨_, exec_begun hashLbr digests lbr ready, Function.update_self ..⟩

theorem exec_handedOver {n : Nat} (call : s.call n = { phase := .locked, lbr }) (quiet : s.Quiet)
    (absent : s.inCache (hashLbr lbr) = false) :
    (logged hashLbr).exec (s, digests) (handedOver n lbr) = some ({ s with
      call := Function.update s.call n { phase := .waiting, lbr }
      jitWork := some n
      analyzer := .analyzing n lbr }, digests) := by
  obtain ⟨work, result, analyzer⟩ := quiet
  simp [System.exec, logged, validation, handedOver, stepCall, stepAnalyzer, setPhase, stored, call,
    absent, work, analyzer]

theorem exec_resolved {n : Nat} (call : s.call n = { phase := .waiting, lbr })
    (analyzing : s.analyzer = .analyzing n lbr) (work : s.jitWorkCond = 0)
    (result : s.jitResultCond = 0) (enabled : s.disableJit = false)
    (idle : ∀ i, n + 1 ≤ i → (s.call i).phase = .idle) :
    ∃ s', (logged hashLbr).exec (s, digests) (resolved n) = some (s', digests ++ [hashLbr lbr]) ∧
      s'.Ready (n + 1) := by
  refine ⟨{ s with
    call := Function.update s.call n { phase := .returned, lbr }
    validationLock := none
    analyzer := .idle
    jitResult := 1
    answer := some (n, lbr, 1)
    cacheHash := Function.update s.cacheHash s.cacheHashes (some (hashLbr lbr))
    cacheHashes := (s.cacheHashes + 1) % jitCacheSize }, ?_, ⟨work, result, rfl⟩, enabled, rfl, ?_⟩
  · simp [System.exec, logged, validation, resolved, stepCall, stepAnalyzer, setPhase, stored, call,
      analyzing, result, processResult, addToCache]
  · intro i later
    change (Function.update s.call n _ i).phase = _
    rw [Function.update_of_ne (by omega)]
    exact idle i later

theorem exec_asked {n : Nat} (ready : s.Ready n)
    (absent : s.inCache (hashLbr lbr) = false) :
    ∃ s', (logged hashLbr).exec (s, digests) (asked n lbr) = some (s', digests ++ [hashLbr lbr]) ∧
      s'.Ready (n + 1) := by
  have begins := exec_begun hashLbr digests lbr ready
  obtain ⟨quiet, enabled, -, idle⟩ := ready
  rw [asked_eq, System.exec_append, begins, Option.bind_some, System.exec_append,
    exec_handedOver hashLbr digests lbr, Option.bind_some]
  · apply exec_resolved hashLbr digests lbr
    · exact Function.update_self ..
    · rfl
    · exact quiet.1
    · exact quiet.2.1
    · exact enabled
    · intro i later
      simp [Function.update_of_ne (by omega : i ≠ n), idle i (by omega)]
  · exact Function.update_self ..
  · exact quiet
  · exact absent

end

theorem lookup_returns_iff_again :
    ∃ (s s' : Validation (List UInt8)) (digests : List (List UInt8)),
      (logged hashLbrStream).Run (fun _ _ => True) (init firstLbr, [])
        (asked 0 firstLbr ++ begun 1 firstLbr) (s, digests) ∧
      (validation hashLbrStream).step s (.lookup 1) = some s' ∧ (s'.call 1).phase = .returned := by
  obtain ⟨s, first, ready⟩ := exec_asked hashLbrStream [] firstLbr (init_ready firstLbr) rfl
  obtain ⟨s', second, call⟩ :=
    exists_locked hashLbrStream [hashLbrStream firstLbr] firstLbr ready
  have run : (logged hashLbrStream).Run (fun _ _ => True) (init firstLbr, [])
      (asked 0 firstLbr ++ begun 1 firstLbr) (s', [hashLbrStream firstLbr]) := by
    apply System.Run.of_exec (fun _ _ _ => trivial)
    rw [System.exec_append, first, Option.bind_some]
    exact second
  obtain ⟨s'', step⟩ := exists_lookup hashLbrStream (congrArg Call.phase call)
  refine ⟨s', s'', _, run, step, (lookup_returns_iff rfl run step).1.mpr ?_⟩
  rw [call]
  simp [sinceWrap, jitCacheSize]

def numbered (k : Nat) : Lbr := .ofEntries [(0, UInt64.ofNat k)]

theorem head?_newestFirst_numbered (k : Nat) :
    (numbered k).newestFirst.head? = some (0, UInt64.ofNat k) := by
  simp [Lbr.newestFirst, Lbr.entry, numbered, Lbr.ofEntries, ringIndex, List.head?_range]

theorem hashLbrStream_numbered_ne {j k : Nat} (below : j < k) (small : k < jitCacheSize) :
    hashLbrStream (numbered j) ≠ hashLbrStream (numbered k) := by
  intro same
  have newest := congrArg List.head? (hashLbrStream_inj.mp same)
  simp only [head?_newestFirst_numbered, Option.some.injEq, Prod.mk.injEq, true_and] at newest
  have number := congrArg UInt64.toNat newest
  simp only [UInt64.toNat_ofNat', jitCacheSize] at number small
  omega

def filling (n : Nat) : List Event := (List.range n).flatMap fun k => asked k (numbered k)

def fillingDigests (n : Nat) : List (List UInt8) :=
  (List.range n).map fun k => hashLbrStream (numbered k)

theorem exec_filling (lbr : Lbr) {n : Nat} (fits : n ≤ jitCacheSize) :
    ∃ s, (logged hashLbrStream).exec (init lbr, []) (filling n) = some (s, fillingDigests n) ∧
      s.Ready n := by
  induction n with
  | zero => exact ⟨init lbr, rfl, init_ready lbr⟩
  | succ n ih =>
      obtain ⟨s, executed, ready⟩ := ih (Nat.le_of_succ_le fits)
      have remembers : s.Remembers (fillingDigests n) :=
        logged_remembers rfl (.of_exec (fun _ _ _ => trivial) executed)
      have absent : s.inCache (hashLbrStream (numbered n)) = false := by
        rw [← Bool.not_eq_true, remembers.inCache_iff]
        intro found
        obtain ⟨j, earlier, same⟩ := List.mem_map.mp (List.mem_of_mem_drop found)
        exact hashLbrStream_numbered_ne (List.mem_range.mp earlier) fits same
      obtain ⟨s', asked, ready'⟩ := exec_asked _ (fillingDigests n) _ ready absent
      refine ⟨s', ?_, ready'⟩
      simp only [filling, fillingDigests, List.range_succ, List.flatMap_append, List.map_append,
        List.flatMap_singleton, List.map_singleton] at executed asked ⊢
      rw [System.exec_append, executed, Option.bind_some, asked]

theorem sinceWrap_fillingDigests : sinceWrap (fillingDigests jitCacheSize) = [] := by
  rw [← List.length_eq_zero_iff, length_sinceWrap, fillingDigests, List.length_map,
    List.length_range, Nat.mod_self]

def Untimed (_ : Validation δ × List δ) (e : Event) : Prop := ∀ i, e ≠ .timeout i

theorem filling_untimed {e : Event} {n m : Nat} {lbr : Lbr} (mem : e ∈ filling n ++ begun m lbr)
    (s : Validation δ × List δ) : Untimed s e := by
  simp only [filling, asked, begun, List.mem_append, List.mem_flatMap] at mem
  intro i rfl
  simp at mem

/-- After `JIT_CACHE_SIZE` different LBRs, even the LBR validated last is not found. -/
theorem full_cache_forgets :
    ∃ (s s' : Validation (List UInt8)) (digests : List (List UInt8)),
      (logged hashLbrStream).Run Untimed (init firstLbr, [])
        (filling jitCacheSize ++ begun jitCacheSize (numbered 511)) (s, digests) ∧
      digests.length = jitCacheSize ∧
      digests.getLast? = some (hashLbrStream (s.call jitCacheSize).lbr) ∧
      (validation hashLbrStream).step s (.lookup jitCacheSize) = some s' ∧
      (s'.call jitCacheSize).phase = .missed := by
  obtain ⟨s, executed, ready⟩ := exec_filling firstLbr le_rfl
  obtain ⟨s', begun, call⟩ :=
    exists_locked hashLbrStream (fillingDigests jitCacheSize) (numbered 511) ready
  have whole : (logged hashLbrStream).exec (init firstLbr, [])
      (filling jitCacheSize ++ Validation.begun jitCacheSize (numbered 511)) =
        some (s', fillingDigests jitCacheSize) := by
    rw [System.exec_append, executed, Option.bind_some, begun]
  have remembers := logged_remembers rfl (.of_exec (fun _ _ _ => trivial) whole)
  have absent : ¬ s'.inCache (hashLbrStream (s'.call jitCacheSize).lbr) := by
    rw [remembers.inCache_iff, sinceWrap_fillingDigests]
    exact List.not_mem_nil
  obtain ⟨s'', step⟩ := exists_lookup hashLbrStream (congrArg Call.phase call)
  refine ⟨s', s'', _, .of_exec (fun e mem s => filling_untimed mem s) whole, ?_, ?_, step, ?_⟩
  · simp [fillingDigests]
  · rw [call]
    simp [fillingDigests, jitCacheSize, List.getLast?_range]
  · rw [lookup_eq step, if_neg absent]

end Validation

end PathArmor.Kernel

import PathArmor.Analyzer.Edge
import PathArmor.Library.BinarySearch

/-!
# Wrapping the library functions of the target

`wrapLibraries` goes through the PLT of the target. It puts a call of `armor_lib_enter` in front of
the library functions that the target can call, and collects the tables for the analyzer: the PLT
with the GOT, in which a bit marks the functions that cannot be wrapped, and the exit points of the
functions that need not be wrapped. What Dyninst knows about the target, and whether it succeeds, is
the `Mutatee`.
-/

namespace PathArmor.Pass
open PathArmor.Analyzer (Address)
open PathArmor.Library

structure RelocationEntry where
  name : String
  targetAddr : Address
  relAddr : Address

inductive Snippet
  | libEnterCall
  | other (n : Nat)
  deriving DecidableEq

/-- `findPoint` may return `NULL` instead of a vector. -/
structure LibFunction where
  moduleBase : Address
  subroutines : Option (List Address)
  exits : Option (List Address)
  entries : Option (List Address)
  instrumentable : Bool

structure Mutatee where
  readDataSpace : Address → Address
  findFunction : Address → Option LibFunction
  /-- The offsets of the symbols of the module at an address, if `getAllSymbols` succeeds. -/
  symbols : Address → Option (List Address)
  snippets : Address → List Snippet
  deletes : Address → Snippet → Bool
  inserts : Address → Bool
  finalizes : Bool

def LibFunction.isSimple (f : LibFunction) : Bool :=
  match f.subroutines with
  | none | some [] => true
  | some _ => false

def Mutatee.getSymbol (m : Mutatee) (base offset : Address) : Bool :=
  match m.symbols base with
  | none => false
  | some symbols => symbols.contains offset

/-- The value in the GOT for this PLT entry. -/
def Mutatee.libFuncAddress (m : Mutatee) (rel : RelocationEntry) : Address :=
  m.readDataSpace rel.relAddr

def unsupportedNames : List String := ["siglongjmp", "longjmp", "__sigsetjmp", "select", "_setjmp"]

def flagBit : Address := (1 : UInt64) <<< 63

/-- Where the body of the loop ends for a PLT entry. -/
inductive Outcome
  | alreadyWrapped
  | manuallyWrapped
  | notSupported
  | notFound
  | noSymbol
  | notInstrumentable
  | simple (exits : List Address)
  | noExitPoint
  | wrap (entries : Option (List Address))

/-- The exit points in the vdso are known beforehand. -/
def vdsoExit (name : String) (libFuncAddress : Address) : Outcome :=
  if name = "time" then .simple [libFuncAddress + 21]
  else if name = "gettimeofday" then .simple [libFuncAddress + 282]
  else .notFound

section
variable (m : Mutatee)

def classifyFunction (libFuncAddress : Address) (f : LibFunction) : Outcome :=
  if m.getSymbol f.moduleBase (libFuncAddress - f.moduleBase) then
    if f.instrumentable then
      if f.isSimple then .simple (f.exits.getD [])
      else
        match f.exits with
        | none | some [] => .noExitPoint
        | some _ => .wrap f.entries
    else .notInstrumentable
  else .noSymbol

def classify (wrappedFunctions : List Address) (rel : RelocationEntry) : Outcome :=
  if m.libFuncAddress rel ∈ wrappedFunctions then .alreadyWrapped
  else if rel.name = "pthread_create" then .manuallyWrapped
  else if rel.name ∈ unsupportedNames then .notSupported
  else
    match m.findFunction (m.libFuncAddress rel) with
    | none => vdsoExit rel.name (m.libFuncAddress rel)
    | some f => classifyFunction m (m.libFuncAddress rel) f

/-- The arrays and sets that the loop fills, and the snippets at each point. -/
structure Wrapping where
  plts : List Address := []
  gots : List Address := []
  wrappedFunctions : List Address := []
  simpleRets : List Address := []
  snippets : Address → List Snippet

namespace Wrapping
variable (w : Wrapping)

def record (rel : RelocationEntry) (bits : Address) : Wrapping :=
  { w with
    plts := w.plts ++ [rel.targetAddr ||| bits]
    gots := w.gots ++ [m.libFuncAddress rel ||| bits] }

def addExits (exits : List Address) : Wrapping :=
  { w with simpleRets := exits.foldl (fun set x => insertOrdered x set) w.simpleRets }

/-- The snippets that are there already are deleted first. `none` is `exit(EXIT_FAILURE)`. -/
def insertSnippet (libFuncAddress : Address) : Option (List Address) → Option Wrapping
  | some [point] =>
      if (w.snippets point).all (m.deletes point) && m.inserts point then
        some { w with
          snippets := Function.update w.snippets point [.libEnterCall]
          wrappedFunctions := insertOrdered libFuncAddress w.wrappedFunctions }
      else none
  | _ => none

end Wrapping

def wrapEntry (w : Wrapping) (rel : RelocationEntry) : Option Wrapping :=
  match classify m w.wrappedFunctions rel with
  | .notSupported | .notInstrumentable => some (w.record m rel flagBit)
  | .simple exits => some ((w.record m rel 0).addExits exits)
  | .wrap entries => (w.record m rel 0).insertSnippet m (m.libFuncAddress rel) entries
  | _ => some (w.record m rel 0)

def wrapEntries : List RelocationEntry → Wrapping → Option Wrapping
  | [], w => some w
  | rel :: plt, w => (wrapEntry m w rel).bind (wrapEntries plt)

def wrapLibraries (plt : List RelocationEntry) : Option Wrapping :=
  (wrapEntries m plt { snippets := m.snippets }).filter fun _ => m.finalizes

end

/-! ## What becomes of an entry -/

section
variable (m : Mutatee)

/-- The entry leads to a function that is wrapped, at this point. -/
def WrapsAt (rel : RelocationEntry) (point : Address) : Prop :=
  classify m [] rel = .wrap (some [point])

/-- The function cannot be wrapped, or must not be. -/
def Whitelisted (rel : RelocationEntry) : Prop :=
  classify m [] rel = .notSupported ∨ classify m [] rel = .notInstrumentable

/-- The entry leads to a function that is not wrapped because it is simple, and that ends there. -/
def EndsAt (rel : RelocationEntry) (x : Address) : Prop :=
  ∃ exits, classify m [] rel = .simple exits ∧ x ∈ exits

/-- The function of the entry has been wrapped for an entry before. -/
def WrappedBefore (before : List RelocationEntry) (rel : RelocationEntry) : Prop :=
  ∃ earlier ∈ before, ∃ point, WrapsAt m earlier point ∧
    m.libFuncAddress earlier = m.libFuncAddress rel

/-- The bit is set in the tables. -/
def Flagged (before : List RelocationEntry) (rel : RelocationEntry) : Prop :=
  Whitelisted m rel ∧ ¬ WrappedBefore m before rel

end

section
variable {m : Mutatee} {wrapped : List Address} {rel earlier : RelocationEntry} {point : Address}

theorem classify_of_mem (already : m.libFuncAddress rel ∈ wrapped) :
    classify m wrapped rel = .alreadyWrapped := if_pos already

theorem classify_of_notMem (new : m.libFuncAddress rel ∉ wrapped) :
    classify m wrapped rel = classify m [] rel := by
  rw [classify, classify, if_neg new, if_neg List.not_mem_nil]

theorem vdsoExit_ne_wrap (name : String) (x : Address) (entries : Option (List Address)) :
    vdsoExit name x ≠ .wrap entries := by
  unfold vdsoExit
  split_ifs <;> nofun

/-- Another entry for a wrapped function is wrapped itself, unless its name rules that out. -/
theorem WrapsAt.classify_same (wraps : WrapsAt m earlier point)
    (same : m.libFuncAddress earlier = m.libFuncAddress rel) :
    classify m [] rel = .manuallyWrapped ∨ classify m [] rel = .notSupported ∨
      WrapsAt m rel point := by
  have found : ∃ f, m.findFunction (m.libFuncAddress rel) = some f ∧
      classifyFunction m (m.libFuncAddress rel) f = .wrap (some [point]) := by
    rw [WrapsAt, classify, if_neg List.not_mem_nil, same] at wraps
    split_ifs at wraps
    cases found : m.findFunction (m.libFuncAddress rel) with
    | none => exact absurd (by simpa [found] using wraps) (vdsoExit_ne_wrap _ _ _)
    | some f => exact ⟨f, rfl, by simpa [found] using wraps⟩
  obtain ⟨f, found, wraps'⟩ := found
  rw [WrapsAt, classify, if_neg List.not_mem_nil, found]
  split_ifs
  · exact .inl rfl
  · exact .inr (.inl rfl)
  · exact .inr (.inr wraps')

end

/-! ## The loop -/

/-- All that the body of the loop can do. -/
inductive Step (m : Mutatee) (w : Wrapping) (rel : RelocationEntry) : Wrapping → Prop
  | alreadyWrapped (already : m.libFuncAddress rel ∈ w.wrappedFunctions) :
      Step m w rel (w.record m rel 0)
  | flagged (new : m.libFuncAddress rel ∉ w.wrappedFunctions) (whitelisted : Whitelisted m rel) :
      Step m w rel (w.record m rel flagBit)
  | simple (new : m.libFuncAddress rel ∉ w.wrappedFunctions) {exits : List Address}
      (simple : classify m [] rel = .simple exits) :
      Step m w rel ((w.record m rel 0).addExits exits)
  | wrap (new : m.libFuncAddress rel ∉ w.wrappedFunctions) {point : Address}
      (wraps : WrapsAt m rel point) :
      Step m w rel { w.record m rel 0 with
        snippets := Function.update w.snippets point [.libEnterCall]
        wrappedFunctions := insertOrdered (m.libFuncAddress rel) w.wrappedFunctions }
  | skipped (new : m.libFuncAddress rel ∉ w.wrappedFunctions) (unmarked : ¬ Whitelisted m rel)
      (endless : ∀ x, ¬ EndsAt m rel x) (unwrapped : ∀ point, ¬ WrapsAt m rel point) :
      Step m w rel (w.record m rel 0)

section
variable {m : Mutatee} {w w' : Wrapping} {rel : RelocationEntry} {plt : List RelocationEntry}

theorem wrapEntry_step (entered : wrapEntry m w rel = some w') : Step m w rel w' := by
  by_cases already : m.libFuncAddress rel ∈ w.wrappedFunctions
  · rw [wrapEntry, classify_of_mem already] at entered
    obtain rfl := Option.some.inj entered
    exact .alreadyWrapped already
  · rw [wrapEntry, classify_of_notMem already] at entered
    cases outcome : classify m [] rel with
    | notSupported | notInstrumentable =>
        simp only [outcome] at entered
        obtain rfl := Option.some.inj entered
        exact .flagged already (by simp [Whitelisted, outcome])
    | simple exits =>
        simp only [outcome] at entered
        obtain rfl := Option.some.inj entered
        exact .simple already outcome
    | wrap entries =>
        simp only [outcome] at entered
        unfold Wrapping.insertSnippet at entered
        split at entered
        · split_ifs at entered
          obtain rfl := Option.some.inj entered
          exact .wrap already outcome
        · cases entered
    | _ =>
        simp only [outcome] at entered
        obtain rfl := Option.some.inj entered
        refine .skipped already ?_ ?_ ?_
        · simp [Whitelisted, outcome]
        · simp [EndsAt, outcome]
        · simp [WrapsAt, outcome]

/-- What is or-ed to an entry of the tables. -/
def Bits (m : Mutatee) (before : List RelocationEntry) (rel : RelocationEntry) (bits : Address) :
    Prop := (Flagged m before rel → bits = flagBit) ∧ (¬ Flagged m before rel → bits = 0)

/-- What the loop has done after the entries `plt`. -/
structure Described (m : Mutatee) (plt : List RelocationEntry) (w : Wrapping) : Prop where
  items : w.plts.length = plt.length ∧ w.gots.length = plt.length
  tables : ∀ i rel, plt[i]? = some rel → ∃ bits, Bits m (plt.take i) rel bits ∧
    w.plts[i]? = some (rel.targetAddr ||| bits) ∧ w.gots[i]? = some (m.libFuncAddress rel ||| bits)
  wrapped : ∀ x, x ∈ w.wrappedFunctions ↔ ∃ rel ∈ plt, ∃ point, WrapsAt m rel point ∧
    m.libFuncAddress rel = x
  sorted : w.simpleRets.Pairwise (· < ·)
  exits : ∀ x, x ∈ w.simpleRets ↔ ∃ rel ∈ plt, EndsAt m rel x
  wrappedAt : ∀ point, (∃ rel ∈ plt, WrapsAt m rel point) → w.snippets point = [.libEnterCall]
  others : ∀ point, (∀ rel ∈ plt, ¬ WrapsAt m rel point) → w.snippets point = m.snippets point

theorem exists_mem_concat {α : Type*} {l : List α} {x : α} {P : α → Prop} :
    (∃ y ∈ l ++ [x], P y) ↔ (∃ y ∈ l, P y) ∨ P x := by
  simp [or_and_right, exists_or]

namespace Described

theorem start (m : Mutatee) : Described m [] { snippets := m.snippets } where
  items := ⟨rfl, rfl⟩
  tables := by simp
  wrapped := by simp
  sorted := .nil
  exits := by simp
  wrappedAt := by simp
  others _ _ := rfl

theorem wrappedBefore_iff (described : Described m plt w) :
    WrappedBefore m plt rel ↔ m.libFuncAddress rel ∈ w.wrappedFunctions :=
  (described.wrapped _).symm

theorem record_tables (described : Described m plt w) {bits : Address} (set : Bits m plt rel bits)
    (plts : w'.plts = (w.record m rel bits).plts) (gots : w'.gots = (w.record m rel bits).gots) :
    (w'.plts.length = (plt ++ [rel]).length ∧ w'.gots.length = (plt ++ [rel]).length) ∧
    ∀ i r, (plt ++ [rel])[i]? = some r → ∃ bits, Bits m ((plt ++ [rel]).take i) r bits ∧
      w'.plts[i]? = some (r.targetAddr ||| bits) ∧
      w'.gots[i]? = some (m.libFuncAddress r ||| bits) := by
  rw [plts, gots, Wrapping.record]
  refine ⟨by simp [described.items], fun i r entry => ?_⟩
  rcases Nat.lt_or_ge i plt.length with earlier | last
  · rw [List.getElem?_append_left earlier] at entry
    rw [List.take_append_of_le_length earlier.le, List.getElem?_append_left (by
      rwa [described.items.1]), List.getElem?_append_left (by rwa [described.items.2])]
    exact described.tables i r entry
  · rw [List.getElem?_append_right last] at entry
    obtain ⟨rfl, rfl⟩ : i = plt.length ∧ rel = r := by
      rw [List.getElem?_singleton] at entry
      split_ifs at entry with zero
      exact ⟨by omega, Option.some.inj entry⟩
    refine ⟨bits, by rwa [List.take_left], ?_, ?_⟩
    · rw [← described.items.1]
      simp
    · rw [← described.items.2]
      simp

/-- An entry that is not wrapped now: what is wrapped, and where, stays. -/
theorem keep (described : Described m plt w) {bits : Address} (set : Bits m plt rel bits)
    (same : w'.plts = (w.record m rel bits).plts ∧ w'.gots = (w.record m rel bits).gots ∧
      w'.wrappedFunctions = w.wrappedFunctions ∧ w'.snippets = w.snippets)
    (covered : ∀ point, WrapsAt m rel point → ∃ r ∈ plt, WrapsAt m r point ∧
      m.libFuncAddress r = m.libFuncAddress rel)
    (sorted : w'.simpleRets.Pairwise (· < ·))
    (exits : ∀ x, x ∈ w'.simpleRets ↔ x ∈ w.simpleRets ∨ EndsAt m rel x) :
    Described m (plt ++ [rel]) w' := by
  obtain ⟨plts, gots, wrapped, snippets⟩ := same
  obtain ⟨items, tables⟩ := described.record_tables set plts gots
  refine ⟨items, tables, ?_, sorted, ?_, ?_, ?_⟩
  · intro x
    rw [wrapped, described.wrapped, exists_mem_concat]
    refine (or_iff_left_of_imp ?_).symm
    rintro ⟨point, wraps, rfl⟩
    obtain ⟨r, member, wraps', same⟩ := covered point wraps
    exact ⟨r, member, point, wraps', same⟩
  · intro x
    rw [exits, described.exits, exists_mem_concat]
  · intro point wraps
    rw [snippets]
    apply described.wrappedAt
    rcases exists_mem_concat.mp wraps with earlier | now
    · exact earlier
    · obtain ⟨r, member, wraps', -⟩ := covered point now
      exact ⟨r, member, wraps'⟩
  · intro point none
    rw [snippets]
    exact described.others point fun r member => none r (List.mem_append_left _ member)

theorem bits_zero (unmarked : ¬ Flagged m plt rel) : Bits m plt rel 0 :=
  ⟨fun flagged => absurd flagged unmarked, fun _ => rfl⟩

theorem alreadyWrapped (described : Described m plt w)
    (already : m.libFuncAddress rel ∈ w.wrappedFunctions) :
    Described m (plt ++ [rel]) (w.record m rel 0) := by
  have before := described.wrappedBefore_iff.mpr already
  have unmarked : ¬ Flagged m plt rel := fun flagged => flagged.2 before
  obtain ⟨earlier, member, point, wraps, same⟩ := before
  refine described.keep (bits_zero unmarked) ⟨rfl, rfl, rfl, rfl⟩ ?_ described.sorted ?_
  · intro point' wraps'
    -- The same function has the same entry point.
    rcases wraps.classify_same same with other | other | again
    · exact absurd (wraps'.symm.trans other) nofun
    · exact absurd (wraps'.symm.trans other) nofun
    · obtain rfl : point = point' := by simpa [WrapsAt] using again.symm.trans wraps'
      exact ⟨earlier, member, wraps, same⟩
  · intro x
    refine (or_iff_left ?_).symm
    rintro ⟨exits, simple, -⟩
    rcases wraps.classify_same same with other | other | other
    all_goals exact absurd (simple.symm.trans other) nofun

theorem flagged (described : Described m plt w) (new : m.libFuncAddress rel ∉ w.wrappedFunctions)
    (whitelisted : Whitelisted m rel) : Described m (plt ++ [rel]) (w.record m rel flagBit) := by
  have marked : Flagged m plt rel :=
    ⟨whitelisted, fun before => new (described.wrappedBefore_iff.mp before)⟩
  refine described.keep ⟨fun _ => rfl, (absurd marked ·)⟩ ⟨rfl, rfl, rfl, rfl⟩ ?_ described.sorted ?_
  · intro point wraps
    rcases whitelisted with other | other
    all_goals exact absurd (wraps.symm.trans other) nofun
  · intro x
    refine (or_iff_left ?_).symm
    rintro ⟨exits, simple, -⟩
    rcases whitelisted with other | other
    all_goals exact absurd (simple.symm.trans other) nofun

theorem simple (described : Described m plt w) {exits : List Address}
    (simple : classify m [] rel = .simple exits) :
    Described m (plt ++ [rel]) ((w.record m rel 0).addExits exits) := by
  have unmarked : ¬ Flagged m plt rel := by simp [Flagged, Whitelisted, simple]
  refine described.keep (bits_zero unmarked) ⟨rfl, rfl, rfl, rfl⟩ ?_ ?_ ?_
  · intro point wraps
    exact absurd (wraps.symm.trans simple) nofun
  · exact List.foldlRecOn exits _ described.sorted fun _ sorted x _ =>
      pairwise_insertOrdered x sorted
  · intro x
    have ends : EndsAt m rel x ↔ x ∈ exits := by simp [EndsAt, simple]
    rw [ends]
    exact mem_foldl_insertOrdered

theorem wrap (described : Described m plt w) {point : Address} (wraps : WrapsAt m rel point) :
    Described m (plt ++ [rel]) { w.record m rel 0 with
      snippets := Function.update w.snippets point [.libEnterCall]
      wrappedFunctions := insertOrdered (m.libFuncAddress rel) w.wrappedFunctions } := by
  have unmarked : ¬ Flagged m plt rel := by
    have outcome : classify m [] rel = .wrap (some [point]) := wraps
    simp [Flagged, Whitelisted, outcome]
  have only : ∀ point', WrapsAt m rel point' ↔ point' = point := by
    intro point'
    have outcome : classify m [] rel = .wrap (some [point]) := wraps
    simp [WrapsAt, outcome, eq_comm]
  obtain ⟨items, tables⟩ := described.record_tables (bits_zero unmarked) rfl rfl
  refine ⟨items, tables, ?_, described.sorted, ?_, ?_, ?_⟩
  · intro x
    have first : (∃ point, WrapsAt m rel point ∧ m.libFuncAddress rel = x) ↔
        x = m.libFuncAddress rel := ⟨fun ⟨_, _, same⟩ => same.symm, fun same => ⟨point, wraps, same.symm⟩⟩
    rw [exists_mem_concat, first, ← described.wrapped]
    exact mem_insertOrdered.trans or_comm
  · intro x
    have endless : ¬ EndsAt m rel x := fun ⟨_, simple, _⟩ => absurd (wraps.symm.trans simple) nofun
    rw [exists_mem_concat, ← described.exits]
    exact (or_iff_left endless).symm
  · intro point' wrapped
    rcases eq_or_ne point' point with rfl | other
    · exact Function.update_self _ _ _
    · rw [exists_mem_concat, only point', or_iff_left other] at wrapped
      exact (Function.update_of_ne other _ _).trans (described.wrappedAt point' wrapped)
  · intro point' none
    have other : point' ≠ point := fun same => none rel (by simp) ((only point').mpr same)
    refine (Function.update_of_ne other _ _).trans (described.others point' ?_)
    exact fun r member => none r (List.mem_append_left _ member)

theorem step (described : Described m plt w) (step : Step m w rel w') :
    Described m (plt ++ [rel]) w' := by
  cases step with
  | alreadyWrapped already => exact described.alreadyWrapped already
  | flagged new whitelisted => exact described.flagged new whitelisted
  | simple new simple => exact described.simple simple
  | wrap new wraps => exact described.wrap wraps
  | skipped new unmarked endless unwrapped =>
      refine described.keep (bits_zero fun flagged => unmarked flagged.1) ⟨rfl, rfl, rfl, rfl⟩ ?_
        described.sorted fun x => (or_iff_left (endless x)).symm
      intro point wraps
      exact absurd wraps (unwrapped point)

theorem entries (described : Described m plt w) {rest : List RelocationEntry}
    (done : wrapEntries m rest w = some w') : Described m (plt ++ rest) w' := by
  induction rest generalizing plt w with
  | nil =>
      obtain rfl := Option.some.inj done
      rwa [List.append_nil]
  | cons rel rest ih =>
      obtain ⟨w₁, entered, done⟩ := Option.bind_eq_some_iff.mp done
      rw [List.append_cons]
      exact ih (described.step (wrapEntry_step entered)) done

end Described

theorem wrapLibraries_described (done : wrapLibraries m plt = some w) : Described m plt w := by
  rw [wrapLibraries, Option.filter_eq_some_iff] at done
  exact (Described.start m).entries done.1

/-- Dyninst does what it is asked to: each function to be wrapped has one entry point, and the
snippets there can be replaced. -/
def Mutatee.Obliges (m : Mutatee) (plt : List RelocationEntry) : Prop :=
  m.finalizes ∧ ∀ rel ∈ plt, ∀ entries, classify m [] rel = .wrap entries →
    ∃ point, entries = some [point] ∧ m.inserts point ∧
      ∀ snippet ∈ .libEnterCall :: m.snippets point, m.deletes point snippet

theorem Described.wrapEntry_isSome (described : Described m plt w)
    (one : ∀ entries, classify m [] rel = .wrap entries →
      ∃ point, entries = some [point] ∧ m.inserts point ∧
        ∀ snippet ∈ .libEnterCall :: m.snippets point, m.deletes point snippet) :
    (wrapEntry m w rel).isSome := by
  by_cases already : m.libFuncAddress rel ∈ w.wrappedFunctions
  · rw [wrapEntry, classify_of_mem already]
    rfl
  · rw [wrapEntry, classify_of_notMem already]
    cases outcome : classify m [] rel with
    | wrap entries =>
        obtain ⟨point, rfl, inserts, deletes⟩ := one entries outcome
        have snippets : ∀ snippet ∈ w.snippets point, m.deletes point snippet := by
          intro snippet there
          apply deletes
          by_cases wrapped : ∃ rel ∈ plt, WrapsAt m rel point
          · rw [described.wrappedAt point wrapped, List.mem_singleton] at there
            exact there ▸ List.mem_cons_self
          · rw [described.others point fun r member wraps => wrapped ⟨r, member, wraps⟩] at there
            exact List.mem_cons_of_mem _ there
        have all : (w.snippets point).all (m.deletes point) := List.all_eq_true.mpr snippets
        simp [Wrapping.insertSnippet, Wrapping.record, all, inserts]
    | _ => rfl

theorem Described.wrapEntries_isSome (described : Described m plt w) {rest : List RelocationEntry}
    (one : ∀ rel ∈ rest, ∀ entries, classify m [] rel = .wrap entries →
      ∃ point, entries = some [point] ∧ m.inserts point ∧
        ∀ snippet ∈ .libEnterCall :: m.snippets point, m.deletes point snippet) :
    (wrapEntries m rest w).isSome := by
  induction rest generalizing plt w with
  | nil => rfl
  | cons rel rest ih =>
      obtain ⟨w₁, entered⟩ :=
        Option.isSome_iff_exists.mp (described.wrapEntry_isSome (one rel List.mem_cons_self))
      rw [wrapEntries, entered, Option.bind_some]
      exact ih (described.step (wrapEntry_step entered))
        fun r later => one r (List.mem_cons_of_mem _ later)

end

/-- A library with a function that makes calls, one that does not, and `select`. -/
def sampleMutatee : Mutatee where
  readDataSpace x := x + 0x7f0000000000
  findFunction
    | 0x7f0000601018 => some ⟨0x7f0000000000, some [0x7f0000601020], some [0x7f0000601030],
        some [0x7f0000601018], true⟩
    | 0x7f0000601040 => some ⟨0x7f0000000000, none, some [0x7f0000601058, 0x7f0000601050],
        some [0x7f0000601040], true⟩
    | _ => none
  symbols _ := some [0x601018, 0x601040]
  snippets _ := []
  deletes _ _ := true
  inserts _ := true
  finalizes := true

def samplePlt : List RelocationEntry :=
  [⟨"qsort", 0x400510, 0x601018⟩, ⟨"abs", 0x400520, 0x601040⟩, ⟨"select", 0x400530, 0x601060⟩,
    ⟨"time", 0x400540, 0x601080⟩]

theorem classify_samplePlt : samplePlt.map (classify sampleMutatee []) =
    [.wrap (some [0x7f0000601018]), .simple [0x7f0000601058, 0x7f0000601050], .notSupported,
      .simple [0x7f0000601095]] := rfl

theorem samplePlt_obliges : sampleMutatee.Obliges samplePlt := by
  refine ⟨rfl, fun rel member entries outcome => ?_⟩
  have classified := List.mem_map_of_mem (f := classify sampleMutatee []) member
  rw [classify_samplePlt, outcome] at classified
  obtain rfl : entries = some [0x7f0000601018] := by simpa using classified
  exact ⟨_, rfl, rfl, fun _ _ => rfl⟩

end PathArmor.Pass

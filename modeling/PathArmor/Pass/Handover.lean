import PathArmor.Analyzer.Validate
import PathArmor.Kernel.Tables
import PathArmor.Library.Memory
import PathArmor.Pass.WrapLibraries

/-!
# The tables on their way to the validator

The tables of `wrapLibraries` are pushed into the kernel, and the daemon pulls them from there. The
daemon waits for each table once, and may then read it at any time.
-/

namespace PathArmor.Analyzer

def cmpfunc (left right : Address) : Int :=
  if left < right then -1 else if left > right then 1 else 0

/-- `bsearch` in the table of exit points. -/
def isExitpoint (exitpoints : List Address) (x : Address) : Bool :=
  (Library.bsearch (cmpfunc x) exitpoints).isSome

theorem cmpfunc_neg_iff {x y : Address} : cmpfunc x y < 0 ↔ x < y := by
  unfold cmpfunc
  split_ifs with below above
  all_goals simp [below]

theorem cmpfunc_pos_iff {x y : Address} : 0 < cmpfunc x y ↔ y < x := by
  unfold cmpfunc
  split_ifs with below above
  · simpa using UInt64.le_of_lt below
  · simpa using above
  · simpa using above

theorem cmpfunc_eq_zero_iff {x y : Address} : cmpfunc x y = 0 ↔ y = x := by
  have above := cmpfunc_pos_iff (x := x) (y := y)
  have below := cmpfunc_neg_iff (x := x) (y := y)
  constructor
  · intro equal
    apply UInt64.le_antisymm
    · exact UInt64.not_lt.mp fun less => by have := below.mpr less; omega
    · exact UInt64.not_lt.mp fun less => by have := above.mpr less; omega
  · rintro rfl
    simp [cmpfunc]

theorem isExitpoint_iff {exitpoints : List Address} (sorted : exitpoints.Pairwise (· < ·))
    {x : Address} : isExitpoint exitpoints x ↔ x ∈ exitpoints := by
  have ordered : Library.Ordered (cmpfunc x) exitpoints := by
    apply sorted.imp
    intro y z before
    rw [cmpfunc_neg_iff, cmpfunc_neg_iff, cmpfunc_pos_iff, cmpfunc_pos_iff]
    exact ⟨fun less => UInt64.lt_trans less before, fun less => UInt64.lt_trans before less⟩
  rw [isExitpoint, Library.bsearch_isSome_iff ordered]
  simp only [cmpfunc_eq_zero_iff, exists_eq_right]

/-! `scanPltGot` stops at the first entry that matches in one of two ways. -/

def MatchesUnsupported (b : Address) (entry : Address × Address) : Prop :=
  entry.2 &&& uninstrumentable ≠ 0 ∧ entry.2 = b ||| uninstrumentable

section
variable {a b : Address} {table : List (Address × Address)}

theorem scanPltGot_inPlt_iff : scanPltGot a b table = .inPlt ↔
    ∃ i : Nat, table[i]? = some (a, b) ∧
      ∀ j < i, ∀ entry, table[j]? = some entry → ¬ MatchesUnsupported b entry := by
  induction table with
  | nil => simp [scanPltGot]
  | cons first rest ih =>
      obtain ⟨plt, got⟩ := first
      rw [scanPltGot]
      split_ifs with here unsupported
      · obtain ⟨rfl, rfl⟩ := here
        simp only [true_iff]
        exact ⟨0, rfl, nofun⟩
      · simp only [false_iff]
        rintro ⟨i, entry, clear⟩
        cases i with
        | zero => exact here (by simpa using entry)
        | succ i => exact clear 0 (Nat.succ_pos i) _ rfl unsupported
      · rw [ih]
        constructor
        · rintro ⟨i, entry, clear⟩
          refine ⟨i + 1, entry, fun j before e at_j => ?_⟩
          cases j with
          | zero =>
              cases at_j
              exact unsupported
          | succ j => exact clear j (by omega) e at_j
        · rintro ⟨i, entry, clear⟩
          cases i with
          | zero => exact absurd (by simpa using entry) here
          | succ i => exact ⟨i, entry, fun j before e at_j => clear (j + 1) (by omega) e at_j⟩

theorem scanPltGot_unsupported_iff : scanPltGot a b table = .unsupported ↔
    ∃ (i : Nat) (entry : Address × Address), table[i]? = some entry ∧ MatchesUnsupported b entry ∧
      ∀ j ≤ i, table[j]? ≠ some (a, b) := by
  induction table with
  | nil => simp [scanPltGot]
  | cons first rest ih =>
      obtain ⟨plt, got⟩ := first
      rw [scanPltGot]
      split_ifs with here unsupported
      · obtain ⟨rfl, rfl⟩ := here
        simp only [false_iff]
        rintro ⟨i, entry, -, -, clear⟩
        exact clear 0 (Nat.zero_le i) rfl
      · simp only [true_iff]
        refine ⟨0, _, rfl, unsupported, fun j first found => here ?_⟩
        obtain rfl : j = 0 := Nat.le_zero.mp first
        simpa using found
      · rw [ih]
        constructor
        · rintro ⟨i, entry, at_i, matched, clear⟩
          refine ⟨i + 1, entry, at_i, matched, fun j before found => ?_⟩
          cases j with
          | zero => exact here (by simpa using found)
          | succ j => exact clear j (by omega) found
        · rintro ⟨i, entry, at_i, matched, clear⟩
          cases i with
          | zero =>
              cases at_i
              exact absurd matched unsupported
          | succ i => exact ⟨i, entry, at_i, matched, fun j before => clear (j + 1) (by omega)⟩

end

end PathArmor.Analyzer

namespace PathArmor.Pass
open PathArmor.Analyzer (Address)
open PathArmor.Library PathArmor.Kernel

/-! ## Arrays of words -/

/-- The bytes of an array of `uint64_t`. -/
def arrayBytes (array : List Address) : List UInt8 := array.flatMap fun x => toBytes 8 x.toNat

/-- The array of `uint64_t` in these bytes. -/
def arrayOf : List UInt8 → List Address
  | b₀ :: b₁ :: b₂ :: b₃ :: b₄ :: b₅ :: b₆ :: b₇ :: rest =>
      UInt64.ofNat (ofBytes [b₀, b₁, b₂, b₃, b₄, b₅, b₆, b₇]) :: arrayOf rest
  | _ => []

theorem length_arrayBytes (array : List Address) : (arrayBytes array).length = 8 * array.length := by
  simp [arrayBytes, List.length_flatMap, Nat.mul_comm]

theorem arrayOf_arrayBytes (array : List Address) : arrayOf (arrayBytes array) = array := by
  induction array with
  | nil => rfl
  | cons x array ih =>
      have word : UInt64.ofNat (ofBytes (toBytes 8 x.toNat)) = x := by
        rw [ofBytes_toBytes, Nat.mod_eq_of_lt (by simpa using x.toNat_lt), UInt64.ofNat_toNat]
      rw [arrayBytes, List.flatMap_cons, ← arrayBytes]
      simp only [toBytes, List.cons_append, List.nil_append, arrayOf, ih]
      exact congrArg (· :: array) word

/-! ## Requests -/

/-- What `copy_to_user` gets from there. -/
def copied (heap : Heap) (address size : UInt64) : Option (List UInt8) :=
  if size = 0 then some [] else (heap address).map (List.take size.toNat)

/-- A table of `items` words is pushed, and everything goes well. -/
structure Pushes (array : List Address) (size items : UInt64) (fetch : Fetch) : Prop where
  size : size.toNat = 8 * array.length
  items : items.toNat = array.length
  data : fetch.data.value = arrayBytes array

/-- The target's pass is the only one to push anything. -/
def Requests (w : Wrapping) : TableIoctl → Prop
  | .pushPlts push => push.succeeds ∧
      Pushes w.plts push.descriptor.value.size push.descriptor.value.items push.plts ∧
      Pushes w.gots push.descriptor.value.size push.descriptor.value.items push.gots
  | .pushExits push => push.succeeds ∧
      Pushes w.simpleRets push.descriptor.value.size push.descriptor.value.items push.exits
  | _ => True

/-- The runs of the kernel's tables, with the daemon's requests in any order. -/
def Served (w : Wrapping) (s : Tables × Pushed) (events : List TableIoctl) (s' : Tables × Pushed) :
    Prop := tables.Run (fun s e => s.1.Possible e ∧ Requests w e) s events s'

/-- A descriptor says how large the array is, once it has been pushed. -/
structure Holding (array : List Address) (pushed : List (UInt64 × Fetch)) (size items : UInt64)
    (available : Nat) : Prop where
  waits : 0 < available → pushed ≠ []
  described : pushed ≠ [] → size.toNat = 8 * array.length ∧ items.toNat = array.length
  data : ∀ table ∈ pushed, table.2.data.value = arrayBytes array

structure Handed (w : Wrapping) (s : Tables × Pushed) : Prop where
  plts : Holding w.plts s.2.plts s.1.pltGotCopy.size s.1.pltGotCopy.items s.1.pltAvailable
  gots : Holding w.gots s.2.gots s.1.pltGotCopy.size s.1.pltGotCopy.items s.1.pltAvailable
  exits : Holding w.simpleRets s.2.exits s.1.simples.size s.1.simples.items
    s.1.exitpointsAvailable

section
variable {array : List Address} {pushed : List (UInt64 × Fetch)} {size items : UInt64}
  {available : Nat} {heap : Heap} {address : UInt64}

theorem Holding.push (holding : Holding array pushed size items available) {size' items' : UInt64}
    {fetch : Fetch} (pushes : Pushes array size' items' fetch) :
    Holding array ((size', fetch) :: pushed) size' items' (available + 1) where
  waits _ := List.cons_ne_nil _ _
  described _ := ⟨pushes.size, pushes.items⟩
  data table member := by
    rcases List.mem_cons.mp member with rfl | earlier
    · exact pushes.data
    · exact holding.data table earlier

theorem Holding.wait (holding : Holding array pushed size items available) :
    Holding array pushed size items (available - 1) where
  waits more := holding.waits (by omega)
  described := holding.described
  data := holding.data

theorem Holding.copied (holding : Holding array pushed size items available)
    (backed : heap.Backed pushed address size) (some : pushed ≠ []) :
    copied heap address size = .some (arrayBytes array) := by
  have bytes := (holding.described some).1
  rw [Pass.copied]
  split_ifs with empty
  · rw [empty] at bytes
    have none : array = [] := List.length_eq_zero_iff.mp (by simpa using bytes.symm)
    rw [none]
    rfl
  · rcases backed with zero | ⟨fetch, member, -, content, -⟩
    · exact absurd zero empty
    · have data : fetch.data.value = arrayBytes array := holding.data _ member
      rw [content, data, Option.map_some, List.take_of_length_le]
      rw [length_arrayBytes, bytes]

end

section
variable {w : Wrapping} {s s' : Tables × Pushed} {e : TableIoctl}

theorem Handed.step (handed : Handed w s) (requests : Requests w e)
    (step : tables.step s e = some s') : Handed w s' := by
  obtain ⟨s, pushed⟩ := s
  simp only [tables, Option.map_eq_some_iff] at step
  obtain ⟨⟨s₁, reply⟩, answered, rfl⟩ := step
  cases e with
  | pushPlts push =>
      obtain ⟨succeeds, plts, gots⟩ := requests
      obtain ⟨p, g, -, -, done⟩ := Tables.pushPlts_ok (s := s) succeeds
      cases done.symm.trans (Option.some.inj answered)
      exact ⟨handed.plts.push plts, handed.gots.push gots, handed.exits⟩
  | pushExits push =>
      obtain ⟨succeeds, exits⟩ := requests
      obtain ⟨x, -, done⟩ := Tables.pushExits_ok (s := s) succeeds
      cases done.symm.trans (Option.some.inj answered)
      exact ⟨handed.plts, handed.gots, handed.exits.push exits⟩
  | pullPlts | pullGots | pullExitsData =>
      cases answered
      exact handed
  | pullPltCopy interrupted =>
      cases interrupted with
      | true =>
          cases answered
          exact handed
      | false =>
          simp only [Tables.ioctl, Option.ite_none_right_eq_some, Option.some.injEq,
            Prod.mk.injEq] at answered
          obtain ⟨-, rfl, rfl⟩ := answered
          exact ⟨handed.plts.wait, handed.gots.wait, handed.exits⟩
  | pullExits interrupted =>
      cases interrupted with
      | true =>
          cases answered
          exact handed
      | false =>
          simp only [Tables.ioctl, Option.ite_none_right_eq_some, Option.some.injEq,
            Prod.mk.injEq] at answered
          obtain ⟨-, rfl, rfl⟩ := answered
          exact ⟨handed.plts, handed.gots, handed.exits.wait⟩

/-- The tables are in the kernel as the target pushed them, if it has. -/
def Kept (w : Wrapping) (s : Tables × Pushed) : Prop := Handed w s ∧ s.1.Published s.2

theorem Requests.harmless (requests : Requests w e) : s.1.Harmless e := by
  cases e with
  | pushPlts push => exact .inl requests.1
  | pushExits push => exact .inl requests.1
  | _ => trivial

theorem Kept.step (kept : Kept w s) (possible : s.1.Possible e) (requests : Requests w e)
    (step : tables.step s e = some s') : Kept w s' := by
  refine ⟨kept.1.step requests step, ?_⟩
  simp only [tables, Option.map_eq_some_iff] at step
  obtain ⟨r, answered, rfl⟩ := step
  exact (Tables.ioctl_safe kept.2 possible requests.harmless answered).2

theorem Kept.run {events : List TableIoctl} (kept : Kept w s) (run : Served w s events s') :
    Kept w s' :=
  run.invariant (P := Kept w) (fun _ _ _ kept guard step => kept.step guard.1 guard.2 step) kept

theorem kept_start (w : Wrapping) : Kept w ({}, {}) :=
  ⟨⟨⟨by simp, by simp, by simp⟩, ⟨by simp, by simp, by simp⟩, ⟨by simp, by simp, by simp⟩⟩,
    Tables.init_published⟩

theorem pushed_after (pushed : Pushed) (e : TableIoctl) (reply : Reply) :
    pushed.plts ⊆ (pushed.after e reply).plts ∧ pushed.gots ⊆ (pushed.after e reply).gots ∧
      pushed.exits ⊆ (pushed.after e reply).exits := by
  unfold Pushed.after
  split
  · exact ⟨List.subset_cons_self _ _, List.subset_cons_self _ _, List.Subset.refl _⟩
  · exact ⟨List.Subset.refl _, List.Subset.refl _, List.subset_cons_self _ _⟩
  · exact ⟨List.Subset.refl _, List.Subset.refl _, List.Subset.refl _⟩

/-- What has been pushed stays. -/
theorem Served.pushed {events : List TableIoctl} (run : Served w s events s') :
    s.2.plts ⊆ s'.2.plts ∧ s.2.gots ⊆ s'.2.gots ∧ s.2.exits ⊆ s'.2.exits := by
  apply run.invariant (P := fun s' : Tables × Pushed =>
    s.2.plts ⊆ s'.2.plts ∧ s.2.gots ⊆ s'.2.gots ∧ s.2.exits ⊆ s'.2.exits)
  · rintro s₁ e s₂ ⟨plts, gots, exits⟩ - step
    simp only [tables, Option.map_eq_some_iff] at step
    obtain ⟨r, -, rfl⟩ := step
    obtain ⟨plts', gots', exits'⟩ := pushed_after s₁.2 e r.2
    exact ⟨List.Subset.trans plts plts', List.Subset.trans gots gots',
      List.Subset.trans exits exits'⟩
  · exact ⟨List.Subset.refl _, List.Subset.refl _, List.Subset.refl _⟩

end

/-! ## Exit points -/

section
variable {m : Mutatee} {plt : List RelocationEntry} {w : Wrapping} {past between : List TableIoctl}
  {s s₁ s₂ s₃ : Tables} {pushed pushed₂ : Pushed} {address size : UInt64}

theorem ne_nil_of_subset {α : Type*} {l l' : List α} (more : l ⊆ l') (some : l ≠ []) : l' ≠ [] := by
  rintro rfl
  exact some (List.subset_nil.mp more)

/-- The daemon gets its descriptor and, after any other requests, the table. What it gets fits into
the memory that it has allocated, and the validator replaces exactly the branches out of simple
library functions. -/
theorem exits_handed_over (done : wrapLibraries m plt = some w)
    (first : Served w ({}, {}) past (s, pushed)) {copy : Simples}
    (descriptor : s.ioctl (.pullExits false) = some (s₁, .simples copy))
    (second : Served w (s₁, pushed) between (s₂, pushed₂))
    (data : s₂.ioctl .pullExitsData = some (s₃, .memory address size)) :
    size = copy.size ∧ ∃ bytes, copied s₂.heap address size = some bytes ∧
      ∀ t : Analyzer.Tables,
        t.exitpoint = Analyzer.isExitpoint ((arrayOf bytes).take copy.items.toNat) →
        ∀ lbr i,
          ((∃ rel ∈ plt, EndsAt m rel (lbr.fromAddr i)) →
            (Analyzer.patchExits t lbr).fromAddr i = t.offsets.armorLibReturn) ∧
          ((¬ ∃ rel ∈ plt, EndsAt m rel (lbr.fromAddr i)) →
            (Analyzer.patchExits t lbr).fromAddr i = lbr.fromAddr i) := by
  have described := wrapLibraries_described done
  have kept := (kept_start w).run first
  simp only [Tables.ioctl, Option.ite_none_right_eq_some, Option.some.injEq, Prod.mk.injEq,
    Reply.simples.injEq] at descriptor
  obtain ⟨available, rfl, rfl⟩ := descriptor
  cases data
  have waited : pushed.exits ≠ [] := kept.1.exits.waits available
  have waiting : Kept w ({ s with exitpointsAvailable := s.exitpointsAvailable - 1 }, pushed) :=
    ⟨⟨kept.1.plts, kept.1.gots, kept.1.exits.wait⟩, kept.2.grow (fun _ _ => id) rfl rfl rfl⟩
  have kept₂ := waiting.run second
  have still := ne_nil_of_subset second.pushed.2.2 waited
  obtain ⟨bytes, items⟩ := kept.1.exits.described waited
  obtain ⟨bytes₂, -⟩ := kept₂.1.exits.described still
  refine ⟨UInt64.toNat_inj.mp (bytes₂.trans bytes.symm), arrayBytes w.simpleRets, ?_, ?_⟩
  · exact kept₂.1.exits.copied (Tables.published_iff.mp kept₂.2).2.2 still
  intro t table lbr i
  rw [arrayOf_arrayBytes, items, List.take_length] at table
  have iff : t.exitpoint (lbr.fromAddr i) ↔ ∃ rel ∈ plt, EndsAt m rel (lbr.fromAddr i) := by
    rw [table, Analyzer.isExitpoint_iff described.sorted, described.exits]
  exact ⟨fun ends => if_pos (iff.mpr ends), fun other => if_neg fun found => other (iff.mp found)⟩

/-! ## PLT and GOT -/

/-- Addresses of user space have the highest bit clear. -/
def InUserSpace (x : Address) : Prop := x &&& flagBit = 0

instance (x : Address) : Decidable (InUserSpace x) := inferInstanceAs (Decidable (_ = _))

theorem InUserSpace.or_inj {x y : Address} (first : InUserSpace x) (second : InUserSpace y)
    (same : x ||| flagBit = y ||| flagBit) : x = y := by
  apply UInt64.toBitVec_inj.mp
  apply BitVec.eq_of_getLsbD_eq
  intro i _
  have at_x := congrArg (fun z => z.toBitVec.getLsbD i) first
  have at_y := congrArg (fun z => z.toBitVec.getLsbD i) second
  have at_or := congrArg (fun z => z.toBitVec.getLsbD i) same
  simp only [UInt64.toBitVec_and, UInt64.toBitVec_or, BitVec.getLsbD_and, BitVec.getLsbD_or] at *
  cases bit : flagBit.toBitVec.getLsbD i with
  | true => simp_all
  | false => simp_all

theorem or_flagBit_and (x : Address) : (x ||| flagBit) &&& flagBit ≠ 0 := by
  intro zero
  have highest := congrArg (fun z => z.toBitVec.getLsbD 63) zero
  simp [flagBit] at highest

theorem Bits.cases {before : List RelocationEntry} {rel : RelocationEntry} {bits : Address}
    (set : Bits m before rel bits) :
    Flagged m before rel ∧ bits = flagBit ∨ ¬ Flagged m before rel ∧ bits = 0 := by
  by_cases flagged : Flagged m before rel
  · exact .inl ⟨flagged, set.1 flagged⟩
  · exact .inr ⟨flagged, set.2 flagged⟩

/-- The entry of the table for a PLT entry is found for this branch. -/
theorem Bits.entry_eq_iff {before : List RelocationEntry} {rel : RelocationEntry} {bits : Address}
    (set : Bits m before rel bits) {a b : Address} (user : InUserSpace b) :
    (rel.targetAddr ||| bits, m.libFuncAddress rel ||| bits) = (a, b) ↔
      ¬ Flagged m before rel ∧ rel.targetAddr = a ∧ m.libFuncAddress rel = b := by
  rcases set.cases with ⟨flagged, rfl⟩ | ⟨unmarked, rfl⟩
  · refine iff_of_false ?_ fun other => other.1 flagged
    rintro same
    obtain ⟨-, rfl⟩ := Prod.mk.inj same
    exact or_flagBit_and _ user
  · simp [unmarked]

theorem Bits.matches_iff {before : List RelocationEntry} {rel : RelocationEntry} {bits : Address}
    (set : Bits m before rel bits) {x b : Address} (user : InUserSpace (m.libFuncAddress rel))
    (user' : InUserSpace b) :
    Analyzer.MatchesUnsupported b (x, m.libFuncAddress rel ||| bits) ↔
      Flagged m before rel ∧ m.libFuncAddress rel = b := by
  have bit : Analyzer.uninstrumentable = flagBit := rfl
  rw [Analyzer.MatchesUnsupported, bit]
  rcases set.cases with ⟨flagged, rfl⟩ | ⟨unmarked, rfl⟩
  · constructor
    · rintro ⟨-, same⟩
      exact ⟨flagged, user.or_inj user' same⟩
    · rintro ⟨-, rfl⟩
      exact ⟨or_flagBit_and _, rfl⟩
  · refine iff_of_false ?_ fun other => unmarked other.1
    rintro ⟨marked, -⟩
    rw [UInt64.or_zero] at marked
    exact marked user

theorem Described.getElem?_zip (described : Described m plt w) {i : Nat}
    {entry : Address × Address} : (w.plts.zip w.gots)[i]? = some entry ↔
      ∃ rel bits, plt[i]? = some rel ∧ Bits m (plt.take i) rel bits ∧
        entry = (rel.targetAddr ||| bits, m.libFuncAddress rel ||| bits) := by
  rw [List.getElem?_zip_eq_some]
  constructor
  · rintro ⟨first, second⟩
    have inside : i < plt.length := by
      rw [← described.items.1]
      exact (List.getElem?_eq_some_iff.mp first).1
    obtain ⟨bits, set, target, got⟩ := described.tables i _ (List.getElem?_eq_getElem inside)
    refine ⟨_, bits, List.getElem?_eq_getElem inside, set, Prod.ext ?_ ?_⟩
    · exact Option.some.inj (first.symm.trans target)
    · exact Option.some.inj (second.symm.trans got)
  · rintro ⟨rel, bits, listed, set, rfl⟩
    obtain ⟨bits', set', target, got⟩ := described.tables i rel listed
    obtain rfl : bits = bits' := by
      rcases set.cases with ⟨flagged, rfl⟩ | ⟨unmarked, rfl⟩
      · exact (set'.1 flagged).symm
      · exact (set'.2 unmarked).symm
    exact ⟨target, got⟩

/-- The branch out of the PLT is listed as it is. -/
def Listed (m : Mutatee) (plt : List RelocationEntry) (a b : Address) (i : Nat) : Prop :=
  ∃ rel, plt[i]? = some rel ∧ ¬ Flagged m (plt.take i) rel ∧ rel.targetAddr = a ∧
    m.libFuncAddress rel = b

/-- The function is listed as one that cannot be wrapped. -/
def ListedUnsupported (m : Mutatee) (plt : List RelocationEntry) (b : Address) (i : Nat) : Prop :=
  ∃ rel, plt[i]? = some rel ∧ Flagged m (plt.take i) rel ∧ m.libFuncAddress rel = b

section
variable {a b : Address} {i : Nat}

theorem Described.listed_iff (described : Described m plt w) (user : InUserSpace b) :
    (w.plts.zip w.gots)[i]? = some (a, b) ↔ Listed m plt a b i := by
  rw [described.getElem?_zip]
  constructor
  · rintro ⟨rel, bits, listed, set, same⟩
    exact ⟨rel, listed, (set.entry_eq_iff user).mp same.symm⟩
  · rintro ⟨rel, listed, found⟩
    obtain ⟨bits, set, -⟩ := described.tables i rel listed
    exact ⟨rel, bits, listed, set, ((set.entry_eq_iff user).mpr found).symm⟩

theorem Described.listedUnsupported_iff (described : Described m plt w)
    (users : ∀ rel ∈ plt, InUserSpace (m.libFuncAddress rel)) (user : InUserSpace b) :
    (∃ entry, (w.plts.zip w.gots)[i]? = some entry ∧ Analyzer.MatchesUnsupported b entry) ↔
      ListedUnsupported m plt b i := by
  constructor
  · rintro ⟨entry, there, matched⟩
    obtain ⟨rel, bits, listed, set, rfl⟩ := described.getElem?_zip.mp there
    have user' := users rel (List.mem_of_getElem? listed)
    exact ⟨rel, listed, (set.matches_iff user' user).mp matched⟩
  · rintro ⟨rel, listed, found⟩
    obtain ⟨bits, set, -⟩ := described.tables i rel listed
    have user' := users rel (List.mem_of_getElem? listed)
    exact ⟨_, described.getElem?_zip.mpr ⟨rel, bits, listed, set, rfl⟩,
      (set.matches_iff user' user).mpr found⟩

theorem Described.scanPltGot_iff (described : Described m plt w)
    (users : ∀ rel ∈ plt, InUserSpace (m.libFuncAddress rel)) (user : InUserSpace b) :
    (Analyzer.scanPltGot a b (w.plts.zip w.gots) = .inPlt ↔
      ∃ i, Listed m plt a b i ∧ ∀ j < i, ¬ ListedUnsupported m plt b j) ∧
    (Analyzer.scanPltGot a b (w.plts.zip w.gots) = .unsupported ↔
      ∃ i, ListedUnsupported m plt b i ∧ ∀ j ≤ i, ¬ Listed m plt a b j) := by
  constructor
  · rw [Analyzer.scanPltGot_inPlt_iff]
    simp only [described.listed_iff user, ← described.listedUnsupported_iff users user, not_exists,
      not_and]
  · rw [Analyzer.scanPltGot_unsupported_iff]
    simp only [Ne, described.listed_iff user, ← described.listedUnsupported_iff users user]
    constructor
    · rintro ⟨i, entry, there, matched, clear⟩
      exact ⟨i, ⟨entry, there, matched⟩, clear⟩
    · rintro ⟨i, ⟨entry, there, matched⟩, clear⟩
      exact ⟨i, entry, there, matched, clear⟩

end

/-- The daemon gets the descriptor and, after any other requests each, the two halves of the table.
A branch out of the PLT that the graph does not know is then taken for one to a function that cannot
be wrapped, or for one that is listed, by what `wrapLibraries` made of the first entry for it. -/
theorem pltGot_handed_over (done : wrapLibraries m plt = some w)
    (users : ∀ rel ∈ plt, InUserSpace (m.libFuncAddress rel))
    (first : Served w ({}, {}) past (s, pushed)) {copy : PltGotCopy}
    (descriptor : s.ioctl (.pullPltCopy false) = some (s₁, .pltGotCopy copy))
    (second : Served w (s₁, pushed) between (s₂, pushed₂))
    (plts : s₂.ioctl .pullPlts = some (s₂, .memory address size)) {later : List TableIoctl}
    {pushed₃ : Pushed} (third : Served w (s₂, pushed₂) later (s₃, pushed₃))
    {address' size' : UInt64}
    (gots : s₃.ioctl .pullGots = some (s₃, .memory address' size')) :
    size = copy.size ∧ size' = copy.size ∧ ∃ bytes bytes',
      copied s₂.heap address size = some bytes ∧ copied s₃.heap address' size' = some bytes' ∧
      let table := ((arrayOf bytes).zip (arrayOf bytes')).take copy.items.toNat
      ∀ a b, InUserSpace b →
        (Analyzer.scanPltGot a b table = .inPlt ↔
          ∃ i, Listed m plt a b i ∧ ∀ j < i, ¬ ListedUnsupported m plt b j) ∧
        (Analyzer.scanPltGot a b table = .unsupported ↔
          ∃ i, ListedUnsupported m plt b i ∧ ∀ j ≤ i, ¬ Listed m plt a b j) := by
  have described := wrapLibraries_described done
  have kept := (kept_start w).run first
  simp only [Tables.ioctl, Option.ite_none_right_eq_some, Option.some.injEq, Prod.mk.injEq,
    Reply.pltGotCopy.injEq] at descriptor
  obtain ⟨available, rfl, rfl⟩ := descriptor
  have waiting : Kept w ({ s with pltAvailable := s.pltAvailable - 1 }, pushed) :=
    ⟨⟨kept.1.plts.wait, kept.1.gots.wait, kept.1.exits⟩, kept.2.grow (fun _ _ => id) rfl rfl rfl⟩
  have kept₂ := waiting.run second
  have kept₃ := kept₂.run third
  have waited : pushed.plts ≠ [] := kept.1.plts.waits available
  have still₂ := ne_nil_of_subset second.pushed.1 waited
  have still₃ := ne_nil_of_subset third.pushed.2.1
    (ne_nil_of_subset second.pushed.2.1 (kept.1.gots.waits available))
  obtain ⟨bytes, items⟩ := kept.1.plts.described waited
  cases plts
  cases gots
  refine ⟨?_, ?_, arrayBytes w.plts, arrayBytes w.gots, ?_, ?_, ?_⟩
  · exact UInt64.toNat_inj.mp ((kept₂.1.plts.described still₂).1.trans bytes.symm)
  · have sameLength : w.gots.length = w.plts.length := by
      rw [described.items.1, described.items.2]
    apply UInt64.toNat_inj.mp
    rw [(kept₃.1.gots.described still₃).1, bytes, sameLength]
  · exact kept₂.1.plts.copied (Tables.published_iff.mp kept₂.2).1 still₂
  · exact kept₃.1.gots.copied (Tables.published_iff.mp kept₃.2).2.1 still₃
  · intro table a b user
    have whole : table = w.plts.zip w.gots := by
      simp only [table, arrayOf_arrayBytes, items]
      apply List.take_of_length_le
      simp
    rw [whole]
    exact described.scanPltGot_iff users user

end

/-- The pushes of the sample's tables. -/
def samplePush (w : Wrapping) : List TableIoctl :=
  [.pushPlts {
      descriptor := ⟨⟨32, 4, 0, 0⟩, true⟩
      plts := ⟨some 0xffff880000001000, ⟨arrayBytes w.plts, true⟩⟩
      gots := ⟨some 0xffff880000002000, ⟨arrayBytes w.gots, true⟩⟩ },
    .pushExits {
      descriptor := ⟨⟨24, 3, 0⟩, true⟩
      exits := ⟨some 0xffff880000003000, ⟨arrayBytes w.simpleRets, true⟩⟩ }]

theorem sample_wrapped : ∃ w, wrapLibraries sampleMutatee samplePlt = some w ∧
    w.plts.length = 4 ∧ w.gots.length = 4 ∧ w.simpleRets.length = 3 := ⟨_, rfl, rfl, rfl, rfl⟩

theorem sample_served {w : Wrapping} (plts : w.plts.length = 4) (gots : w.gots.length = 4)
    (exits : w.simpleRets.length = 3) : ∃ s pushed, Served w ({}, {}) (samplePush w) (s, pushed) ∧
      s.pltAvailable = 1 ∧ s.exitpointsAvailable = 1 := by
  refine ⟨_, _, .cons ⟨?_, rfl, ?_, ?_⟩ rfl (.cons ⟨?_, rfl, ?_⟩ rfl (.nil _)), rfl, rfl⟩
  · refine ⟨⟨?_, ?_⟩, ⟨?_, ?_⟩⟩
    · simp [length_arrayBytes, plts]
    · exact fun _ _ => .inl rfl
    · simp [length_arrayBytes, gots]
    · rintro address ⟨⟩
      exact .inl rfl
  · exact ⟨by simp [plts], by simp [plts], rfl⟩
  · exact ⟨by simp [gots], by simp [gots], rfl⟩
  · refine ⟨?_, ?_⟩
    · simp [length_arrayBytes, exits]
    · rintro address ⟨⟩
      exact .inl rfl
  · exact ⟨by simp [exits], by simp [exits], rfl⟩

/-- A branch out of `abs` is replaced. -/
theorem exits_handed_over_sample : ∃ w s pushed bytes,
    wrapLibraries sampleMutatee samplePlt = some w ∧
    Served w ({}, {}) (samplePush w) (s, pushed) ∧
    copied s.heap s.simples.exitpoints s.simples.size = some bytes ∧
    ∀ t : Analyzer.Tables,
      t.exitpoint = Analyzer.isExitpoint ((arrayOf bytes).take s.simples.items.toNat) →
      ∀ lbr i, lbr.fromAddr i = 0x7f0000601050 →
        (Analyzer.patchExits t lbr).fromAddr i = t.offsets.armorLibReturn := by
  obtain ⟨w, done, plts, gots, exits⟩ := sample_wrapped
  obtain ⟨s, pushed, served, -, available⟩ := sample_served plts gots exits
  have descriptor : s.ioctl (.pullExits false) =
      some ({ s with exitpointsAvailable := 0 }, .simples s.simples) := by
    simp [Tables.ioctl, available]
  obtain ⟨-, bytes, copied, patches⟩ :=
    exits_handed_over done served descriptor (.nil _) rfl
  refine ⟨w, s, pushed, bytes, done, served, copied, fun t table lbr i branch => ?_⟩
  refine (patches t table lbr i).1 ⟨⟨"abs", 0x400520, 0x601040⟩, by simp [samplePlt], _, rfl, ?_⟩
  simp [branch]

theorem select_flagged :
    Flagged sampleMutatee (samplePlt.take 2) ⟨"select", 0x400530, 0x601060⟩ := by
  refine ⟨.inl rfl, ?_⟩
  rintro ⟨earlier, member, point, -, same⟩
  simp only [samplePlt, List.take_succ_cons, List.take_zero, List.mem_cons, List.not_mem_nil,
    or_false] at member
  rcases member with rfl | rfl
  all_goals exact absurd same (by decide)

/-- A call of `select` is not supported. -/
theorem pltGot_handed_over_sample : ∃ w s pushed bytes bytes',
    wrapLibraries sampleMutatee samplePlt = some w ∧
    Served w ({}, {}) (samplePush w) (s, pushed) ∧
    copied s.heap s.pltGotCopy.plts s.pltGotCopy.size = some bytes ∧
    copied s.heap s.pltGotCopy.gots s.pltGotCopy.size = some bytes' ∧
    Analyzer.scanPltGot 0x400530 0x7f0000601060
      (((arrayOf bytes).zip (arrayOf bytes')).take s.pltGotCopy.items.toNat) = .unsupported := by
  obtain ⟨w, done, plts, gots, exits⟩ := sample_wrapped
  obtain ⟨s, pushed, served, available, -⟩ := sample_served plts gots exits
  have descriptor : s.ioctl (.pullPltCopy false) =
      some ({ s with pltAvailable := 0 }, .pltGotCopy s.pltGotCopy) := by
    simp [Tables.ioctl, available]
  have users : ∀ rel ∈ samplePlt, InUserSpace (sampleMutatee.libFuncAddress rel) := by
    unfold InUserSpace
    decide
  obtain ⟨-, -, bytes, bytes', copied, copied', scans⟩ :=
    pltGot_handed_over done users served descriptor (.nil _) rfl (.nil _) rfl
  refine ⟨w, s, pushed, bytes, bytes', done, served, copied, copied', ?_⟩
  refine (scans 0x400530 0x7f0000601060 (by decide)).2.mpr ⟨2, ⟨_, rfl, select_flagged, rfl⟩, ?_⟩
  rintro j before ⟨rel, listed, unmarked, target, -⟩
  obtain rfl | rfl | rfl : j = 0 ∨ j = 1 ∨ j = 2 := by omega
  · cases listed
    exact absurd target (by decide)
  · cases listed
    exact absurd target (by decide)
  · cases listed
    exact unmarked select_flagged

end PathArmor.Pass

import Mathlib.Data.List.FinRange
import PathArmor.Kernel.Msr
import PathArmor.Library.Slots

/-!
# The library, callback and signal caches

Per-task stacks of return addresses and LBR states, kept in three arrays of slots. A call that
prints an error and sends `SIGKILL` says so with a flag; what it does besides is kept.
-/

namespace PathArmor.Kernel
open PathArmor.Library

abbrev stackSize : Nat := 8
@[irreducible] def libCacheSize : Nat := 1024
abbrev cbkCacheSize : Nat := 64
abbrev sigCacheSize : Nat := 64

instance : NeZero libCacheSize := ⟨by simp [libCacheSize]⟩

/-! ## Stacks -/

structure Stack (α : Type) where
  size : Nat
  items : Fin stackSize → α
  bounded : size ≤ stackSize

namespace Stack
variable {α : Type}

def zeroed (zero : α) : Stack α where
  size := 0
  items _ := zero
  bounded := by decide

def push (s : Stack α) (value : α) : Stack α × Bool :=
  if full : s.size = stackSize then (s, true)
  else
    have room : s.size < stackSize := lt_of_le_of_ne s.bounded full
    ({ size := s.size + 1
       items := Function.update s.items ⟨s.size, room⟩ value
       bounded := room }, false)

def pop (s : Stack α) : Stack α × Option α :=
  if nonempty : s.size = 0 then (s, none)
  else
    have below : s.size - 1 < stackSize := by have := s.bounded; omega
    ({ s with size := s.size - 1, bounded := below.le }, some (s.items ⟨s.size - 1, below⟩))

def toList (s : Stack α) : List α := (((List.finRange stackSize).take s.size).map s.items).reverse

@[simp] theorem length_toList (s : Stack α) : s.toList.length = s.size := by
  simp [toList, s.bounded]

theorem push_of_lt {s : Stack α} (value : α) (room : s.toList.length < stackSize) :
    (s.push value).1.toList = value :: s.toList ∧ (s.push value).2 = false := by
  rw [length_toList] at room
  have others : ((List.finRange stackSize).take s.size).map
      (Function.update s.items ⟨s.size, room⟩ value) =
      ((List.finRange stackSize).take s.size).map s.items := by
    refine List.map_congr_left fun i inside => Function.update_of_ne ?_ _ _
    rintro rfl
    rw [List.mem_take_iff_getElem] at inside
    obtain ⟨j, below, same⟩ := inside
    have := congrArg Fin.val same
    simp only [List.getElem_finRange, Fin.cast_mk, List.length_finRange, lt_inf_iff] at this below
    omega
  simp [push, room.ne, toList, List.take_add_one, List.map_append, others, room]

theorem pop_of_cons {s : Stack α} {value : α} {rest : List α} (stored : s.toList = value :: rest) :
    ∃ s', s.pop = (s', some value) ∧ s'.toList = rest := by
  obtain ⟨size, items, bounded⟩ := s
  cases size with
  | zero => simp [toList] at stored
  | succ m =>
      have below : m < stackSize := bounded
      have top : items ⟨m, below⟩ = value ∧
          (((List.finRange stackSize).take m).map items).reverse = rest := by
        simpa [toList, List.take_add_one, below] using stored
      exact ⟨⟨m, items, below.le⟩, by simp [pop, top.1], top.2⟩

end Stack

/-! ## Caches -/

structure WrapperLib where
  task : Option Task
  rets : Stack UInt64
  lbrs : Stack Lbr

def WrapperLib.zero : WrapperLib where
  task := none
  rets := .zeroed 0
  lbrs := .zeroed Lbr.zero

abbrev Cache (n : Nat) := Fin n → WrapperLib

def stackPush (slot : WrapperLib) (ret : UInt64) : WrapperLib × Bool :=
  let (rets, overflow) := slot.rets.push ret
  ({ slot with rets }, overflow)

def stackPop (slot : WrapperLib) : WrapperLib × UInt64 × Bool :=
  match slot.rets.pop with
  | (rets, some ret) => ({ slot with rets }, ret, false)
  | (rets, none) => ({ slot with rets }, 0, true)

/-- The LBR is stored over what the stack's next item held before. -/
def lbrStackPush (slot : WrapperLib) (cpu : Msrs) : WrapperLib × Bool :=
  if full : slot.lbrs.size = stackSize then (slot, true)
  else
    let item := slot.lbrs.items ⟨slot.lbrs.size, lt_of_le_of_ne slot.lbrs.bounded full⟩
    let (lbrs, overflow) := slot.lbrs.push (getLbr cpu item)
    ({ slot with lbrs }, overflow)

def lbrStackPop (slot : WrapperLib) (cpu : Msrs) : WrapperLib × Msrs × Bool :=
  match slot.lbrs.pop with
  | (lbrs, some lbr) => ({ slot with lbrs }, putLbr lbr, false)
  | (lbrs, none) => ({ slot with lbrs }, cpu, true)

section
variable {n : Nat} (data : Cache n)

/-- The loop of `find_cache_entry_init`: an entry of `task`, or else the first empty one. -/
def scanEntries (task : Task) : List (Fin n) → Option (Fin n) → Fin n ⊕ Option (Fin n)
  | [], tmp => .inr tmp
  | i :: rest, tmp =>
      if (data i).task = some task then .inl i
      else if (data i).task = none ∧ tmp = none then scanEntries task rest (some i)
      else scanEntries task rest tmp

def findCacheEntryInit [NeZero n] (task : Task) : Cache n × Fin n × Bool :=
  match scanEntries data task (List.finRange n) none with
  | .inl i => (data, i, false)
  | .inr (some tmp) =>
      (Function.update data tmp { data tmp with task := some task }, tmp, false)
  | .inr none => (data, 0, true) -- the caller goes on with the wrong entry

def enter [NeZero n] (current : Task) (store : WrapperLib → WrapperLib × Bool) : Cache n × Bool :=
  let (data, i, full) := findCacheEntryInit data current
  let (slot, overflow) := store (data i)
  (Function.update data i slot, full || overflow)

/-- What `lib_exit`, `cbk_exit` and `sig_exit` have in common: an entry of size 1 is given back
before the pop. There is no result if the task has no entry. -/
def leave {ρ : Type} (current : Task) (size : WrapperLib → Nat)
    (load : WrapperLib → WrapperLib × ρ) : Cache n × Option ρ :=
  match (List.finRange n).find? fun i => (data i).task = some current with
  | some i =>
      let slot := if size (data i) = 1 then { data i with task := none } else data i
      let (slot, result) := load slot
      (Function.update data i slot, some result)
  | none => (data, none)

/-- The entry of `current` among the given ones. The loop does not stop at the first. -/
def ourIndex (current : Task) (entries : List (Fin n)) : Option (Fin n) :=
  entries.foldl (fun our i => if (data i).task = some current then some i else our) none

def inherit [NeZero n] (current p : Task) (entries : List (Fin n))
    (copy : WrapperLib → WrapperLib → WrapperLib) : Cache n × Bool :=
  match ourIndex data current entries with
  | none => (data, false)
  | some our =>
      let (data, new, full) := findCacheEntryInit data p
      (Function.update data new (copy (data our) (data new)), full)

def forget (old : Task) : Cache n :=
  match (List.finRange n).find? fun i => (data i).task = some old with
  | some i => Function.update data i .zero
  | none => data

end

/-! ## The operations -/

structure Wrappers where
  lib : Cache libCacheSize
  cbk : Cache cbkCacheSize
  sig : Cache sigCacheSize

structure Target where
  startCode : UInt64
  endCode : UInt64
  indirectCallSource : UInt64

namespace Wrappers

def zero : Wrappers where
  lib _ := .zero
  cbk _ := .zero
  sig _ := .zero

variable (w : Wrappers) (current : Task)

def libInit (ret : UInt64) : Wrappers × Bool :=
  let entered := enter w.lib current fun slot => stackPush slot ret
  ({ w with lib := entered.1 }, entered.2)

def cbkInit (ret : UInt64) (cpu : Msrs) : Wrappers × Msrs × Bool :=
  let entered := enter w.cbk current fun slot =>
    let pushed := stackPush slot ret
    let pushed' := lbrStackPush pushed.1 cpu
    (pushed'.1, pushed.2 || pushed'.2)
  ({ w with cbk := entered.1 }, flushLbr true cpu, entered.2)

def sigInit (target : Target) (sighandler : UInt64) (cpu : Msrs) : Wrappers × Msrs × Bool :=
  let entered := enter w.sig current fun slot => lbrStackPush slot cpu
  let cpu := flushLbr (target.startCode < sighandler && sighandler < target.endCode) cpu
  ({ w with sig := entered.1 },
    { cpu with
      fromAddr := Function.update cpu.fromAddr 0 target.indirectCallSource
      toAddr := Function.update cpu.toAddr 0 sighandler
      tos := 0 },
    entered.2)

/-- A task without an entry is killed, and `NULL` is returned. -/
def libExit : Wrappers × UInt64 × Bool :=
  let left := leave w.lib current (·.rets.size) stackPop
  ({ w with lib := left.1 }, left.2.getD (0, true))

def cbkExit (cpu : Msrs) : Wrappers × Msrs × UInt64 × Bool :=
  let left := leave w.cbk current (·.rets.size) fun slot =>
    let popped := lbrStackPop slot cpu
    let popped' := stackPop popped.1
    (popped'.1, popped.2.1, popped'.2.1, popped.2.2 || popped'.2.2)
  ({ w with cbk := left.1 }, left.2.getD (cpu, 0, true))

def sigExit (cpu : Msrs) : Wrappers × Msrs × Bool :=
  let left := leave w.sig current (·.lbrs.size) fun slot => lbrStackPop slot cpu
  ({ w with sig := left.1 }, left.2.getD (cpu, true))

/-- For a supervised task `p`. The loop over the signal cache runs to the size of the callback
cache. -/
def newWakeUpNewTask (p : Task) : Wrappers × Bool :=
  let lib := inherit w.lib current p (List.finRange libCacheSize)
    fun ours new => { new with rets := ours.rets }
  let cbk := inherit w.cbk current p (List.finRange cbkCacheSize)
    fun ours new => { new with rets := ours.rets, lbrs := ours.lbrs }
  let sig := inherit w.sig current p (List.finRange cbkCacheSize)
    fun ours new => { new with lbrs := ours.lbrs }
  ({ lib := lib.1, cbk := cbk.1, sig := sig.1 }, lib.2 || cbk.2 || sig.2)

def doDeferredExit (old : Task) : Wrappers where
  lib := forget w.lib old
  cbk := forget w.cbk old
  sig := forget w.sig old

end Wrappers

/-! ## What the caches store -/

/-- An LBR state counts as what `put_lbr` makes of it. -/
def wrapperLayout : Layout WrapperLib Task (List UInt64 × List Msrs) where
  owner := WrapperLib.task
  view slot := (slot.rets.toList, slot.lbrs.toList.map putLbr)
  empty := ([], [])

abbrev Stores {n : Nat} (data : Cache n) (contents : Task → List UInt64 × List Msrs) : Prop :=
  wrapperLayout.Holds data contents

section
variable {slot : WrapperLib} {rets : List UInt64} {lbrs : List Msrs} {ret : UInt64} {regs : Msrs}

theorem stackPop_task (slot : WrapperLib) : (stackPop slot).1.task = slot.task := by
  unfold stackPop
  split <;> rfl

theorem lbrStackPush_task (slot : WrapperLib) (cpu : Msrs) :
    (lbrStackPush slot cpu).1.task = slot.task := by
  unfold lbrStackPush
  split <;> rfl

theorem lbrStackPop_task (slot : WrapperLib) (cpu : Msrs) :
    (lbrStackPop slot cpu).1.task = slot.task := by
  unfold lbrStackPop
  split <;> rfl

theorem stackPush_view (ret : UInt64) (view : wrapperLayout.view slot = (rets, lbrs))
    (room : rets.length < stackSize) :
    wrapperLayout.view (stackPush slot ret).1 = (ret :: rets, lbrs) ∧
      (stackPush slot ret).2 = false := by
  obtain ⟨rfl, rfl⟩ := Prod.mk.inj view
  obtain ⟨pushed, ok⟩ := Stack.push_of_lt ret room
  exact ⟨Prod.ext pushed rfl, ok⟩

theorem lbrStackPush_view (cpu : Msrs) (view : wrapperLayout.view slot = (rets, lbrs))
    (room : lbrs.length < stackSize) :
    wrapperLayout.view (lbrStackPush slot cpu).1 = (rets, cpu.saved :: lbrs) ∧
      (lbrStackPush slot cpu).2 = false := by
  obtain ⟨rfl, rfl⟩ := Prod.mk.inj view
  rw [List.length_map] at room
  have notFull : slot.lbrs.size ≠ stackSize := by
    rw [Stack.length_toList] at room
    exact room.ne
  have below : slot.lbrs.size < stackSize := lt_of_le_of_ne slot.lbrs.bounded notFull
  obtain ⟨pushed, ok⟩ := Stack.push_of_lt (getLbr cpu (slot.lbrs.items ⟨slot.lbrs.size, below⟩)) room
  simp [lbrStackPush, notFull, wrapperLayout, pushed, ok]

theorem stackPush_full (ret : UInt64) (view : wrapperLayout.view slot = (rets, lbrs))
    (full : rets.length = stackSize) : (stackPush slot ret).2 = true := by
  obtain ⟨rfl, rfl⟩ := Prod.mk.inj view
  rw [Stack.length_toList] at full
  simp [stackPush, Stack.push, full]

theorem lbrStackPush_full (cpu : Msrs) (view : wrapperLayout.view slot = (rets, lbrs))
    (full : lbrs.length = stackSize) : (lbrStackPush slot cpu).2 = true := by
  obtain ⟨rfl, rfl⟩ := Prod.mk.inj view
  rw [List.length_map, Stack.length_toList] at full
  simp [lbrStackPush, full]

theorem stackPop_view (view : wrapperLayout.view slot = (ret :: rets, lbrs)) :
    wrapperLayout.view (stackPop slot).1 = (rets, lbrs) ∧ (stackPop slot).2 = (ret, false) := by
  obtain ⟨top, rfl⟩ := Prod.mk.inj view
  obtain ⟨rest, popped, stored⟩ := Stack.pop_of_cons top
  simp [stackPop, popped, stored, wrapperLayout]

theorem lbrStackPop_view (cpu : Msrs) (view : wrapperLayout.view slot = (rets, regs :: lbrs)) :
    wrapperLayout.view (lbrStackPop slot cpu).1 = (rets, lbrs) ∧
      (lbrStackPop slot cpu).2 = (regs, false) := by
  obtain ⟨rfl, stored⟩ := Prod.mk.inj view
  obtain ⟨lbr, rest, top, rfl, rfl⟩ := List.map_eq_cons_iff.mp stored
  obtain ⟨below, popped, stored'⟩ := Stack.pop_of_cons top
  simp [lbrStackPop, popped, stored', wrapperLayout]

end

section
variable {n : Nat} {data : Cache n} {contents : Task → List UInt64 × List Msrs} {task : Task}

theorem scanEntries_of_some {entries : List (Fin n)} {tmp : Option (Fin n)} {i : Fin n}
    (found : entries.find? (fun i => (data i).task = some task) = some i) :
    scanEntries data task entries tmp = .inl i := by
  induction entries generalizing tmp with
  | nil => simp at found
  | cons j rest ih =>
      by_cases ours : (data j).task = some task
      · simp_all [scanEntries]
      · simp only [List.find?_cons, ours, decide_false] at found
        simp only [scanEntries, ours, if_false]
        split_ifs <;> exact ih found

theorem scanEntries_of_none {entries : List (Fin n)} {tmp : Option (Fin n)}
    (missing : entries.find? (fun i => (data i).task = some task) = none) :
    scanEntries data task entries tmp =
      .inr (tmp <|> entries.find? fun i => (data i).task = none) := by
  induction entries generalizing tmp with
  | nil => cases tmp <;> rfl
  | cons j rest ih =>
      have notOurs : (data j).task ≠ some task := by simp_all
      have later : rest.find? (fun i => (data i).task = some task) = none := by simp_all
      by_cases empty : (data j).task = none
      · cases tmp <;> simp [scanEntries, empty, ih later]
      · cases tmp <;> simp [scanEntries, notOurs, empty, ih later]

variable [NeZero n] (holds : Stores data contents)
  (room : (insert task {t | contents t ≠ ([], [])}).encard ≤ n)
include holds room

theorem findCacheEntryInit_of_room :
    ∃ i, findCacheEntryInit data task =
        (Function.update data i { data i with task := some task }, i, false) ∧
      ((data i).task = some task ∨ (data i).task = none ∧ contents task = ([], [])) ∧
      wrapperLayout.view (data i) = contents task := by
  cases found : (List.finRange n).find? fun i => (data i).task = some task with
  | some i =>
      have owner : (data i).task = some task := by simpa using List.find?_some found
      refine ⟨i, ?_, .inl owner, (holds.held owner).1⟩
      simp [findCacheEntryInit, scanEntries_of_some found, ← owner]
  | none =>
      have nothing : contents task = ([], []) := holds.find_none_iff.mp found
      obtain ⟨i, free⟩ := holds.find_free nothing room
      have owner : (data i).task = none := Layout.owner_of_find free
      refine ⟨i, ?_, .inr ⟨owner, nothing⟩, (holds.free owner).trans nothing.symm⟩
      have free' : (List.finRange n).find? (fun i => (data i).task = none) = some i := free
      simp [findCacheEntryInit, scanEntries_of_none found, free']

theorem enter_stores {store : WrapperLib → WrapperLib × Bool} {after : List UInt64 × List Msrs}
    (owner : ∀ slot, (store slot).1.task = slot.task)
    (stored : ∀ slot, wrapperLayout.view slot = contents task →
      wrapperLayout.view (store slot).1 = after ∧ (store slot).2 = false)
    (nonempty : after ≠ ([], [])) :
    Stores (enter data task store).1 (Function.update contents task after) ∧
      (enter data task store).2 = false := by
  obtain ⟨i, found, mine, view⟩ := findCacheEntryInit_of_room holds room
  obtain ⟨view', ok⟩ := stored { data i with task := some task } view
  simp only [enter, found, Function.update_self, Function.update_idem, ok, Bool.or_false, and_true]
  rw [← view']
  refine holds.put mine ?_ (.inr (owner _))
  rw [view']
  simp [wrapperLayout, owner, nonempty]

theorem enter_full {store : WrapperLib → WrapperLib × Bool}
    (full : ∀ slot, wrapperLayout.view slot = contents task → (store slot).2 = true) :
    (enter data task store).2 = true := by
  obtain ⟨i, found, -, view⟩ := findCacheEntryInit_of_room holds room
  simp only [enter, found, Function.update_self, Bool.false_or]
  exact full _ view

omit [NeZero n] room in
theorem leave_stores {ρ : Type} {size : WrapperLib → Nat} {load : WrapperLib → WrapperLib × ρ}
    {after : List UInt64 × List Msrs} {result : ρ}
    (owner : ∀ slot, (load slot).1.task = slot.task)
    (loaded : ∀ slot, wrapperLayout.view slot = contents task →
      wrapperLayout.view (load slot).1 = after ∧ (load slot).2 = result ∧
        (size slot = 1 ↔ after = ([], [])))
    (nonempty : contents task ≠ ([], [])) :
    Stores (leave data task size load).1 (Function.update contents task after) ∧
      (leave data task size load).2 = some result := by
  obtain ⟨i, owns⟩ := holds.owned nonempty
  have found : (List.finRange n).find? (fun i => (data i).task = some task) = some i :=
    holds.find_eq_some.mpr owns
  have view := (holds.held owns).1
  -- giving the entry back does not change what it stores
  by_cases last : size (data i) = 1
  · obtain ⟨content, reply, -⟩ := loaded { data i with task := none } view
    have done : after = ([], []) := (loaded (data i) view).2.2.mp last
    simp only [leave, found, last, if_true, reply, and_true]
    rw [← content]
    exact holds.put (.inl owns) (iff_of_true (owner _) (content.trans done)) (.inl (owner _))
  · obtain ⟨content, reply, one⟩ := loaded (data i) view
    simp only [leave, found, last, if_false, reply, and_true]
    rw [← content]
    have kept : wrapperLayout.owner (load (data i)).1 = some task := (owner _).trans owns
    refine holds.put (.inl owns) ?_ (.inr kept)
    rw [kept, content]
    exact iff_of_false (by simp) (one.not.mp last)

omit [NeZero n] room in
theorem leave_of_empty {ρ : Type} {size : WrapperLib → Nat} {load : WrapperLib → WrapperLib × ρ}
    (nothing : contents task = ([], [])) : leave data task size load = (data, none) := by
  have missing : (List.finRange n).find? (fun i => (data i).task = some task) = none :=
    holds.find_none_iff.mpr nothing
  simp [leave, missing]

omit [NeZero n] room in
theorem forget_stores : Stores (forget data task) (Function.update contents task ([], [])) := by
  cases found : (List.finRange n).find? fun i => (data i).task = some task with
  | some i =>
      have owner : (data i).task = some task := by simpa using List.find?_some found
      simp only [forget, found]
      have zero : wrapperLayout.view .zero = ([], []) := rfl
      rw [← zero]
      exact holds.put (.inl owner) (iff_of_true rfl zero) (.inl rfl)
  | none =>
      have nothing : contents task = ([], []) := holds.find_none_iff.mp found
      simpa only [forget, found, ← nothing, Function.update_eq_self] using holds

omit [NeZero n] holds room in
theorem ourIndex_eq_find {current : Task} (entries : List (Fin n)) :
    ourIndex data current entries = entries.reverse.find? fun i => (data i).task = some current := by
  induction entries using List.reverseRecOn with
  | nil => rfl
  | append_singleton entries i ih =>
      rw [ourIndex, List.foldl_append, ← ourIndex, ih]
      by_cases ours : (data i).task = some current <;> simp [ours]

omit [NeZero n] room in
theorem ourIndex_of_owner {current : Task} {i : Fin n} (owns : (data i).task = some current) :
    ourIndex data current (List.finRange n) = some i := by
  rw [ourIndex_eq_find]
  cases found : (List.finRange n).reverse.find? fun i => (data i).task = some current with
  | none => exact absurd owns (by simpa using List.find?_eq_none.mp found i (by simp))
  | some j =>
      have owner : (data j).task = some current := by simpa using List.find?_some found
      rw [holds.exclusive owns owner]

omit room in
theorem inherit_stores {current : Task} {copy : WrapperLib → WrapperLib → WrapperLib}
    (fresh : contents task = ([], []))
    (room : contents current ≠ ([], []) → (insert task {t | contents t ≠ ([], [])}).encard ≤ n)
    (owner : ∀ ours new, (copy ours new).task = new.task)
    (copied : ∀ ours new, wrapperLayout.view ours = contents current →
      wrapperLayout.view new = ([], []) → wrapperLayout.view (copy ours new) = contents current) :
    Stores (inherit data current task (List.finRange n) copy).1
        (Function.update contents task (contents current)) ∧
      (inherit data current task (List.finRange n) copy).2 = false := by
  by_cases nothing : contents current = ([], [])
  · have missing : ourIndex data current (List.finRange n) = none := by
      rw [ourIndex_eq_find, List.find?_eq_none]
      intro i _
      have foreign : (data i).task ≠ some current :=
        Layout.find_eq_none.mp (holds.find_none_iff.mpr nothing) i
      simpa using foreign
    simp only [inherit, missing, nothing, ← fresh, Function.update_eq_self, and_true]
    exact holds
  · obtain ⟨our, owns⟩ := holds.owned nothing
    obtain ⟨new, found, mine, view⟩ := findCacheEntryInit_of_room holds (room nothing)
    have distinct : our ≠ new := by
      rintro rfl
      have own := (holds.held owns).1
      exact nothing (own.symm.trans (view.trans fresh))
    have content := copied (data our) { data new with task := some task } (holds.held owns).1
      (view.trans fresh)
    simp only [inherit, ourIndex_of_owner holds owns, found, Function.update_of_ne distinct,
      Function.update_self, Function.update_idem, and_true]
    rw [← content]
    refine holds.put mine ?_ (.inr (owner _ _))
    rw [content]
    simp [wrapperLayout, owner, nothing]

end

end PathArmor.Kernel

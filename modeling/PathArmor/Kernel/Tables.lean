import Mathlib.Logic.Function.Basic
import PathArmor.Library.Transition

/-!
# The tables handed from the target to the analyzer

`ARMOR_IOC_PUSH_PLTS` and `ARMOR_IOC_PUSH_EXITS` copy the descriptor of a table into a global
variable first and then the table itself into new memory. The `PULL` requests copy from wherever
the descriptor points to. What the kernel's own functions return is part of each request.
-/

namespace PathArmor.Kernel
open PathArmor.Library

/-- What `copy_from_user` leaves at its destination, and whether it returned 0. -/
structure UserCopy (α : Type) where
  value : α
  complete : Bool

structure PltGotCopy where
  size : UInt64
  items : UInt64
  plts : UInt64
  gots : UInt64
  deriving DecidableEq

structure Simples where
  size : UInt64
  items : UInt64
  exitpoints : UInt64
  deriving DecidableEq

/-- The memory that `kmalloc` has given out, by its address. None of it is ever freed. -/
abbrev Heap := UInt64 → Option (List UInt8)

/-- A call of `kmalloc` and the `copy_from_user` into the new memory. -/
structure Fetch where
  buffer : Option UInt64
  data : UserCopy (List UInt8)

namespace Fetch

def succeeds (fetch : Fetch) : Bool := fetch.buffer.isSome && fetch.data.complete

/-- New memory was not in use. All requests for zero bytes get the same pointer, though. -/
def Possible (fetch : Fetch) (heap : Heap) (size : UInt64) : Prop :=
  fetch.data.value.length = size.toNat ∧
    ∀ address, fetch.buffer = some address →
      heap address = none ∨ size = 0 ∧ heap address = some []

end Fetch

def Heap.fetch (heap : Heap) (fetch : Fetch) : Heap :=
  match fetch.buffer with
  | none => heap
  | some address => Function.update heap address (some fetch.data.value)

structure PushPlts where
  descriptor : UserCopy PltGotCopy
  plts : Fetch
  gots : Fetch

structure PushExits where
  descriptor : UserCopy Simples
  exits : Fetch

structure Tables where
  pltGotCopy : PltGotCopy := ⟨0, 0, 0, 0⟩
  simples : Simples := ⟨0, 0, 0⟩
  pltAvailable : Nat := 0
  exitpointsAvailable : Nat := 0
  heap : Heap := fun _ => none

inductive TableIoctl
  | pushPlts (push : PushPlts)
  | pushExits (push : PushExits)
  | pullPltCopy (interrupted : Bool)
  | pullPlts
  | pullGots
  | pullExits (interrupted : Bool)
  | pullExitsData

inductive Reply
  | ok
  | failed                         -- a push returned 1
  | interrupted                    -- `-ERESTARTSYS`
  | pltGotCopy (copy : PltGotCopy)
  | simples (copy : Simples)
  | memory (address size : UInt64) -- `copy_to_user` from there

namespace Tables

def pushPlts (s : Tables) (push : PushPlts) : Tables × Reply :=
  let s := { s with pltGotCopy := push.descriptor.value }
  if push.descriptor.complete then
    let s := { s with heap := s.heap.fetch push.plts }
    match push.plts.buffer, push.plts.data.complete with
    | some plts, true =>
        let s := { s with heap := s.heap.fetch push.gots }
        match push.gots.buffer, push.gots.data.complete with
        | some gots, true =>
            ({ s with
              pltGotCopy := { s.pltGotCopy with plts, gots }
              pltAvailable := s.pltAvailable + 1 }, .ok)
        | _, _ => (s, .failed)
    | _, _ => (s, .failed)
  else (s, .failed)

def pushExits (s : Tables) (push : PushExits) : Tables × Reply :=
  let s := { s with simples := push.descriptor.value }
  if push.descriptor.complete then
    let s := { s with heap := s.heap.fetch push.exits }
    match push.exits.buffer, push.exits.data.complete with
    | some exits, true =>
        ({ s with
          simples := { s.simples with exitpoints := exits }
          exitpointsAvailable := s.exitpointsAvailable + 1 }, .ok)
    | _, _ => (s, .failed)
  else (s, .failed)

def ioctl (s : Tables) : TableIoctl → Option (Tables × Reply)
  | .pushPlts push => some (s.pushPlts push)
  | .pushExits push => some (s.pushExits push)
  | .pullPltCopy true => some (s, .interrupted)
  | .pullPltCopy false =>
      if 0 < s.pltAvailable then
        some ({ s with pltAvailable := s.pltAvailable - 1 }, .pltGotCopy s.pltGotCopy)
      else none
  | .pullPlts => some (s, .memory s.pltGotCopy.plts s.pltGotCopy.size)
  | .pullGots => some (s, .memory s.pltGotCopy.gots s.pltGotCopy.size)
  | .pullExits true => some (s, .interrupted)
  | .pullExits false =>
      if 0 < s.exitpointsAvailable then
        some ({ s with exitpointsAvailable := s.exitpointsAvailable - 1 }, .simples s.simples)
      else none
  | .pullExitsData => some (s, .memory s.simples.exitpoints s.simples.size)

end Tables

/-! ## What the pushes did -/

namespace PushPlts
variable {s : Tables} {push : PushPlts}

def succeeds (push : PushPlts) : Bool :=
  push.descriptor.complete && push.plts.succeeds && push.gots.succeeds

def Possible (push : PushPlts) (heap : Heap) : Prop :=
  push.plts.Possible heap push.descriptor.value.size ∧
    push.gots.Possible (heap.fetch push.plts) push.descriptor.value.size

end PushPlts

namespace PushExits

def succeeds (push : PushExits) : Bool := push.descriptor.complete && push.exits.succeeds

def Possible (push : PushExits) (heap : Heap) : Prop :=
  push.exits.Possible heap push.descriptor.value.size

end PushExits

/-- The tables that the successful pushes of each kind brought, with the sizes they gave. -/
structure Pushed where
  plts : List (UInt64 × Fetch) := []
  gots : List (UInt64 × Fetch) := []
  exits : List (UInt64 × Fetch) := []

def Pushed.after (pushed : Pushed) : TableIoctl → Reply → Pushed
  | .pushPlts push, .ok => { pushed with
      plts := (push.descriptor.value.size, push.plts) :: pushed.plts
      gots := (push.descriptor.value.size, push.gots) :: pushed.gots }
  | .pushExits push, .ok => { pushed with
      exits := (push.descriptor.value.size, push.exits) :: pushed.exits }
  | _, _ => pushed

/-- The tables that a `PULL` request may copy from. -/
def Pushed.pulled (pushed : Pushed) : TableIoctl → List (UInt64 × Fetch)
  | .pullPlts => pushed.plts
  | .pullGots => pushed.gots
  | .pullExitsData => pushed.exits
  | _ => []

def tables : System (Tables × Pushed) TableIoctl where
  step s e := (s.1.ioctl e).map fun r => (r.1, s.2.after e r.2)

/-- All `size` bytes at `address` are one table, as it was pushed. -/
def Heap.Backed (heap : Heap) (pushed : List (UInt64 × Fetch)) (address size : UInt64) : Prop :=
  size = 0 ∨ ∃ fetch, (size, fetch) ∈ pushed ∧ fetch.buffer = some address ∧
    heap address = some fetch.data.value ∧ fetch.data.value.length = size.toNat

namespace Tables

def Published (s : Tables) (pushed : Pushed) : Prop :=
  ∀ e s' address size, s.ioctl e = some (s', .memory address size) →
    s.heap.Backed (pushed.pulled e) address size

def Possible (s : Tables) : TableIoctl → Prop
  | .pushPlts push => push.Possible s.heap
  | .pushExits push => push.Possible s.heap
  | _ => True

/-- A push gets everything it asks for, or repeats the descriptor that is there. -/
def Harmless (s : Tables) : TableIoctl → Prop
  | .pushPlts push => push.succeeds ∨ push.descriptor.value = s.pltGotCopy
  | .pushExits push => push.succeeds ∨ push.descriptor.value = s.simples
  | _ => True

end Tables

/-! ## Memory in use stays as it is -/

def Heap.Extends (heap heap' : Heap) : Prop :=
  ∀ address bytes, heap address = some bytes → heap' address = some bytes

namespace Fetch
variable {fetch : Fetch} {heap : Heap} {size address : UInt64}

theorem succeeds_iff : fetch.succeeds ↔ ∃ address,
    fetch.buffer = some address ∧ fetch.data.complete := by
  rw [succeeds, Bool.and_eq_true, Option.isSome_iff_exists, exists_and_right]

theorem Possible.extends (possible : fetch.Possible heap size) :
    heap.Extends (heap.fetch fetch) := by
  intro address bytes allocated
  unfold Heap.fetch
  cases buffer : fetch.buffer with
  | none => exact allocated
  | some new =>
      rcases eq_or_ne address new with rfl | other
      · rcases possible.2 address buffer with unused | ⟨empty, zeroSize⟩
        · simp [unused] at allocated
        · have nothing : fetch.data.value = [] :=
            List.length_eq_zero_iff.mp (by rw [possible.1, empty]; rfl)
          simp [nothing, zeroSize ▸ allocated]
      · simpa [other] using allocated

theorem fetched (buffer : fetch.buffer = some address) :
    heap.fetch fetch address = some fetch.data.value := by
  simp [Heap.fetch, buffer]

end Fetch

theorem PushPlts.Possible.extends {push : PushPlts} {heap : Heap} (possible : push.Possible heap) :
    heap.Extends ((heap.fetch push.plts).fetch push.gots) := by
  intro address bytes allocated
  exact possible.2.extends _ _ (possible.1.extends _ _ allocated)

namespace Heap.Backed
variable {heap heap' : Heap} {pushed pushed' : List (UInt64 × Fetch)} {address size : UInt64}

theorem mono (backed : heap.Backed pushed address size) (grown : heap.Extends heap')
    (more : pushed ⊆ pushed') : heap'.Backed pushed' address size := by
  rcases backed with empty | ⟨fetch, mem, buffer, bytes, length⟩
  · exact .inl empty
  · exact .inr ⟨fetch, more mem, buffer, grown _ _ bytes, length⟩

theorem of_fetch {fetch : Fetch} (possible : fetch.Possible heap size)
    (buffer : fetch.buffer = some address) :
    (heap.fetch fetch).Backed ((size, fetch) :: pushed) address size :=
  .inr ⟨fetch, List.mem_cons_self, buffer, Fetch.fetched buffer, possible.1⟩

end Heap.Backed

/-! ## Pushes -/

namespace Tables
variable {s s' : Tables} {pushed : Pushed} {reply : Reply}

theorem pushPlts_ok {push : PushPlts} (succeeds : push.succeeds) :
    ∃ plts gots, push.plts.buffer = some plts ∧ push.gots.buffer = some gots ∧
      s.pushPlts push = ({ s with
        pltGotCopy := { push.descriptor.value with plts, gots }
        pltAvailable := s.pltAvailable + 1
        heap := (s.heap.fetch push.plts).fetch push.gots }, .ok) := by
  simp only [PushPlts.succeeds, Bool.and_eq_true, Fetch.succeeds_iff] at succeeds
  obtain ⟨⟨descriptor, plts, buffer, data⟩, gots, buffer', data'⟩ := succeeds
  exact ⟨plts, gots, buffer, buffer', by
    simp [pushPlts, descriptor, buffer, data, buffer', data']⟩

theorem pushPlts_failed {push : PushPlts} (fails : push.succeeds = false) :
    ∃ heap, (heap = s.heap ∨ heap = s.heap.fetch push.plts ∨
        heap = (s.heap.fetch push.plts).fetch push.gots) ∧
      s.pushPlts push = ({ s with pltGotCopy := push.descriptor.value, heap }, .failed) := by
  obtain ⟨⟨descriptor, complete⟩, ⟨plts, pltsData, pltsComplete⟩, gots, gotsData, gotsComplete⟩ :=
    push
  cases complete with
  | false => exact ⟨s.heap, .inl rfl, rfl⟩
  | true =>
      cases plts with
      | none => exact ⟨_, .inr (.inl rfl), rfl⟩
      | some plts =>
          cases pltsComplete with
          | false => exact ⟨_, .inr (.inl rfl), rfl⟩
          | true =>
              cases gots with
              | none => exact ⟨_, .inr (.inr rfl), rfl⟩
              | some gots =>
                  cases gotsComplete with
                  | false => exact ⟨_, .inr (.inr rfl), rfl⟩
                  | true => cases fails

theorem pushPlts_reply (push : PushPlts) :
    (s.pushPlts push).2 = if push.succeeds then .ok else .failed := by
  cases succeeds : push.succeeds with
  | true =>
      obtain ⟨plts, gots, -, -, done⟩ := pushPlts_ok (s := s) succeeds
      simp [done]
  | false =>
      obtain ⟨heap, -, failed⟩ := pushPlts_failed (s := s) succeeds
      simp [failed]

theorem pushExits_ok {push : PushExits} (succeeds : push.succeeds) :
    ∃ exits, push.exits.buffer = some exits ∧
      s.pushExits push = ({ s with
        simples := { push.descriptor.value with exitpoints := exits }
        exitpointsAvailable := s.exitpointsAvailable + 1
        heap := s.heap.fetch push.exits }, .ok) := by
  simp only [PushExits.succeeds, Bool.and_eq_true, Fetch.succeeds_iff] at succeeds
  obtain ⟨descriptor, exits, buffer, data⟩ := succeeds
  exact ⟨exits, buffer, by simp [pushExits, descriptor, buffer, data]⟩

theorem pushExits_failed {push : PushExits} (fails : push.succeeds = false) :
    ∃ heap, (heap = s.heap ∨ heap = s.heap.fetch push.exits) ∧
      s.pushExits push = ({ s with simples := push.descriptor.value, heap }, .failed) := by
  obtain ⟨⟨descriptor, complete⟩, exits, data, dataComplete⟩ := push
  cases complete with
  | false => exact ⟨s.heap, .inl rfl, rfl⟩
  | true =>
      cases exits with
      | none => exact ⟨_, .inr rfl, rfl⟩
      | some exits =>
          cases dataComplete with
          | false => exact ⟨_, .inr rfl, rfl⟩
          | true => cases fails

theorem pushExits_reply (push : PushExits) :
    (s.pushExits push).2 = if push.succeeds then .ok else .failed := by
  cases succeeds : push.succeeds with
  | true =>
      obtain ⟨exits, -, done⟩ := pushExits_ok (s := s) succeeds
      simp [done]
  | false =>
      obtain ⟨heap, -, failed⟩ := pushExits_failed (s := s) succeeds
      simp [failed]

theorem published_iff : s.Published pushed ↔
    s.heap.Backed pushed.plts s.pltGotCopy.plts s.pltGotCopy.size ∧
      s.heap.Backed pushed.gots s.pltGotCopy.gots s.pltGotCopy.size ∧
      s.heap.Backed pushed.exits s.simples.exitpoints s.simples.size := by
  constructor
  · intro published
    exact ⟨published .pullPlts _ _ _ rfl, published .pullGots _ _ _ rfl,
      published .pullExitsData _ _ _ rfl⟩
  · rintro ⟨plts, gots, exits⟩ e s' address size reply
    cases e with
    | pushPlts push =>
        have answer := congrArg Prod.snd (Option.some.inj reply)
        rw [pushPlts_reply] at answer
        split at answer <;> cases answer
    | pushExits push =>
        have answer := congrArg Prod.snd (Option.some.inj reply)
        rw [pushExits_reply] at answer
        split at answer <;> cases answer
    | pullPltCopy interrupted => cases interrupted <;> simp [ioctl] at reply
    | pullExits interrupted => cases interrupted <;> simp [ioctl] at reply
    | pullPlts =>
        cases reply
        exact plts
    | pullGots =>
        cases reply
        exact gots
    | pullExitsData =>
        cases reply
        exact exits

theorem Published.grow (published : s.Published pushed) {heap : Heap}
    (grown : s.heap.Extends heap) (heap_eq : s'.heap = heap) (plts : s'.pltGotCopy = s.pltGotCopy)
    (exits : s'.simples = s.simples) : s'.Published pushed := by
  rw [published_iff] at published ⊢
  rw [heap_eq, plts, exits]
  obtain ⟨plts, gots, exits⟩ := published
  exact ⟨plts.mono grown (List.Subset.refl _), gots.mono grown (List.Subset.refl _),
    exits.mono grown (List.Subset.refl _)⟩

def Untouched (s s' : Tables) : Prop :=
  s'.pltGotCopy = s.pltGotCopy ∧ s'.simples = s.simples

def Safe (s : Tables) (pushed : Pushed) (e : TableIoctl) (s' : Tables) (reply : Reply) : Prop :=
  (reply = .failed → s.Untouched s') ∧ s'.Published (pushed.after e reply)

theorem pushPlts_safe (published : s.Published pushed) {push : PushPlts}
    (possible : push.Possible s.heap)
    (harmless : push.succeeds ∨ push.descriptor.value = s.pltGotCopy)
    (step : s.pushPlts push = (s', reply)) : s.Safe pushed (.pushPlts push) s' reply := by
  cases succeeds : push.succeeds with
  | true =>
      obtain ⟨plts, gots, buffer, buffer', done⟩ := pushPlts_ok (s := s) succeeds
      cases done.symm.trans step
      refine ⟨nofun, published_iff.mpr ⟨?_, ?_, ?_⟩⟩
      · exact (Heap.Backed.of_fetch possible.1 buffer).mono possible.2.extends (List.Subset.refl _)
      · exact .of_fetch possible.2 buffer'
      · exact (published_iff.mp published).2.2.mono possible.extends (List.Subset.refl _)
  | false =>
      obtain ⟨heap, grown, failed⟩ := pushPlts_failed (s := s) succeeds
      have same : push.descriptor.value = s.pltGotCopy := by simpa [succeeds] using harmless
      cases failed.symm.trans step
      refine ⟨fun _ => ⟨same, rfl⟩, published.grow ?_ rfl same rfl⟩
      rcases grown with rfl | rfl | rfl
      · exact fun _ _ => id
      · exact possible.1.extends
      · exact possible.extends

theorem pushExits_safe (published : s.Published pushed) {push : PushExits}
    (possible : push.Possible s.heap)
    (harmless : push.succeeds ∨ push.descriptor.value = s.simples)
    (step : s.pushExits push = (s', reply)) : s.Safe pushed (.pushExits push) s' reply := by
  cases succeeds : push.succeeds with
  | true =>
      obtain ⟨exits, buffer, done⟩ := pushExits_ok (s := s) succeeds
      obtain ⟨plts, gots, -⟩ := published_iff.mp published
      cases done.symm.trans step
      refine ⟨nofun, published_iff.mpr ⟨?_, ?_, ?_⟩⟩
      · exact plts.mono possible.extends (List.Subset.refl _)
      · exact gots.mono possible.extends (List.Subset.refl _)
      · exact .of_fetch possible buffer
  | false =>
      obtain ⟨heap, grown, failed⟩ := pushExits_failed (s := s) succeeds
      have same : push.descriptor.value = s.simples := by simpa [succeeds] using harmless
      cases failed.symm.trans step
      refine ⟨fun _ => ⟨rfl, same⟩, published.grow ?_ rfl rfl same⟩
      rcases grown with rfl | rfl
      · exact fun _ _ => id
      · exact possible.extends

theorem ioctl_safe (published : s.Published pushed) {e : TableIoctl}
    (possible : s.Possible e) (harmless : s.Harmless e) (step : s.ioctl e = some (s', reply)) :
    s.Safe pushed e s' reply := by
  cases e with
  | pushPlts push =>
      exact pushPlts_safe published possible harmless (Option.some.inj step)
  | pushExits push =>
      exact pushExits_safe published possible harmless (Option.some.inj step)
  | pullPlts | pullGots | pullExitsData =>
      cases step
      exact ⟨fun _ => ⟨rfl, rfl⟩, published⟩
  | pullPltCopy interrupted | pullExits interrupted =>
      cases interrupted with
      | true =>
          cases step
          exact ⟨fun _ => ⟨rfl, rfl⟩, published⟩
      | false =>
          simp only [ioctl, Option.ite_none_right_eq_some, Option.some.injEq, Prod.mk.injEq] at step
          obtain ⟨-, rfl, rfl⟩ := step
          exact ⟨fun _ => ⟨rfl, rfl⟩, published.grow (fun _ _ => id) rfl rfl rfl⟩

theorem harmless_of_safe {e : TableIoctl} (safe : s.Safe pushed e s' reply)
    (step : s.ioctl e = some (s', reply)) : s.Harmless e := by
  cases e with
  | pushPlts push =>
      cases succeeds : push.succeeds with
      | true => exact .inl succeeds
      | false =>
          obtain ⟨heap, -, failed⟩ := pushPlts_failed (s := s) succeeds
          rw [ioctl, failed] at step
          cases step
          exact .inr (safe.1 rfl).1
  | pushExits push =>
      cases succeeds : push.succeeds with
      | true => exact .inl succeeds
      | false =>
          obtain ⟨heap, -, failed⟩ := pushExits_failed (s := s) succeeds
          rw [ioctl, failed] at step
          cases step
          exact .inr (safe.1 rfl).2
  | _ => trivial

theorem init_published : ({} : Tables).Published {} := by
  rw [published_iff]
  exact ⟨.inl rfl, .inl rfl, .inl rfl⟩

theorem run_published {events : List TableIoctl}
    (run : tables.Run (fun s e => s.1.Possible e ∧ s.1.Harmless e) ({}, {}) events (s, pushed)) :
    s.Published pushed := by
  apply run.invariant (P := fun s => s.1.Published s.2)
  · intro s e s' published guard step
    simp only [tables, Option.map_eq_some_iff] at step
    obtain ⟨r, step, rfl⟩ := step
    exact (ioctl_safe published guard.1 guard.2 step).2
  · exact init_published

/-- As long as every push is harmless, the `PULL` requests copy from tables that were pushed. The
next request keeps that, and a push that fails leaves both descriptors alone, exactly if it is
harmless too. -/
theorem safe_iff_harmless {events : List TableIoctl}
    (run : tables.Run (fun s e => s.1.Possible e ∧ s.1.Harmless e) ({}, {}) events (s, pushed)) :
    s.Published pushed ∧ ∀ e s' reply, s.Possible e → s.ioctl e = some (s', reply) →
      (s.Safe pushed e s' reply ↔ s.Harmless e) := by
  have published := run_published run
  refine ⟨published, fun e s' reply possible step => ⟨fun safe => ?_, fun harmless => ?_⟩⟩
  · exact harmless_of_safe safe step
  · exact ioctl_safe published possible harmless step

def firstPush : PushPlts where
  descriptor := { value := ⟨1, 0, 0x1000, 0x2000⟩, complete := true }
  plts := { buffer := some 0xffff0000, data := { value := [1], complete := true } }
  gots := { buffer := some 0xffff1000, data := { value := [2], complete := true } }

/-- The kernel has no memory left when the table of `0x3000` is pushed. -/
def secondPush : PushPlts where
  descriptor := { value := ⟨1, 0, 0x3000, 0x4000⟩, complete := true }
  plts := { buffer := none, data := { value := [0], complete := false } }
  gots := { buffer := none, data := { value := [0], complete := false } }

theorem firstPush_possible : firstPush.Possible fun _ => none := by
  refine ⟨⟨rfl, fun address _ => .inl rfl⟩, ⟨rfl, fun address buffer => .inl ?_⟩⟩
  cases buffer
  rfl

theorem secondPush_possible {heap : Heap} : secondPush.Possible heap :=
  ⟨⟨rfl, nofun⟩, ⟨rfl, nofun⟩⟩

theorem safe_iff_harmless_pushed :
    ∃ s pushed, tables.Run (fun s e => s.1.Possible e ∧ s.1.Harmless e) ({}, {})
        [.pushPlts firstPush] (s, pushed) ∧ s.Published pushed ∧
      ¬ s.Safe pushed (.pushPlts secondPush) (s.pushPlts secondPush).1
        (s.pushPlts secondPush).2 := by
  have run : ∃ s pushed, tables.Run (fun s e => s.1.Possible e ∧ s.1.Harmless e) ({}, {})
      [.pushPlts firstPush] (s, pushed) ∧ ¬ s.Harmless (.pushPlts secondPush) := by
    refine ⟨_, _, .cons ⟨firstPush_possible, .inl rfl⟩ rfl (.nil _), ?_⟩
    rintro (done | same)
    · cases done
    · cases same
  obtain ⟨s, pushed, run, harmful⟩ := run
  obtain ⟨published, next⟩ := safe_iff_harmless run
  refine ⟨s, pushed, run, published, fun safe => harmful ?_⟩
  exact (next (.pushPlts secondPush) _ _ secondPush_possible rfl).mp safe

/-- The second push returns 1. Its descriptor stays, and `PULL_PLTS` copies from the address in the
memory of the target that it holds. -/
theorem secondPush_published : ∃ s s' pushed,
    tables.exec ({}, {}) [.pushPlts firstPush] = some (s, pushed) ∧
      s.ioctl (.pushPlts secondPush) = some (s', .failed) ∧ ¬ s.Untouched s' ∧
      s'.ioctl .pullPlts = some (s', .memory 0x3000 1) ∧
      ¬ s'.heap.Backed pushed.plts 0x3000 1 := by
  refine ⟨_, _, _, rfl, rfl, ?_, rfl, ?_⟩
  · rintro ⟨same, -⟩
    cases same
  · rintro (empty | ⟨fetch, mem, buffer, -⟩)
    · cases empty
    · change (1, fetch) ∈ [((1 : UInt64), firstPush.plts)] at mem
      obtain rfl : fetch = firstPush.plts := by simpa using mem
      cases buffer

end Tables

end PathArmor.Kernel

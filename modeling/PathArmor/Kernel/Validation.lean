import Mathlib.Data.Option.Basic
import Mathlib.Logic.Function.Basic
import PathArmor.LbrState
import PathArmor.Library.Transition

/-!
# Validation requests

Any number of `validate_lbr` calls and one analyzer, which takes requests with
`ARMOR_IOC_GET_JIT_WORK` and answers them with `ARMOR_IOC_PUT_JIT_WORK`. Each event is one access
to the state they share. `down_timeout` gives up only while the semaphore is down.
-/

namespace PathArmor.Kernel
open PathArmor.Library

inductive Phase
  | idle
  | captured  -- `get_lbr` filled the local variable `lbr`
  | admitted  -- `disable_jit` was not set
  | locked    -- holds `validation_lock`
  | missed    -- the digest is not in the cache
  | published -- `jit_work` points to `lbr`
  | waiting   -- `jit_work_cond` is up; in `down_timeout`
  | resumed   -- `down_timeout` returned 0
  | expired   -- `down_timeout` returned an error
  | returned
  deriving DecidableEq, Repr

def Phase.holdsLock : Phase → Bool
  | .locked | .missed | .published | .waiting | .resumed | .expired => true
  | _ => false

structure Call where
  phase : Phase
  lbr : Lbr

/-- The analyzer's loop. What it works on is the copy it got from `GET_JIT_WORK`. -/
inductive Analyzer
  | idle
  | taken                            -- `jit_work_cond` is down, `jit_work` not yet copied
  | analyzing (call : Nat) (lbr : Lbr)
  | answered                         -- `jit_result` is set, `jit_result_cond` not yet up

def jitCacheSize : Nat := 512

/-- What passes between the calls and the analyzer. `answer` is not in the sources: the request
`jit_result` was last written for. -/
structure Channel where
  analyzer : Analyzer := .idle
  jitWorkCond : Nat := 0
  jitResultCond : Nat := 0
  jitWork : Option Nat := none
  jitResult : UInt64 := 0
  disableJit : Bool := false
  answer : Option (Nat × Lbr × UInt64) := none

structure Validation (δ : Type) extends Channel where
  call : Nat → Call
  validationLock : Option Nat := none
  cacheHash : Nat → Option δ := fun _ => none
  cacheHashes : Nat := 0

inductive Event
  | capture (i : Nat) (lbr : Lbr)
  | test (i : Nat)
  | lock (i : Nat)
  | lookup (i : Nat)
  | publish (i : Nat)
  | upWork (i : Nat)
  | downResult (i : Nat)
  | timeout (i : Nat)
  | disable (i : Nat)
  | readResult (i : Nat)
  | downWork
  | copyWork (stale : Lbr) -- what lies on the stack of a call that has returned
  | putResult (result : UInt64)
  | upResult

section
variable {δ : Type} [DecidableEq δ] (hashLbr : Lbr → δ)

namespace Validation

def setPhase (s : Validation δ) (i : Nat) (phase : Phase) : Validation δ :=
  { s with call := Function.update s.call i { s.call i with phase } }

def inCache (s : Validation δ) (hash : δ) : Bool :=
  (List.range s.cacheHashes).any fun k => s.cacheHash k == some hash

def addToCache (s : Validation δ) (hash : δ) : Validation δ :=
  { s with
    cacheHash := Function.update s.cacheHash s.cacheHashes (some hash)
    cacheHashes := (s.cacheHashes + 1) % jitCacheSize }

/-- All three verdicts are treated as valid and cached. -/
def processResult (s : Validation δ) (hash : δ) : Validation δ :=
  if s.jitResult = 0 ∨ s.jitResult = 2 ∨ s.jitResult = 1 then s.addToCache hash else s

def stepCall (s : Validation δ) : Event → Option (Validation δ)
  | .capture i lbr =>
      if (s.call i).phase = .idle then
        some { s with call := Function.update s.call i { phase := .captured, lbr } }
      else none
  | .test i =>
      if (s.call i).phase = .captured then
        some (s.setPhase i (if s.disableJit then .returned else .admitted))
      else none
  | .lock i =>
      if (s.call i).phase = .admitted ∧ s.validationLock = none then
        some { s.setPhase i .locked with validationLock := some i }
      else none
  | .lookup i =>
      if (s.call i).phase = .locked then
        if s.inCache (hashLbr (s.call i).lbr) then
          some { s.setPhase i .returned with validationLock := none }
        else some (s.setPhase i .missed)
      else none
  | .publish i =>
      if (s.call i).phase = .missed then
        some { s.setPhase i .published with jitWork := some i }
      else none
  | .upWork i =>
      if (s.call i).phase = .published then
        some { s.setPhase i .waiting with jitWorkCond := s.jitWorkCond + 1 }
      else none
  | .downResult i =>
      if (s.call i).phase = .waiting ∧ 0 < s.jitResultCond then
        some { s.setPhase i .resumed with jitResultCond := s.jitResultCond - 1 }
      else none
  | .timeout i =>
      if (s.call i).phase = .waiting ∧ s.jitResultCond = 0 then some (s.setPhase i .expired)
      else none
  | .disable i =>
      if (s.call i).phase = .expired then
        some { s.setPhase i .returned with disableJit := true, validationLock := none }
      else none
  | .readResult i =>
      if (s.call i).phase = .resumed then
        some { (s.processResult (hashLbr (s.call i).lbr)).setPhase i .returned with
          validationLock := none }
      else none
  | _ => none

def stepAnalyzer (s : Validation δ) : Event → Option (Validation δ)
  | .downWork =>
      match s.analyzer with
      | .idle =>
          if 0 < s.jitWorkCond then
            some { s with analyzer := .taken, jitWorkCond := s.jitWorkCond - 1 }
          else none
      | _ => none
  | .copyWork stale =>
      match s.analyzer, s.jitWork with
      | .taken, some i =>
          let lbr := if (s.call i).phase = .returned then stale else (s.call i).lbr
          some { s with analyzer := .analyzing i lbr }
      | _, _ => none
  | .putResult result =>
      match s.analyzer with
      | .analyzing i lbr =>
          some { s with
            analyzer := .answered, jitResult := result, answer := some (i, lbr, result) }
      | _ => none
  | .upResult =>
      match s.analyzer with
      | .answered => some { s with analyzer := .idle, jitResultCond := s.jitResultCond + 1 }
      | _ => none
  | _ => none

end Validation

def validation : System (Validation δ) Event where
  step s e := s.stepCall hashLbr e <|> s.stepAnalyzer e

def Validation.init (lbr : Lbr) : Validation δ where
  call _ := { phase := .idle, lbr }

end

/-! ## Where a request is -/

namespace Channel
variable {s : Channel}

def Quiet (s : Channel) : Prop :=
  s.jitWorkCond = 0 ∧ s.jitResultCond = 0 ∧ s.analyzer = .idle

def Spent (s : Channel) : Prop := s.jitWorkCond = 0 ∧ s.analyzer ≠ .taken

def Idle (s : Channel) : Prop := (s.disableJit = false → s.Quiet) ∧ s.Spent

/-- The request of the call `i` is in exactly one place. -/
inductive InFlight (s : Channel) (i : Nat) (lbr : Lbr) : Prop
  | requested (work : s.jitWorkCond = 1) (result : s.jitResultCond = 0)
      (analyzer : s.analyzer = .idle) (pointer : s.jitWork = some i)
  | taken (work : s.jitWorkCond = 0) (result : s.jitResultCond = 0)
      (analyzer : s.analyzer = .taken) (pointer : s.jitWork = some i)
  | analyzing (work : s.jitWorkCond = 0) (result : s.jitResultCond = 0)
      (analyzer : s.analyzer = .analyzing i lbr)
  | answered (work : s.jitWorkCond = 0) (result : s.jitResultCond = 0)
      (analyzer : s.analyzer = .answered) (answer : s.answer = some (i, lbr, s.jitResult))
  | ready (work : s.jitWorkCond = 0) (result : s.jitResultCond = 1)
      (analyzer : s.analyzer = .idle) (answer : s.answer = some (i, lbr, s.jitResult))

def Holding (s : Channel) (i : Nat) (c : Call) : Prop :=
  match c.phase with
  | .locked | .missed => s.Idle
  | .published => s.Quiet ∧ s.jitWork = some i ∧ s.disableJit = false
  | .waiting => s.InFlight i c.lbr ∧ s.disableJit = false
  | .resumed => s.Quiet ∧ s.answer = some (i, c.lbr, s.jitResult) ∧ s.disableJit = false
  | .expired => s.Spent
  | _ => False

theorem Holding.holdsLock {i : Nat} {c : Call} (holding : s.Holding i c) : c.phase.holdsLock := by
  obtain ⟨phase, lbr⟩ := c
  cases phase <;> first | rfl | exact holding.elim

theorem Quiet.spent (quiet : s.Quiet) : s.Spent := by
  refine ⟨quiet.1, ?_⟩
  rw [quiet.2.2]
  simp

theorem Quiet.idle (quiet : s.Quiet) : s.Idle := ⟨fun _ => quiet, quiet.spent⟩

end Channel

namespace Validation
variable {δ : Type} {s s' : Validation δ}

/-- Whoever is about to read `jit_result` finds the verdict on its own LBR there, and an LBR about
to be handed out belongs to a call that waits for it. -/
def Agrees (s : Validation δ) : Prop :=
  (∀ i, (s.call i).phase = .resumed → s.answer = some (i, (s.call i).lbr, s.jitResult)) ∧
    (s.analyzer = .taken → ∃ i, s.jitWork = some i ∧ (s.call i).phase = .waiting)

/-- A call gives up only after `GET_JIT_WORK` handed out its request, and none publishes a request
once the analyzer is disabled. -/
def InTime (s : Validation δ) : Event → Prop
  | .timeout _ => s.jitWorkCond = 0 ∧ s.analyzer ≠ .taken
  | .publish _ => s.disableJit = false
  | _ => True

structure Orderly (s : Validation δ) : Prop where
  exclusive : ∀ i, (s.call i).phase.holdsLock → s.validationLock = some i
  free : s.validationLock = none → s.Idle
  held : ∀ i, s.validationLock = some i → s.Holding i (s.call i)

namespace Orderly
variable {i : Nat} {c : Call}

theorem outside (orderly : s.Orderly) (before : (s.call i).phase.holdsLock = false)
    (after : c.phase.holdsLock = false) (call : s'.call = Function.update s.call i c)
    (lock : s'.validationLock = s.validationLock) (channel : s'.toChannel = s.toChannel) :
    s'.Orderly := by
  refine ⟨fun j holds => ?_, ?_, fun j lockJ => ?_⟩
  · rw [call] at holds
    rcases eq_or_ne j i with rfl | differs
    · simp [after] at holds
    · rw [Function.update_of_ne differs] at holds
      rw [lock]
      exact orderly.exclusive j holds
  · rw [lock, channel]
    exact orderly.free
  · rw [lock] at lockJ
    have holding := orderly.held j lockJ
    have differs : j ≠ i := by
      rintro rfl
      exact absurd holding.holdsLock (by simp [before])
    rwa [channel, call, Function.update_of_ne differs]

theorem enter (orderly : s.Orderly) (free : s.validationLock = none) (locked : c.phase = .locked)
    (call : s'.call = Function.update s.call i c) (lock : s'.validationLock = some i)
    (channel : s'.toChannel = s.toChannel) : s'.Orderly := by
  refine ⟨fun j holds => ?_, by simp [lock], fun j lockJ => ?_⟩
  · rw [call] at holds
    rcases eq_or_ne j i with rfl | differs
    · exact lock
    · rw [Function.update_of_ne differs] at holds
      simp [orderly.exclusive j holds] at free
  · obtain rfl : i = j := by simpa [lock] using lockJ
    rw [call, Function.update_self, Channel.Holding, locked, channel]
    exact orderly.free free

theorem advance (orderly : s.Orderly) (holds : (s.call i).phase.holdsLock)
    (call : s'.call = Function.update s.call i c) (lock : s'.validationLock = s.validationLock)
    (holding : s'.Holding i c) : s'.Orderly := by
  have lockI := orderly.exclusive i holds
  rw [lockI] at lock
  refine ⟨fun j holdsJ => ?_, by simp [lock], fun j lockJ => ?_⟩
  · rw [call] at holdsJ
    rcases eq_or_ne j i with rfl | differs
    · exact lock
    · rw [Function.update_of_ne differs] at holdsJ
      exact absurd (orderly.exclusive j holdsJ) (by simp [lockI, differs.symm])
  · obtain rfl : i = j := by simpa [lock] using lockJ
    rwa [call, Function.update_self]

theorem leave (orderly : s.Orderly) (holds : (s.call i).phase.holdsLock)
    (call : s'.call = Function.update s.call i c) (returned : c.phase = .returned)
    (lock : s'.validationLock = none) (idle : s'.Idle) : s'.Orderly := by
  have lockI := orderly.exclusive i holds
  refine ⟨fun j holdsJ => ?_, fun _ => idle, by simp [lock]⟩
  rw [call] at holdsJ
  rcases eq_or_ne j i with rfl | differs
  · rw [Function.update_self, returned] at holdsJ
    cases holdsJ
  · rw [Function.update_of_ne differs] at holdsJ
    exact absurd (orderly.exclusive j holdsJ) (by simp [lockI, differs.symm])

theorem analyzer (orderly : s.Orderly) (call : s'.call = s.call)
    (lock : s'.validationLock = s.validationLock) (disabled : s'.disableJit = s.disableJit)
    (busy : ¬ s.Quiet) (spent : s.Spent → s'.Spent)
    (flight : ∀ i, (s.call i).phase = .waiting → s.InFlight i (s.call i).lbr →
      s'.InFlight i (s.call i).lbr) : s'.Orderly := by
  have idle : s.Idle → s'.Idle := fun idle =>
    ⟨fun enabled => absurd (idle.1 (disabled ▸ enabled)) busy, spent idle.2⟩
  refine ⟨fun i holds => ?_, fun free => ?_, fun i held => ?_⟩
  · rw [lock]
    exact orderly.exclusive i (call ▸ holds)
  · exact idle (orderly.free (lock ▸ free))
  · have holding := orderly.held i (lock ▸ held)
    rw [call]
    unfold Channel.Holding at holding ⊢
    cases phase : (s.call i).phase <;> simp only [phase] at holding ⊢
    case locked | missed => exact idle holding
    case published | resumed => exact absurd holding.1 busy
    case waiting => exact ⟨flight i phase holding.1, disabled.trans holding.2⟩
    case expired => exact spent holding

theorem holding (orderly : s.Orderly) {phase : Phase} (reached : (s.call i).phase = phase)
    (holds : phase.holdsLock) : s.Holding i (s.call i) :=
  orderly.held i (orderly.exclusive i (reached ▸ holds))

end Orderly

/-! ## Steps of the analyzer -/

theorem stepAnalyzer_orderly {e : Event} (orderly : s.Orderly) (step : s.stepAnalyzer e = some s') :
    s'.Orderly := by
  cases e with
  | downWork =>
      cases analyzer : s.analyzer <;>
        simp only [stepAnalyzer, analyzer, reduceCtorEq] at step
      case idle =>
        simp only [Option.ite_none_right_eq_some, Option.some.injEq] at step
        obtain ⟨up, rfl⟩ := step
        refine orderly.analyzer rfl rfl rfl ?_ ?_ ?_
        · rintro ⟨work, -⟩
          omega
        · rintro ⟨work, -⟩
          omega
        · rintro i - (⟨work, result, -, pointer⟩ | ⟨work⟩ | ⟨work⟩ | ⟨work⟩ | ⟨work⟩)
          · refine .taken ?_ result rfl pointer
            change s.jitWorkCond - 1 = 0
            rw [work]
          all_goals omega
  | copyWork stale =>
      cases analyzer : s.analyzer <;> cases pointer : s.jitWork <;>
        simp only [stepAnalyzer, analyzer, pointer, reduceCtorEq, Option.some.injEq] at step
      case taken.some i =>
        subst step
        refine orderly.analyzer rfl rfl rfl ?_ ?_ ?_
        · rintro ⟨-, -, idle⟩
          simp [analyzer] at idle
        · rintro ⟨-, notTaken⟩
          exact absurd analyzer notTaken
        · rintro j waiting (⟨_, _, at'⟩ | ⟨work, result, -, own⟩ | ⟨_, _, at'⟩ | ⟨_, _, at'⟩ |
            ⟨_, _, at'⟩) <;> try simp [analyzer] at at'
          obtain rfl : i = j := by simpa [pointer] using own
          exact .analyzing work result (by simp [waiting])
  | putResult verdict =>
      cases analyzer : s.analyzer <;>
        simp only [stepAnalyzer, analyzer, reduceCtorEq, Option.some.injEq] at step
      case analyzing i lbr =>
        subst step
        refine orderly.analyzer rfl rfl rfl ?_ ?_ ?_
        · rintro ⟨-, -, idle⟩
          simp [analyzer] at idle
        · rintro ⟨work, -⟩
          exact ⟨work, by simp⟩
        · rintro j - (⟨_, _, at'⟩ | ⟨_, _, at'⟩ | ⟨work, result, at'⟩ | ⟨_, _, at'⟩ |
            ⟨_, _, at'⟩) <;> simp only [analyzer, reduceCtorEq, Analyzer.analyzing.injEq] at at'
          obtain ⟨rfl, rfl⟩ := at'
          exact .answered work result rfl rfl
  | upResult =>
      cases analyzer : s.analyzer <;>
        simp only [stepAnalyzer, analyzer, reduceCtorEq, Option.some.injEq] at step
      case answered =>
        subst step
        refine orderly.analyzer rfl rfl rfl ?_ ?_ ?_
        · rintro ⟨-, -, idle⟩
          simp [analyzer] at idle
        · rintro ⟨work, -⟩
          exact ⟨work, by simp⟩
        · rintro j - (⟨_, _, at'⟩ | ⟨_, _, at'⟩ | ⟨_, _, at'⟩ | ⟨work, result, -, answer⟩ |
            ⟨_, _, at'⟩) <;> try simp [analyzer] at at'
          refine .ready work ?_ rfl answer
          change s.jitResultCond + 1 = 1
          rw [result]
  | _ => simp [stepAnalyzer] at step

/-! ## Steps of the calls -/

section
variable [DecidableEq δ] {hashLbr : Lbr → δ}

theorem stepCall_orderly {e : Event} (orderly : s.Orderly) (inTime : s.InTime e)
    (step : s.stepCall hashLbr e = some s') : s'.Orderly := by
  cases e with
  | capture i lbr =>
      simp only [stepCall, Option.ite_none_right_eq_some, Option.some.injEq] at step
      obtain ⟨phase, rfl⟩ := step
      exact orderly.outside (by rw [phase]; rfl) rfl rfl rfl rfl
  | test i =>
      simp only [stepCall, Option.ite_none_right_eq_some, Option.some.injEq] at step
      obtain ⟨phase, rfl⟩ := step
      refine orderly.outside (by rw [phase]; rfl) ?_ rfl rfl rfl
      cases s.disableJit <;> rfl
  | lock i =>
      simp only [stepCall, Option.ite_none_right_eq_some, Option.some.injEq] at step
      obtain ⟨⟨-, free⟩, rfl⟩ := step
      exact orderly.enter free rfl rfl rfl rfl
  | lookup i =>
      simp only [stepCall, Option.ite_none_right_eq_some] at step
      obtain ⟨phase, step⟩ := step
      have idle : s.Idle := by simpa [Channel.Holding, phase] using orderly.holding phase rfl
      split_ifs at step
      · obtain rfl := by simpa using step
        exact orderly.leave (by rw [phase]; rfl) rfl rfl rfl idle
      · obtain rfl := by simpa using step
        exact orderly.advance (by rw [phase]; rfl) rfl rfl idle
  | publish i =>
      simp only [stepCall, Option.ite_none_right_eq_some, Option.some.injEq] at step
      obtain ⟨phase, rfl⟩ := step
      have idle : s.Idle := by simpa [Channel.Holding, phase] using orderly.holding phase rfl
      exact orderly.advance (by rw [phase]; rfl) rfl rfl ⟨idle.1 inTime, rfl, inTime⟩
  | upWork i =>
      simp only [stepCall, Option.ite_none_right_eq_some, Option.some.injEq] at step
      obtain ⟨phase, rfl⟩ := step
      have held := orderly.holding phase rfl
      simp only [Channel.Holding, phase] at held
      obtain ⟨⟨work, result, analyzer⟩, pointer, enabled⟩ := held
      refine orderly.advance (by rw [phase]; rfl) rfl rfl
        ⟨.requested ?_ result analyzer pointer, enabled⟩
      change s.jitWorkCond + 1 = 1
      rw [work]
  | downResult i =>
      simp only [stepCall, Option.ite_none_right_eq_some, Option.some.injEq] at step
      obtain ⟨⟨phase, up⟩, rfl⟩ := step
      have held := orderly.holding phase rfl
      simp only [Channel.Holding, phase] at held
      obtain ⟨flight, enabled⟩ := held
      cases flight with
      | ready work result analyzer answer =>
          refine orderly.advance (by rw [phase]; rfl) rfl rfl
            ⟨⟨work, ?_, analyzer⟩, answer, enabled⟩
          change s.jitResultCond - 1 = 0
          rw [result]
      | requested _ result | taken _ result | analyzing _ result | answered _ result => omega
  | timeout i =>
      simp only [stepCall, Option.ite_none_right_eq_some, Option.some.injEq] at step
      obtain ⟨⟨phase, -⟩, rfl⟩ := step
      exact orderly.advance (by rw [phase]; rfl) rfl rfl inTime
  | disable i =>
      simp only [stepCall, Option.ite_none_right_eq_some, Option.some.injEq] at step
      obtain ⟨phase, rfl⟩ := step
      have held := orderly.holding phase rfl
      simp only [Channel.Holding, phase] at held
      exact orderly.leave (by rw [phase]; rfl) rfl rfl rfl ⟨by simp, held⟩
  | readResult i =>
      simp only [stepCall, Option.ite_none_right_eq_some, Option.some.injEq] at step
      obtain ⟨phase, rfl⟩ := step
      have held := orderly.holding phase rfl
      simp only [Channel.Holding, phase] at held
      have same : (s.processResult (hashLbr (s.call i).lbr)).toChannel = s.toChannel ∧
          (s.processResult (hashLbr (s.call i).lbr)).call = s.call := by
        unfold processResult
        split_ifs <;> exact ⟨rfl, rfl⟩
      refine orderly.leave (c := { s.call i with phase := .returned })
        (by rw [phase]; rfl) ?_ rfl rfl ?_
      · simp only [setPhase, same.2]
      · change (s.processResult (hashLbr (s.call i).lbr)).Idle
        rw [same.1]
        exact held.1.idle
  | _ => simp [stepCall] at step

theorem step_orderly {e : Event} (orderly : s.Orderly) (inTime : s.InTime e)
    (step : (validation hashLbr).step s e = some s') : s'.Orderly := by
  rcases (Option.orElse_eq_some _ _ _).mp step with step | ⟨-, step⟩
  · exact stepCall_orderly orderly inTime step
  · exact stepAnalyzer_orderly orderly step

end

/-! ## Runs -/

theorem init_orderly (lbr : Lbr) : (init lbr : Validation δ).Orderly where
  exclusive _ holds := by cases holds
  free _ := Channel.Quiet.idle ⟨rfl, rfl, rfl⟩
  held _ lock := by cases lock

theorem Orderly.agrees (orderly : s.Orderly) : s.Agrees := by
  refine ⟨fun i resumed => ?_, fun taken => ?_⟩
  · have held := orderly.holding resumed rfl
    simp only [Channel.Holding, resumed] at held
    exact held.2.1
  · have notIdle : ¬ s.Idle := fun idle => idle.2.2 taken
    cases lock : s.validationLock with
    | none => exact absurd (orderly.free lock) notIdle
    | some i =>
        have held := orderly.held i lock
        unfold Channel.Holding at held
        cases phase : (s.call i).phase <;> simp only [phase] at held
        case locked | missed => exact absurd held notIdle
        case published | resumed => exact absurd held.1.idle notIdle
        case expired => exact absurd taken held.2
        case waiting =>
          refine ⟨i, ?_, phase⟩
          rcases held.1 with ⟨_, _, at'⟩ | ⟨_, _, _, pointer⟩ | ⟨_, _, at'⟩ | ⟨_, _, at'⟩ |
            ⟨_, _, at'⟩ <;> first | exact pointer | simp [taken] at at'

/-- While requests that were not handed out are not given up, and none follows a timeout, every
answer goes to the call that asked. -/
theorem validation_agrees [DecidableEq δ] {hashLbr : Lbr → δ} {lbr : Lbr} {events : List Event}
    (run : (validation hashLbr).Run InTime (init lbr) events s) : s.Agrees :=
  (run.invariant (fun _ _ _ => step_orderly) (init_orderly lbr)).agrees

def firstLbr : Lbr where
  debug := 0
  select := 0
  tos := 0
  fromAddr _ := 0x400100
  toAddr _ := 0x400200

def secondLbr : Lbr := { firstLbr with toAddr _ := 0x400300 }

def answered : List Event :=
  [.capture 0 firstLbr, .test 0, .lock 0, .lookup 0, .publish 0, .upWork 0, .downWork,
    .copyWork secondLbr, .putResult 1, .upResult, .downResult 0]

theorem validation_agrees_answered :
    ∃ s, (validation hashLbrStream).Run InTime (init firstLbr) answered s ∧
      (s.call 0).phase = .resumed ∧ s.Agrees := by
  have run : ∃ s, (validation hashLbrStream).Run InTime (init firstLbr) answered s ∧
      (s.call 0).phase = .resumed :=
    ⟨_, .cons trivial rfl (.cons trivial rfl (.cons trivial rfl (.cons trivial rfl
      (.cons rfl rfl (.cons trivial rfl (.cons trivial rfl (.cons trivial rfl
      (.cons trivial rfl (.cons trivial rfl (.cons trivial rfl (.nil _))))))))))), rfl⟩
  obtain ⟨s, run, resumed⟩ := run
  exact ⟨s, run, resumed, validation_agrees run⟩

/-- Both calls test `disable_jit` before the request of call 0 is given up; the analyzer takes it
afterwards. -/
def givenUp : List Event :=
  [.capture 0 firstLbr, .capture 1 secondLbr, .test 0, .test 1, .lock 0, .lookup 0, .publish 0,
    .upWork 0, .timeout 0, .disable 0, .downWork]

def crossed : List Event :=
  [.copyWork firstLbr, .putResult 1, .upResult, .lock 1, .lookup 1, .publish 1, .upWork 1,
    .downResult 1]

theorem not_agrees_of_taken {i : Nat} (taken : s.analyzer = .taken) (pointer : s.jitWork = some i)
    (gone : (s.call i).phase = .returned) : ¬ s.Agrees := by
  rintro ⟨-, handedOut⟩
  obtain ⟨j, pointerJ, waiting⟩ := handedOut taken
  obtain rfl : i = j := by simpa [pointer] using pointerJ
  simp [gone] at waiting

theorem not_agrees_of_resumed {i j : Nat} {lbr : Lbr} {verdict : UInt64}
    (resumed : (s.call i).phase = .resumed) (answer : s.answer = some (j, lbr, verdict))
    (other : j ≠ i) : ¬ s.Agrees := by
  rintro ⟨consumed, -⟩
  have own := consumed i resumed
  simp [answer, other] at own

/-- In `givenUp` the LBR about to be handed out belongs to a call that has returned. After
`crossed`, call 1 is about to cache its own digest on the strength of the answer to call 0. -/
theorem givenUp_disagrees :
    ∃ s s', (validation hashLbrStream).exec (init firstLbr) givenUp = some s ∧ ¬ s.Agrees ∧
      (validation hashLbrStream).exec s crossed = some s' ∧ ¬ s'.Agrees := by
  refine ⟨_, _, rfl, not_agrees_of_taken (i := 0) rfl rfl rfl, rfl, ?_⟩
  exact not_agrees_of_resumed (i := 1) (j := 0) rfl rfl (by decide)

end Validation

end PathArmor.Kernel

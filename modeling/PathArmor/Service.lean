import PathArmor.Analyzer.History
import PathArmor.Analyzer.ValidPath
import PathArmor.Kernel.VerdictCache

/-!
# The validation service

The kernel module and the daemon together: calls of `validate_lbr` and the analyzer interleave, and
the daemon carries its graph from one request to the next. In the order in which the calls are
answered, this is one validator that works alone and remembers the digests of what it has seen.
-/

namespace PathArmor
open Library Kernel Analyzer

/-- What `jit_validate_lbr` returns and `ARMOR_IOC_PUT_JIT_WORK` passes on. -/
def Analyzer.Verdict.code : Verdict → UInt64
  | .invalid => 0
  | .valid => 1
  | .unsupported => 2

inductive Answer
  | cached
  | verdict (result : UInt64)
  deriving DecidableEq

/-! ## The memoising validator -/

structure Memo (δ : Type) where
  digests : List δ
  daemon : Daemon

section
variable {δ : Type} [DecidableEq δ] (t : Analyzer.Tables) (fuel : Nat) (hashLbr : Lbr → δ)

def Memo.serve (m : Memo δ) (lbr : Lbr) : Option (Answer × Memo δ) :=
  if hashLbr lbr ∈ sinceWrap m.digests then some (.cached, m)
  else match jitValidateLbr t fuel m.daemon lbr with
    | .ok (v, daemon) => some (.verdict v.code, { digests := m.digests ++ [hashLbr lbr], daemon })
    | .error _ => none

def memoised : System (Memo δ) (Lbr × Answer) where
  step m request := (m.serve t fuel hashLbr request.1).bind fun served =>
    if served.1 = request.2 then some served.2 else none

/-! ## Kernel module and daemon -/

/-- `history` is not in the sources: the requests in the order in which they were answered. -/
structure Service (δ : Type) where
  kernel : Validation δ
  daemon : Daemon
  history : List (Lbr × Answer)

namespace Service

/-- The daemon reports what it found; it answers nothing once it has stopped on an error. -/
def analyze (s : Service δ) : Event → Option Daemon
  | .putResult result =>
      match s.kernel.analyzer with
      | .analyzing _ lbr =>
          match jitValidateLbr t fuel s.daemon lbr with
          | .ok (v, daemon) => if result = v.code then some daemon else none
          | .error _ => none
      | _ => none
  | _ => some s.daemon

def completed (s : Service δ) : Event → List (Lbr × Answer)
  | .lookup i =>
      if s.kernel.inCache (hashLbr (s.kernel.call i).lbr) then [((s.kernel.call i).lbr, .cached)]
      else []
  | .readResult i => [((s.kernel.call i).lbr, .verdict s.kernel.jitResult)]
  | _ => []

def init (daemon : Daemon) (lbr : Lbr) : Service δ :=
  { kernel := Validation.init lbr, daemon, history := [] }

end Service

def service : System (Service δ) Event where
  step s e := ((validation hashLbr).step s.kernel e).bind fun kernel =>
    (s.analyze t fuel e).map fun daemon =>
      { kernel, daemon, history := s.history ++ s.completed hashLbr e }

end

/-! ## Where the daemon is ahead -/

namespace Service
variable {δ : Type}

section
variable (t : Analyzer.Tables) (fuel : Nat) (hashLbr : Lbr → δ)

/-- The daemon has answered this request, and nothing since. -/
def Ahead (s : Service δ) (m : Memo δ) (lbr : Lbr) : Prop :=
  ∃ v, jitValidateLbr t fuel m.daemon lbr = .ok (v, s.daemon) ∧ s.kernel.jitResult = v.code

def AnswerOut (s : Service δ) : Prop := s.kernel.analyzer = .answered ∨ 0 < s.kernel.jitResultCond

def Awaits (s : Service δ) (m : Memo δ) (c : Call) : Prop :=
  match c.phase with
  | .locked => s.daemon = m.daemon
  | .missed | .published => hashLbr c.lbr ∉ sinceWrap m.digests ∧ s.daemon = m.daemon
  | .waiting => hashLbr c.lbr ∉ sinceWrap m.digests ∧
      (s.AnswerOut → s.Ahead t fuel m c.lbr) ∧ (¬ s.AnswerOut → s.daemon = m.daemon)
  | .resumed => hashLbr c.lbr ∉ sinceWrap m.digests ∧ s.Ahead t fuel m c.lbr
  | _ => True

/-- Once a request was given up, the daemon may be ahead for good; nothing is asked of it then. -/
structure Tracks (s : Service δ) (m : Memo δ) : Prop where
  free : s.kernel.validationLock = none → s.kernel.disableJit = false → s.daemon = m.daemon
  held : ∀ i, s.kernel.validationLock = some i → s.kernel.disableJit = false →
    s.Awaits t fuel hashLbr m (s.kernel.call i)

end

variable {t : Analyzer.Tables} {fuel : Nat} {hashLbr : Lbr → δ} {s s' : Service δ} {m : Memo δ}
  {i : Nat}
  {c : Call}

theorem Awaits.of_channel (awaits : s.Awaits t fuel hashLbr m c)
    (channel : s'.kernel.toChannel = s.kernel.toChannel) (daemon : s'.daemon = s.daemon) :
    s'.Awaits t fuel hashLbr m c := by
  unfold Awaits AnswerOut Ahead at awaits ⊢
  rw [channel, daemon]
  exact awaits

namespace Tracks
variable (tracks : s.Tracks t fuel hashLbr m)
include tracks

theorem outside (orderly : s.kernel.Orderly) (before : (s.kernel.call i).phase.holdsLock = false)
    (call : s'.kernel.call = Function.update s.kernel.call i c)
    (lock : s'.kernel.validationLock = s.kernel.validationLock)
    (channel : s'.kernel.toChannel = s.kernel.toChannel) (daemon : s'.daemon = s.daemon) :
    s'.Tracks t fuel hashLbr m := by
  constructor
  · rw [lock, channel, daemon]
    exact tracks.free
  · intro j holder enabled
    rw [lock] at holder
    rw [channel] at enabled
    have differs : j ≠ i := by
      rintro rfl
      have holds := (orderly.held j holder).holdsLock
      rw [before] at holds
      cases holds
    rw [call, Function.update_of_ne differs]
    exact (tracks.held j holder enabled).of_channel channel daemon

theorem advance (orderly : s.kernel.Orderly) (holds : (s.kernel.call i).phase.holdsLock)
    (call : s'.kernel.call = Function.update s.kernel.call i c)
    (lock : s'.kernel.validationLock = s.kernel.validationLock)
    (disabled : s'.kernel.disableJit = s.kernel.disableJit)
    (awaits : s.kernel.disableJit = false → s.Awaits t fuel hashLbr m (s.kernel.call i) →
      s'.Awaits t fuel hashLbr m c) : s'.Tracks t fuel hashLbr m := by
  have own := orderly.exclusive i holds
  rw [own] at lock
  constructor
  · intro free
    rw [lock] at free
    cases free
  · intro j holder enabled
    obtain rfl : i = j := Option.some.inj (lock.symm.trans holder)
    rw [disabled] at enabled
    rw [call, Function.update_self]
    exact awaits enabled (tracks.held i own enabled)

end Tracks

/-! ## Steps -/

theorem not_answerOut_of_quiet (quiet : s.kernel.Quiet) : ¬ s.AnswerOut := by
  obtain ⟨-, result, analyzer⟩ := quiet
  unfold AnswerOut
  rw [result, analyzer]
  simp

theorem stepAnalyzer_inv {k k' : Validation δ} {e : Event} (step : k.stepAnalyzer e = some k') :
    (e = .downWork ∧ k.analyzer = .idle ∧ 0 < k.jitWorkCond ∧
      k' = { k with analyzer := .taken, jitWorkCond := k.jitWorkCond - 1 }) ∨
    (∃ stale j lbr, e = .copyWork stale ∧ k.analyzer = .taken ∧
      k' = { k with analyzer := .analyzing j lbr }) ∨
    (∃ result j lbr, e = .putResult result ∧ k.analyzer = .analyzing j lbr ∧
      k' = { k with analyzer := .answered, jitResult := result, answer := some (j, lbr, result) }) ∨
    (e = .upResult ∧ k.analyzer = .answered ∧
      k' = { k with analyzer := .idle, jitResultCond := k.jitResultCond + 1 }) := by
  cases e with
  | downWork =>
      cases analyzer : k.analyzer <;>
        simp only [Validation.stepAnalyzer, analyzer, reduceCtorEq] at step
      case idle =>
        simp only [Option.ite_none_right_eq_some, Option.some.injEq] at step
        exact .inl ⟨rfl, rfl, step.1, step.2.symm⟩
  | copyWork stale =>
      cases analyzer : k.analyzer <;> cases pointer : k.jitWork <;>
        simp only [Validation.stepAnalyzer, analyzer, pointer, reduceCtorEq, Option.some.injEq] at step
      case taken.some j => exact .inr (.inl ⟨stale, j, _, rfl, rfl, step.symm⟩)
  | putResult result =>
      cases analyzer : k.analyzer <;>
        simp only [Validation.stepAnalyzer, analyzer, reduceCtorEq, Option.some.injEq] at step
      case analyzing j lbr => exact .inr (.inr (.inl ⟨result, j, lbr, rfl, rfl, step.symm⟩))
  | upResult =>
      cases analyzer : k.analyzer <;>
        simp only [Validation.stepAnalyzer, analyzer, reduceCtorEq, Option.some.injEq] at step
      case answered => exact .inr (.inr (.inr ⟨rfl, rfl, step.symm⟩))
  | _ => simp [Validation.stepAnalyzer] at step

theorem stepAnalyzer_busy {k k' : Validation δ} {e : Event} (step : k.stepAnalyzer e = some k') :
    ¬ k.Quiet := by
  rintro ⟨work, -, analyzer⟩
  rcases stepAnalyzer_inv step with ⟨-, -, up, -⟩ | ⟨_, _, _, -, at', -⟩ | ⟨_, _, _, -, at', -⟩ |
    ⟨-, at', -⟩
  · omega
  all_goals
    rw [analyzer] at at'
    cases at'

theorem analyze_putResult {result : UInt64} {j : Nat} {lbr : Lbr} {daemon : Daemon}
    (analyzing : s.kernel.analyzer = .analyzing j lbr)
    (analyzed : s.analyze t fuel (.putResult result) = some daemon) :
    ∃ v, jitValidateLbr t fuel s.daemon lbr = .ok (v, daemon) ∧ result = v.code := by
  simp only [analyze, analyzing] at analyzed
  cases validated : jitValidateLbr t fuel s.daemon lbr with
  | error h => simp [validated] at analyzed
  | ok found =>
      simp only [validated, Option.ite_none_right_eq_some, Option.some.injEq] at analyzed
      obtain ⟨code, rfl⟩ := analyzed
      exact ⟨found.1, rfl, code⟩

/-- While a request is waited for, the daemon gets ahead with `PUT_JIT_WORK` and at no other step. -/
theorem stepAnalyzer_waiting {e : Event} {lbr : Lbr} (flight : s.kernel.InFlight i lbr)
    (step : s.kernel.stepAnalyzer e = some s'.kernel)
    (analyzed : s.analyze t fuel e = some s'.daemon)
    (ahead : s.AnswerOut → s.Ahead t fuel m lbr) (level : ¬ s.AnswerOut → s.daemon = m.daemon) :
    (s'.AnswerOut → s'.Ahead t fuel m lbr) ∧ (¬ s'.AnswerOut → s'.daemon = m.daemon) := by
  obtain ⟨kernel, daemon, history⟩ := s'
  dsimp only at step analyzed ⊢
  rcases stepAnalyzer_inv step with ⟨rfl, idle, up, rfl⟩ | ⟨_, _, _, rfl, taken, rfl⟩ |
    ⟨result, j, own, rfl, analyzing, rfl⟩ | ⟨rfl, answered, rfl⟩
  · obtain rfl := Option.some.inj analyzed
    have silent : s.kernel.jitResultCond = 0 := by
      cases flight with
      | requested _ result | taken _ result | analyzing _ result | answered _ result => exact result
      | ready work => omega
    simp only [AnswerOut, idle, silent, reduceCtorEq, lt_irrefl, or_self, not_false_eq_true,
      forall_const] at level ⊢
    exact ⟨False.elim, level⟩
  · obtain rfl := Option.some.inj analyzed
    have silent : s.kernel.jitResultCond = 0 := by
      cases flight with
      | taken _ result => exact result
      | requested _ _ at' | analyzing _ _ at' | answered _ _ at' | ready _ _ at' =>
          rw [taken] at at'
          cases at'
    simp only [AnswerOut, taken, silent, reduceCtorEq, lt_irrefl, or_self, not_false_eq_true,
      forall_const] at level ⊢
    exact ⟨False.elim, level⟩
  · obtain ⟨v, validated, rfl⟩ := analyze_putResult analyzing analyzed
    cases flight with
    | analyzing work silent at' =>
        rw [analyzing] at at'
        obtain ⟨rfl, rfl⟩ := Analyzer.analyzing.inj at'
        have before : s.daemon = m.daemon := by
          apply level
          simp [AnswerOut, analyzing, silent]
        rw [before] at validated
        exact ⟨fun _ => ⟨v, validated, rfl⟩, fun silent => absurd (.inl rfl) silent⟩
    | requested _ _ at' | taken _ _ at' | answered _ _ at' | ready _ _ at' =>
        rw [analyzing] at at'
        cases at'
  · obtain rfl := Option.some.inj analyzed
    exact ⟨fun _ => ahead (.inl answered), fun silent => absurd (.inr (Nat.succ_pos _)) silent⟩

theorem stepAnalyzer_tracks {e : Event} (orderly : s.kernel.Orderly)
    (tracks : s.Tracks t fuel hashLbr m) (step : s.kernel.stepAnalyzer e = some s'.kernel)
    (analyzed : s.analyze t fuel e = some s'.daemon) : s'.Tracks t fuel hashLbr m := by
  have busy := stepAnalyzer_busy step
  have same : s'.kernel.call = s.kernel.call ∧ s'.kernel.validationLock = s.kernel.validationLock ∧
      s'.kernel.disableJit = s.kernel.disableJit := by
    rcases stepAnalyzer_inv step with ⟨-, -, -, next⟩ | ⟨_, _, _, -, -, next⟩ |
      ⟨_, _, _, -, -, next⟩ | ⟨-, -, next⟩ <;> rw [next] <;> exact ⟨rfl, rfl, rfl⟩
  obtain ⟨call, lock, disabled⟩ := same
  constructor
  · rw [lock, disabled]
    exact fun free enabled => absurd ((orderly.free free).1 enabled) busy
  · rw [lock, disabled, call]
    intro i holder enabled
    have holding := orderly.held i holder
    have awaits := tracks.held i holder enabled
    unfold Channel.Holding at holding
    unfold Awaits at awaits ⊢
    cases phase : (s.kernel.call i).phase <;> simp only [phase] at holding awaits ⊢
    case locked | missed => exact absurd (holding.1 enabled) busy
    case published | resumed => exact absurd holding.1 busy
    case waiting =>
      exact ⟨awaits.1, stepAnalyzer_waiting holding.1 step analyzed awaits.2.1 awaits.2.2⟩

section
variable [DecidableEq δ]

theorem stepCall_tracks {e : Event} (orderly : s.kernel.Orderly)
    (remembers : s.kernel.Remembers m.digests) (tracks : s.Tracks t fuel hashLbr m)
    (unread : ∀ i, e ≠ .readResult i)
    (step : s.kernel.stepCall hashLbr e = some s'.kernel) (daemon : s'.daemon = s.daemon) :
    s'.Tracks t fuel hashLbr m := by
  obtain ⟨kernel, daemon', history⟩ := s'
  obtain rfl : daemon' = s.daemon := daemon
  dsimp only at step
  cases e with
  | capture i lbr =>
      simp only [Validation.stepCall, Option.ite_none_right_eq_some, Option.some.injEq] at step
      obtain ⟨phase, rfl⟩ := step
      exact tracks.outside orderly (by rw [phase]; rfl) rfl rfl rfl rfl
  | test i =>
      simp only [Validation.stepCall, Option.ite_none_right_eq_some, Option.some.injEq] at step
      obtain ⟨phase, rfl⟩ := step
      exact tracks.outside orderly (by rw [phase]; rfl) rfl rfl rfl rfl
  | lock i =>
      simp only [Validation.stepCall, Option.ite_none_right_eq_some, Option.some.injEq] at step
      obtain ⟨⟨-, free⟩, rfl⟩ := step
      constructor
      · intro locked
        cases locked
      · intro j holder enabled
        obtain rfl : i = j := Option.some.inj holder
        simp only [Validation.setPhase, Function.update_self]
        exact tracks.free free enabled
  | lookup i =>
      simp only [Validation.stepCall, Option.ite_none_right_eq_some] at step
      obtain ⟨phase, step⟩ := step
      have own := orderly.exclusive i (by rw [phase]; rfl)
      have unchanged (enabled : s.kernel.disableJit = false) : s.daemon = m.daemon := by
        have awaits := tracks.held i own enabled
        simpa only [Awaits, phase] using awaits
      split_ifs at step with hit
      · obtain rfl := Option.some.inj step
        constructor
        · exact fun _ => unchanged
        · intro j holder
          cases holder
      · obtain rfl := Option.some.inj step
        have fresh : hashLbr (s.kernel.call i).lbr ∉ sinceWrap m.digests := by
          rwa [← remembers.inCache_iff]
        refine tracks.advance orderly (by rw [phase]; rfl) rfl rfl rfl ?_
        exact fun enabled _ => ⟨fresh, unchanged enabled⟩
  | publish i =>
      simp only [Validation.stepCall, Option.ite_none_right_eq_some, Option.some.injEq] at step
      obtain ⟨phase, rfl⟩ := step
      refine tracks.advance orderly (by rw [phase]; rfl) rfl rfl rfl fun _ awaits => ?_
      simpa only [Awaits, phase] using awaits
  | upWork i =>
      simp only [Validation.stepCall, Option.ite_none_right_eq_some, Option.some.injEq] at step
      obtain ⟨phase, rfl⟩ := step
      have held := orderly.holding phase rfl
      simp only [Channel.Holding, phase] at held
      have silent := not_answerOut_of_quiet (s := s) held.1
      refine tracks.advance orderly (by rw [phase]; rfl) rfl rfl rfl fun _ awaits => ?_
      simp only [Awaits, phase] at awaits
      exact ⟨awaits.1, fun out => absurd out silent, fun _ => awaits.2⟩
  | downResult i =>
      simp only [Validation.stepCall, Option.ite_none_right_eq_some, Option.some.injEq] at step
      obtain ⟨⟨phase, up⟩, rfl⟩ := step
      refine tracks.advance orderly (by rw [phase]; rfl) rfl rfl rfl fun _ awaits => ?_
      simp only [Awaits, phase] at awaits
      exact ⟨awaits.1, awaits.2.1 (.inr up)⟩
  | timeout i =>
      simp only [Validation.stepCall, Option.ite_none_right_eq_some, Option.some.injEq] at step
      obtain ⟨⟨phase, -⟩, rfl⟩ := step
      exact tracks.advance orderly (by rw [phase]; rfl) rfl rfl rfl fun _ _ => trivial
  | disable i =>
      simp only [Validation.stepCall, Option.ite_none_right_eq_some, Option.some.injEq] at step
      obtain ⟨-, rfl⟩ := step
      constructor
      · intro _ enabled
        cases enabled
      · intro j holder
        cases holder
  | readResult i => exact absurd rfl (unread i)
  | _ => simp [Validation.stepCall] at step

/-- The analyzer's answer is read, and with it the digest is stored. -/
theorem readResult_tracks {kernel : Validation δ} {daemon : Daemon} {history : List (Lbr × Answer)}
    (orderly : s.kernel.Orderly) (tracks : s.Tracks t fuel hashLbr m)
    (step : s.kernel.stepCall hashLbr (.readResult i) = some kernel)
    (unchanged : daemon = s.daemon) :
    ∃ m', m.serve t fuel hashLbr (s.kernel.call i).lbr = some (.verdict s.kernel.jitResult, m') ∧
      m'.digests = m.digests ++ s.kernel.stored hashLbr (.readResult i) ∧
      Tracks t fuel hashLbr { kernel, daemon, history } m' := by
  subst unchanged
  simp only [Validation.stepCall, Option.ite_none_right_eq_some, Option.some.injEq] at step
  obtain ⟨phase, rfl⟩ := step
  have held := orderly.holding phase rfl
  simp only [Channel.Holding, phase] at held
  have awaits := tracks.held i (orderly.exclusive i (by rw [phase]; rfl)) held.2.2
  simp only [Awaits, phase] at awaits
  obtain ⟨fresh, v, validated, result⟩ := awaits
  refine ⟨{ digests := m.digests ++ [hashLbr (s.kernel.call i).lbr], daemon := s.daemon }, ?_, ?_, ?_⟩
  · rw [Memo.serve, if_neg fresh, validated, result]
  · have known : s.kernel.jitResult = 0 ∨ s.kernel.jitResult = 2 ∨ s.kernel.jitResult = 1 := by
      rw [result]
      cases v <;> decide
    simp only [Validation.stored, if_pos known]
  · constructor
    · exact fun _ _ => rfl
    · intro j holder
      cases holder

theorem step_tracks {e : Event} (orderly : s.kernel.Orderly)
    (remembers : s.kernel.Remembers m.digests) (tracks : s.Tracks t fuel hashLbr m)
    (step : (service t fuel hashLbr).step s e = some s') :
    ∃ m', (memoised t fuel hashLbr).exec m (s.completed hashLbr e) = some m' ∧
      m'.digests = m.digests ++ s.kernel.stored hashLbr e ∧ s'.Tracks t fuel hashLbr m' := by
  obtain ⟨kernel, kernelStep, answered⟩ := Option.bind_eq_some_iff.mp step
  obtain ⟨daemon, analyzed, rfl⟩ := Option.map_eq_some_iff.mp answered
  rcases (Option.orElse_eq_some _ _ _).mp kernelStep with callStep | ⟨-, analyzerStep⟩
  · have unchanged : daemon = s.daemon := by
      cases e with
      | putResult result => simp [Validation.stepCall] at callStep
      | _ => exact (Option.some.inj analyzed).symm
    have other (unread : ∀ i, e ≠ .readResult i) :
        Tracks t fuel hashLbr ⟨kernel, daemon, s.history ++ s.completed hashLbr e⟩ m :=
      stepCall_tracks orderly remembers tracks unread callStep unchanged
    cases e with
    | readResult i =>
        obtain ⟨m', served, digests, tracks'⟩ := readResult_tracks orderly tracks callStep unchanged
        refine ⟨m', ?_, digests, tracks'⟩
        simp [completed, System.exec, memoised, served]
    | lookup i =>
        refine ⟨m, ?_, (List.append_nil _).symm, other (by simp)⟩
        simp only [completed]
        split_ifs with hit
        · rw [remembers.inCache_iff] at hit
          simp [System.exec, memoised, Memo.serve, hit]
        · rfl
    | _ => exact ⟨m, rfl, (List.append_nil _).symm, other (by simp)⟩
  · have tracks' : Tracks t fuel hashLbr ⟨kernel, daemon, s.history ++ s.completed hashLbr e⟩ m :=
      stepAnalyzer_tracks orderly tracks analyzerStep analyzed
    rcases stepAnalyzer_inv analyzerStep with ⟨rfl, -⟩ | ⟨_, _, _, rfl, -⟩ | ⟨_, _, _, rfl, -⟩ |
      ⟨rfl, -⟩ <;> exact ⟨m, rfl, (List.append_nil _).symm, tracks'⟩

theorem run_tracks {daemon : Daemon} {lbr : Lbr} {events : List Event}
    (run : (service t fuel hashLbr).Run (fun s e => s.kernel.InTime e) (init daemon lbr) events s) :
    ∃ m, (memoised t fuel hashLbr).exec { digests := [], daemon } s.history = some m ∧
      s.Tracks t fuel hashLbr m := by
  have follows : s.kernel.Orderly ∧
      ∃ m, (memoised t fuel hashLbr).exec { digests := [], daemon } s.history = some m ∧
        s.kernel.Remembers m.digests ∧ s.Tracks t fuel hashLbr m := by
    refine run.invariant (P := fun s => s.kernel.Orderly ∧
      ∃ m, (memoised t fuel hashLbr).exec { digests := [], daemon } s.history = some m ∧
        s.kernel.Remembers m.digests ∧ s.Tracks t fuel hashLbr m) ?_ ?_
    · intro s e s' before inTime step
      obtain ⟨orderly, m, executed, remembers, tracks⟩ := before
      obtain ⟨m', served, digests, tracks'⟩ := step_tracks orderly remembers tracks step
      obtain ⟨kernel, kernelStep, answered⟩ := Option.bind_eq_some_iff.mp step
      obtain ⟨daemon', analyzed, rfl⟩ := Option.map_eq_some_iff.mp answered
      refine ⟨Validation.step_orderly orderly inTime kernelStep, m', ?_, ?_, tracks'⟩
      · rw [System.exec_append, executed, Option.bind_some, served]
      · rw [digests]
        exact remembers.step kernelStep
    · refine ⟨Validation.init_orderly lbr, _, rfl, ?_, ?_, ?_⟩
      · simp [Validation.Remembers, sinceWrap, init, Validation.init]
      · exact fun _ _ => rfl
      · intro i holder
        cases holder
  obtain ⟨-, m, executed, -, tracks⟩ := follows
  exact ⟨m, executed, tracks⟩

/-- In the order in which the calls are answered, the answers are those of a validator that works
alone: requests are neither lost nor mixed up, and the daemon's graph never depends on how the
calls interleave. -/
theorem history_is_sequential {daemon : Daemon} {lbr : Lbr} {events : List Event}
    (run : (service t fuel hashLbr).Run (fun s e => s.kernel.InTime e) (init daemon lbr) events s) :
    ∃ m, (memoised t fuel hashLbr).exec { digests := [], daemon } s.history = some m ∧
      (s.kernel.validationLock = none → s.kernel.disableJit = false → s.daemon = m.daemon) := by
  obtain ⟨m, executed, tracks⟩ := run_tracks run
  exact ⟨m, executed, tracks.free⟩

/-- One call that asks the analyzer, then one with the same LBR. -/
def askedTwice (lbr : Lbr) : List Event :=
  Validation.asked 0 lbr ++ Validation.begun 1 lbr ++ [.lookup 1]

theorem askedTwice_runs :
    ∃ s : Service (List UInt8), (service bareTables 0 hashLbrStream).Run
        (fun s e => s.kernel.InTime e) (init { cfg := callProgram } callLbr) (askedTwice callLbr) s ∧
      s.history = [(callLbr, .verdict 1), (callLbr, .cached)] := by
  obtain ⟨d', validated⟩ := callProgram_valid
  have put (k : Validation (List UInt8)) (history : List (Lbr × Answer))
      (analyzing : k.analyzer = .analyzing 0 callLbr) :
      (service bareTables 0 hashLbrStream).step ⟨k, { cfg := callProgram }, history⟩ (.putResult 1) =
        some ⟨{ k with analyzer := .answered, jitResult := 1, answer := some (0, callLbr, 1) },
          d', history⟩ := by
    simp [service, validation, Validation.stepCall, Validation.stepAnalyzer, analyze, completed,
      analyzing, validated, Verdict.code]
  have hit (k : Validation (List UInt8)) (d : Daemon) (history : List (Lbr × Answer))
      (call : k.call 1 = { phase := .locked, lbr := callLbr }) (count : k.cacheHashes = 1)
      (stored : k.cacheHash 0 = some (hashLbrStream callLbr)) :
      (service bareTables 0 hashLbrStream).step ⟨k, d, history⟩ (.lookup 1) =
        some ⟨{ k.setPhase 1 .returned with validationLock := none }, d,
          history ++ [(callLbr, .cached)]⟩ := by
    simp [service, validation, Validation.stepCall, analyze, completed, Validation.inCache, call,
      count, stored]
  exact ⟨_, .cons trivial rfl (.cons trivial rfl (.cons trivial rfl (.cons trivial rfl
    (.cons rfl rfl (.cons trivial rfl (.cons trivial rfl (.cons trivial rfl
    (.cons trivial (put _ _ rfl) (.cons trivial rfl (.cons trivial rfl (.cons trivial rfl
    (.cons trivial rfl (.cons trivial rfl (.cons trivial rfl (.cons trivial (hit _ _ _ rfl rfl rfl)
    (.nil _)))))))))))))))), rfl⟩

theorem history_is_sequential_askedTwice :
    ∃ s : Service (List UInt8), (service bareTables 0 hashLbrStream).Run
        (fun s e => s.kernel.InTime e) (init { cfg := callProgram } callLbr) (askedTwice callLbr) s ∧
      s.history = [(callLbr, .verdict 1), (callLbr, .cached)] ∧
      ∃ m, (memoised bareTables 0 hashLbrStream).exec { digests := [], daemon := { cfg := callProgram } }
        s.history = some m := by
  obtain ⟨s, run, history⟩ := askedTwice_runs
  obtain ⟨m, executed, -⟩ := history_is_sequential run
  exact ⟨s, run, history, m, executed⟩

/-! ## Each answer -/

/-- The requests that reached the analyzer. -/
def analyzed (history : List (Lbr × Answer)) : List Lbr :=
  (history.filter fun entry => entry.2 != .cached).map (·.1)

theorem analyzed_concat (history : List (Lbr × Answer)) (lbr : Lbr) (answer : Answer) :
    analyzed (history ++ [(lbr, answer)]) =
      if answer = .cached then analyzed history else analyzed history ++ [lbr] := by
  cases answer with
  | cached => simp [analyzed]
  | verdict result => simp [analyzed]

theorem Memo.serve_cases {m m' : Memo δ} {lbr : Lbr} {answer : Answer}
    (served : m.serve t fuel hashLbr lbr = some (answer, m')) :
    (hashLbr lbr ∈ sinceWrap m.digests ∧ answer = .cached ∧ m' = m) ∨
      (hashLbr lbr ∉ sinceWrap m.digests ∧ ∃ v daemon,
        jitValidateLbr t fuel m.daemon lbr = .ok (v, daemon) ∧ answer = .verdict v.code ∧
          m' = { digests := m.digests ++ [hashLbr lbr], daemon }) := by
  unfold Memo.serve at served
  split_ifs at served with known
  · cases served
    exact .inl ⟨known, rfl, rfl⟩
  · cases validated : jitValidateLbr t fuel m.daemon lbr with
    | error h => simp [validated] at served
    | ok found =>
        simp only [validated, Option.some.injEq, Prod.mk.injEq] at served
        obtain ⟨rfl, rfl⟩ := served
        exact .inr ⟨known, found.1, found.2, rfl, rfl, rfl⟩

theorem memoised_step {m m' : Memo δ} {lbr : Lbr} {answer : Answer}
    (step : (memoised t fuel hashLbr).step m (lbr, answer) = some m') :
    m.serve t fuel hashLbr lbr = some (answer, m') := by
  obtain ⟨served, found, matched⟩ := Option.bind_eq_some_iff.mp step
  simp only [Option.ite_none_right_eq_some, Option.some.injEq] at matched
  rw [found, ← matched.1, ← matched.2]

theorem memoised_state {daemon : Daemon} {history : List (Lbr × Answer)} {m : Memo δ}
    (executed : (memoised t fuel hashLbr).exec { digests := [], daemon } history = some m) :
    m.digests = (analyzed history).map hashLbr ∧
      jitValidateAll t fuel (analyzed history) daemon = .ok m.daemon := by
  induction history using List.reverseRecOn generalizing m with
  | nil =>
      cases executed
      exact ⟨rfl, rfl⟩
  | append_singleton history entry ih =>
      obtain ⟨lbr, answer⟩ := entry
      rw [System.exec_concat] at executed
      obtain ⟨m₁, before, step⟩ := Option.bind_eq_some_iff.mp executed
      obtain ⟨digests, state⟩ := ih before
      rw [analyzed_concat]
      rcases Memo.serve_cases (memoised_step step) with ⟨-, rfl, rfl⟩ |
        ⟨-, v, daemon', validated, rfl, rfl⟩
      · exact ⟨digests, state⟩
      · rw [if_neg (by simp), List.map_append, ← digests]
        exact ⟨rfl, jitValidateAll_concat state validated⟩

/-- Every call is answered from the cache exactly if its digest is among those stored since the
counter was last zero. Otherwise the answer is the verdict that the daemon would reach after the
requests analyzed before, one after the other. -/
theorem answer_of_analyzed {daemon : Daemon} {lbr₀ : Lbr} {events : List Event}
    (run : (service t fuel hashLbr).Run (fun s e => s.kernel.InTime e) (init daemon lbr₀) events s)
    {before after : List (Lbr × Answer)} {lbr : Lbr} {answer : Answer}
    (occurs : s.history = before ++ (lbr, answer) :: after) :
    if hashLbr lbr ∈ sinceWrap ((analyzed before).map hashLbr) then answer = .cached
    else ∃ v, verdictAfter t fuel (analyzed before) daemon lbr = some v ∧
      answer = .verdict v.code := by
  obtain ⟨m, executed, -⟩ := run_tracks run
  rw [occurs, System.exec_append] at executed
  obtain ⟨m₁, first, rest⟩ := Option.bind_eq_some_iff.mp executed
  obtain ⟨m₂, step, -⟩ := Option.bind_eq_some_iff.mp rest
  obtain ⟨digests, state⟩ := memoised_state first
  rw [← digests]
  rcases Memo.serve_cases (memoised_step step) with ⟨known, cached, -⟩ |
    ⟨unknown, v, daemon', validated, verdict, -⟩
  · rwa [if_pos known]
  · rw [if_neg unknown]
    refine ⟨v, ?_, verdict⟩
    simp [verdictAfter, state, validated, Except.toOption]

theorem answer_of_analyzed_askedTwice :
    ∃ s : Service (List UInt8), (service bareTables 0 hashLbrStream).Run
        (fun s e => s.kernel.InTime e) (init { cfg := callProgram } callLbr) (askedTwice callLbr) s ∧
      s.history = [(callLbr, .verdict 1), (callLbr, .cached)] ∧
      verdictAfter bareTables 0 [] { cfg := callProgram } callLbr = some .valid := by
  obtain ⟨s, run, history⟩ := askedTwice_runs
  refine ⟨s, run, history, ?_⟩
  have occurs : s.history = [] ++ (callLbr, .verdict 1) :: [(callLbr, .cached)] := history
  have first := answer_of_analyzed run occurs
  rw [if_neg (by simp [analyzed, sinceWrap])] at first
  obtain ⟨v, verdict, code⟩ := first
  obtain rfl : v = .valid := by
    cases v <;> simp [Verdict.code] at code ⊢
  exact verdict

end

end Service

end PathArmor

import Mathlib.Data.List.Induction

namespace PathArmor.Library

/-- A state machine driven by events. An event that cannot happen in a state has no step. -/
structure System (σ ε : Type*) where
  step : σ → ε → Option σ

namespace System
variable {σ ε : Type*} (S : System σ ε)

def exec (s : σ) : List ε → Option σ
  | [] => some s
  | e :: events => (S.step s e).bind fun s => exec s events

theorem exec_append (s : σ) (u v : List ε) :
    S.exec s (u ++ v) = (S.exec s u).bind fun s => S.exec s v := by
  induction u generalizing s with
  | nil => rfl
  | cons e u ih => simp only [List.cons_append, exec, ih, Option.bind_assoc]

theorem exec_concat (s : σ) (events : List ε) (e : ε) :
    S.exec s (events ++ [e]) = (S.exec s events).bind fun s => S.step s e := by
  rw [exec_append]
  congr 1
  funext s
  rw [exec]
  cases S.step s e <;> rfl

/-- If the allowed steps are the ones that keep `P`, then `P` holds throughout a run if and only if
all its steps are allowed. -/
theorem exec_invariant_iff {P : σ → Prop} {allowed : σ → ε → Prop}
    (precise : ∀ s e s', P s → S.step s e = some s' → (P s' ↔ allowed s e))
    (stuck : ∀ s e, S.step s e = none → allowed s e) {s : σ} (start : P s) (events : List ε) :
    (∀ done s', done <+: events → S.exec s done = some s' → P s') ↔
      ∀ done e s', done ++ [e] <+: events → S.exec s done = some s' → allowed s' e := by
  constructor
  · intro holds done e s' isPrefix executed
    cases stepped : S.step s' e with
    | none => exact stuck s' e stepped
    | some s'' =>
        have before : P s' := holds done s' ((List.prefix_append _ _).trans isPrefix) executed
        refine (precise s' e s'' before stepped).mp (holds _ s'' isPrefix ?_)
        rw [exec_concat, executed, Option.bind_some, stepped]
  · intro guarded done
    -- The last step of `done` is allowed in the state that the steps before it lead to.
    induction done using List.reverseRecOn with
    | nil =>
        intro s' _ executed
        obtain rfl := Option.some.inj executed
        exact start
    | append_singleton done e ih =>
        intro s' isPrefix executed
        rw [exec_concat] at executed
        obtain ⟨s₁, executed, stepped⟩ := Option.bind_eq_some_iff.mp executed
        have before : P s₁ := ih s₁ ((List.prefix_append _ _).trans isPrefix) executed
        exact (precise s₁ e s' before stepped).mpr (guarded done e s₁ isPrefix executed)

/-- The runs all of whose steps are allowed in the state they start from. -/
inductive Run (allowed : σ → ε → Prop) : σ → List ε → σ → Prop
  | nil (s : σ) : Run allowed s [] s
  | cons {s s₁ s' : σ} {e : ε} {events : List ε} (guard : allowed s e)
      (step : S.step s e = some s₁) (rest : Run allowed s₁ events s') :
      Run allowed s (e :: events) s'

variable {S}

theorem Run.of_exec {allowed : σ → ε → Prop} {s s' : σ} {events : List ε}
    (guard : ∀ e ∈ events, ∀ s, allowed s e) (executed : S.exec s events = some s') :
    S.Run allowed s events s' := by
  induction events generalizing s with
  | nil =>
      obtain rfl : s = s' := Option.some.inj executed
      exact .nil s
  | cons e events ih =>
      obtain ⟨s₁, step, rest⟩ := Option.bind_eq_some_iff.mp executed
      exact .cons (guard e (by simp) s) step (ih (fun e later => guard e (by simp [later])) rest)

theorem Run.split {allowed : σ → ε → Prop} {s s' : σ} {u v : List ε}
    (run : S.Run allowed s (u ++ v) s') : ∃ s₁, S.Run allowed s u s₁ ∧ S.Run allowed s₁ v s' := by
  induction u generalizing s with
  | nil => exact ⟨s, .nil s, run⟩
  | cons e u ih =>
      cases run with
      | cons guard step rest =>
          obtain ⟨s₁, first, second⟩ := ih rest
          exact ⟨s₁, .cons guard step first, second⟩

theorem Run.invariant {allowed : σ → ε → Prop} {P : σ → Prop}
    (keeps : ∀ s e s', P s → allowed s e → S.step s e = some s' → P s')
    {s s' : σ} {events : List ε} (run : S.Run allowed s events s') (start : P s) : P s' := by
  induction run with
  | nil => exact start
  | cons guard step _ ih => exact ih (keeps _ _ _ start guard step)

/-- An invariant that also speaks about the events so far. -/
theorem Run.history {allowed : σ → ε → Prop} {P : List ε → σ → Prop} (past : List ε)
    (keeps : ∀ past s e s', P past s → allowed s e → S.step s e = some s' → P (past ++ [e]) s')
    {s s' : σ} {events : List ε} (run : S.Run allowed s events s') (start : P past s) :
    P (past ++ events) s' := by
  induction run generalizing past with
  | nil => rwa [List.append_nil]
  | cons guard step _ ih =>
      rw [List.append_cons]
      exact ih _ (keeps _ _ _ _ start guard step)

theorem Run.simulation {τ : Type*} {T : System τ ε} {allowed : σ → ε → Prop} {R : σ → τ → Prop}
    (follows : ∀ s t e s', R s t → allowed s e → S.step s e = some s' →
      ∃ t', T.step t e = some t' ∧ R s' t')
    {s s' : σ} {events : List ε} (run : S.Run allowed s events s') {t : τ} (start : R s t) :
    ∃ t', T.exec t events = some t' ∧ R s' t' := by
  induction run generalizing t with
  | nil => exact ⟨t, rfl, start⟩
  | cons guard step _ ih =>
      obtain ⟨t₁, stepped, related⟩ := follows _ _ _ _ start guard step
      obtain ⟨t', executed, related'⟩ := ih related
      exact ⟨t', by rw [exec, stepped, Option.bind_some, executed], related'⟩

end System

end PathArmor.Library

import Mathlib.Data.List.Basic
import Mathlib.Data.List.TakeDrop

namespace PathArmor.Library

/-- Symbols that open or close a bracket. An opening symbol carries what its closing one expects. -/
structure Brackets (α β : Type*) where
  opens : α → Bool
  closes : α → Bool
  value : α → β

namespace Brackets
variable {α β : Type*} (B : Brackets α β)

/-- Closing with nothing open is allowed and changes nothing. -/
def step (stack : List β) (a : α) : List β :=
  if B.opens a then B.value a :: stack else if B.closes a then stack.tail else stack

def run (stack : List β) (word : List α) : List β := word.foldl B.step stack

def pending (word : List α) : List β := B.run [] word

def depth : Nat → List α → Option Nat
  | d, [] => some d
  | d, a :: word =>
      if B.opens a then depth (d + 1) word
      else if B.closes a then
        match d with
        | 0 => none
        | d + 1 => depth d word
      else depth d word

def Balanced (word : List α) : Prop := B.depth 0 word = some 0

/-- The bracket `word[j]` is closed by `word[k]`: what stands between them is balanced. -/
structure Encloses (word : List α) (j k : Nat) : Prop where
  lt : j < k
  opens : ∃ a, word[j]? = some a ∧ B.opens a
  closes : ∃ c, word[k]? = some c ∧ B.opens c = false ∧ B.closes c
  balanced : B.Balanced ((word.take k).drop (j + 1))

/-- The symbol that closes the bracket open before the word, with `d` more opened after it. -/
def closer : Nat → List α → Option α
  | _, [] => none
  | d, a :: word =>
      if B.opens a then closer (d + 1) word
      else if B.closes a then
        match d with
        | 0 => some a
        | d + 1 => closer d word
      else closer d word

variable {B}

@[simp] theorem run_nil (stack : List β) : B.run stack [] = stack := rfl

@[simp] theorem run_cons (stack : List β) (a : α) (word : List α) :
    B.run stack (a :: word) = B.run (B.step stack a) word := rfl

@[simp] theorem run_append (stack : List β) (u v : List α) :
    B.run stack (u ++ v) = B.run (B.run stack u) v := List.foldl_append

theorem step_opens {a : α} (opens : B.opens a) (stack : List β) :
    B.step stack a = B.value a :: stack := by simp [step, opens]

theorem step_closes {a : α} (opens : B.opens a = false) (closes : B.closes a) (stack : List β) :
    B.step stack a = stack.tail := by simp [step, opens, closes]

theorem step_neutral {a : α} (opens : B.opens a = false) (closes : B.closes a = false)
    (stack : List β) : B.step stack a = stack := by simp [step, opens, closes]

theorem depth_append (d : Nat) (u v : List α) :
    B.depth d (u ++ v) = (B.depth d u).bind fun d' => B.depth d' v := by
  induction u generalizing d with
  | nil => rfl
  | cons a u ih =>
      simp only [List.cons_append, depth]
      split_ifs
      · exact ih _
      · cases d with
        | zero => rfl
        | succ d => exact ih d
      · exact ih _

theorem run_of_depth {word : List α} {top : List β} {d : Nat}
    (bounded : B.depth top.length word = some d) (below : List β) :
    B.run (top ++ below) word = B.run top word ++ below ∧ (B.run top word).length = d := by
  induction word generalizing top with
  | nil =>
      simp only [depth, Option.some.injEq] at bounded
      exact ⟨rfl, bounded⟩
  | cons a word ih =>
      simp only [depth] at bounded
      simp only [run_cons, step]
      split_ifs at bounded ⊢
      · exact @ih (B.value a :: top) bounded
      · cases top with
        | nil => simp at bounded
        | cons t top => exact ih bounded
      · exact ih bounded

theorem Balanced.run_eq {word : List α} (balanced : B.Balanced word) (stack : List β) :
    B.run stack word = stack := by
  have kept := @run_of_depth _ _ B word [] 0 balanced stack
  rw [List.length_eq_zero_iff] at kept
  simpa [kept.2] using kept.1

theorem Balanced.nil : B.Balanced [] := rfl

theorem Balanced.append {u v : List α} (left : B.Balanced u) (right : B.Balanced v) :
    B.Balanced (u ++ v) := by
  unfold Balanced at *
  rw [depth_append, left]
  exact right

theorem Balanced.neutral {a : α} (opens : B.opens a = false) (closes : B.closes a = false) :
    B.Balanced [a] := by simp [Balanced, depth, opens, closes]

theorem depth_shift {word : List α} {d d' : Nat} (bounded : B.depth d word = some d') (k : Nat) :
    B.depth (d + k) word = some (d' + k) := by
  induction word generalizing d with
  | nil =>
      simp only [depth, Option.some.injEq] at bounded ⊢
      omega
  | cons a word ih =>
      simp only [depth] at bounded ⊢
      split_ifs at bounded ⊢
      · rw [Nat.add_right_comm]
        exact ih bounded
      · cases d with
        | zero => simp at bounded
        | succ d =>
            rw [Nat.add_right_comm]
            exact ih bounded
      · exact ih bounded

theorem Balanced.wrap {a c : α} {word : List α} (opensA : B.opens a) (opensC : B.opens c = false)
    (closesC : B.closes c) (balanced : B.Balanced word) : B.Balanced (a :: word ++ [c]) := by
  have inner := depth_shift balanced 1
  simp only [Nat.zero_add] at inner
  simp [Balanced, depth, depth_append, opensA, opensC, closesC, inner]

theorem exists_open_of_pending {word : List α} {v : β} {rest : List β}
    (top : B.pending word = v :: rest) :
    ∃ u a w, word = u ++ a :: w ∧ B.opens a ∧ B.value a = v ∧ B.Balanced w ∧
      B.pending u = rest := by
  induction len : word.length using Nat.strongRecOn generalizing word v rest with
  | ind n ih =>
      rcases List.eq_nil_or_concat' word with rfl | ⟨word, x, rfl⟩
      · simp [pending] at top
      · have shorter : word.length < n := by simp at len; omega
        simp only [pending, run_append, run_cons, run_nil] at top
        by_cases opens : B.opens x
        · rw [step_opens opens, List.cons.injEq] at top
          exact ⟨word, x, [], rfl, opens, top.1, Balanced.nil, top.2⟩
        · rw [Bool.not_eq_true] at opens
          by_cases closes : B.closes x
          · -- `x` closes the innermost symbol, so `v` is the next one out.
            rw [step_closes opens closes] at top
            cases before : B.run [] word with
            | nil => simp [before] at top
            | cons y ys =>
                simp only [before, List.tail_cons] at top
                subst top
                obtain ⟨u, a, w, rfl, opensA, -, balancedW, pendingU⟩ :=
                  ih word.length shorter before rfl
                have shorterU : u.length < n := by simp at shorter; omega
                obtain ⟨u', a', w', rfl, opensA', value', balancedW', pendingU'⟩ :=
                  ih u.length shorterU pendingU rfl
                refine ⟨u', a', w' ++ (a :: w ++ [x]), by simp, opensA', value', ?_, pendingU'⟩
                exact balancedW'.append (balancedW.wrap opensA opens closes)
          · rw [Bool.not_eq_true] at closes
            rw [step_neutral opens closes] at top
            obtain ⟨u, a, w, rfl, opensA, value, balanced, pendingU⟩ :=
              ih word.length shorter top rfl
            exact ⟨u, a, w ++ [x], by simp, opensA, value,
              balanced.append (.neutral opens closes), pendingU⟩

theorem Encloses.pending_take {word : List α} {j k : Nat} (encloses : B.Encloses word j k) :
    ∃ a, word[j]? = some a ∧ B.pending (word.take k) = B.value a :: B.pending (word.take j) := by
  obtain ⟨a, atJ, opens⟩ := encloses.opens
  refine ⟨a, atJ, ?_⟩
  have jk := encloses.lt
  have split : word.take k = word.take j ++ a :: (word.take k).drop (j + 1) := by
    obtain ⟨bound, rfl⟩ := List.getElem?_eq_some_iff.mp atJ
    have cut : word.take j = (word.take k).take j := by
      rw [List.take_take, Nat.min_eq_left (Nat.le_of_lt jk)]
    have inTake : j < (word.take k).length := by simp; omega
    conv_lhs => rw [← List.take_append_drop j (word.take k), ← cut, List.drop_eq_getElem_cons inTake]
    simp
  rw [split, pending, run_append, run_cons, step_opens opens, encloses.balanced.run_eq]
  rfl

theorem exists_encloses {word : List α} {k : Nat} {c : α} (atK : word[k]? = some c)
    (opens : B.opens c = false) (closes : B.closes c) {v : β} {rest : List β}
    (top : B.pending (word.take k) = v :: rest) :
    ∃ j a, word[j]? = some a ∧ B.value a = v ∧ B.Encloses word j k := by
  obtain ⟨u, a, w, split, opensA, value, balanced, -⟩ := exists_open_of_pending top
  obtain ⟨bound, -⟩ := List.getElem?_eq_some_iff.mp atK
  have lengths : k = u.length + (w.length + 1) := by
    have := congrArg List.length split
    simp only [List.length_take, List.length_append, List.length_cons] at this
    omega
  have atJ : word[u.length]? = some a := by
    have inTake : (word.take k)[u.length]? = some a := by simp [split]
    rwa [List.getElem?_take_of_lt (by omega)] at inTake
  refine ⟨u.length, a, atJ, value, by omega, ⟨a, atJ, opensA⟩, ⟨c, atK, opens, closes⟩, ?_⟩
  rwa [split, List.append_cons, List.drop_left' (by simp)]

theorem closer_opens {a : α} (opens : B.opens a) (d : Nat) (word : List α) :
    B.closer d (a :: word) = B.closer (d + 1) word := by simp [closer, opens]

theorem closer_closes {a : α} (opens : B.opens a = false) (closes : B.closes a) (d : Nat)
    (word : List α) :
    B.closer d (a :: word) = match d with
      | 0 => some a
      | d + 1 => B.closer d word := by simp [closer, opens, closes]

theorem closer_neutral {a : α} (opens : B.opens a = false) (closes : B.closes a = false) (d : Nat)
    (word : List α) : B.closer d (a :: word) = B.closer d word := by simp [closer, opens, closes]

theorem closer_eq_some {d : Nat} {word : List α} {c : α} :
    B.closer d word = some c ↔ ∃ k, word[k]? = some c ∧ B.opens c = false ∧ B.closes c ∧
      B.depth d (word.take k) = some 0 := by
  induction word generalizing d with
  | nil => simp [closer]
  | cons a word ih =>
      -- the symbol is `a` itself or one of the rest
      rw [← Nat.or_exists_add_one]
      simp only [closer, List.getElem?_cons_zero, List.getElem?_cons_succ, List.take_zero,
        List.take_succ_cons, depth, Option.some.injEq]
      split_ifs with opens closes
      · rw [ih]
        refine ⟨.inr, fun found => found.resolve_left ?_⟩
        rintro ⟨rfl, notOpens, -⟩
        simp [opens] at notOpens
      · cases d with
        | zero =>
            constructor
            · intro found
              obtain rfl := Option.some.inj found
              exact .inl ⟨rfl, by simpa using opens, closes, rfl⟩
            · rintro (⟨rfl, -⟩ | ⟨k, -, -, -, impossible⟩)
              · rfl
              · simp at impossible
        | succ d =>
            simp only [ih]
            refine ⟨.inr, fun found => found.resolve_left ?_⟩
            rintro ⟨-, -, -, impossible⟩
            simp at impossible
      · rw [ih]
        refine ⟨.inr, fun found => found.resolve_left ?_⟩
        rintro ⟨rfl, -, isCloser, -⟩
        exact closes isCloser

theorem closer_append_congr {u v : List α} (same : ∀ d, B.closer d u = B.closer d v) (word : List α)
    (d : Nat) : B.closer d (word ++ u) = B.closer d (word ++ v) := by
  induction word generalizing d with
  | nil => exact same d
  | cons a word ih =>
      simp only [List.cons_append, closer]
      split_ifs
      · exact ih _
      · cases d with
        | zero => rfl
        | succ d => exact ih d
      · exact ih d

theorem closer_succ_eq_none {d : Nat} {word : List α} (unclosed : B.closer d word = none) :
    B.closer (d + 1) word = none := by
  induction word generalizing d with
  | nil => rfl
  | cons a word ih =>
      simp only [closer] at unclosed ⊢
      split_ifs at unclosed ⊢
      · exact ih unclosed
      · cases d with
        | zero => cases unclosed
        | succ d => exact ih unclosed
      · exact ih unclosed

theorem closer_append_eq_none {u v : List α} (opening : ∀ a ∈ u, B.closes a = false) {d : Nat}
    (unclosed : B.closer d v = none) : B.closer d (u ++ v) = none := by
  induction u generalizing d with
  | nil => exact unclosed
  | cons a u ih =>
      have rest := fun d => @ih (fun b mem => opening b (List.mem_cons_of_mem a mem)) d
      simp only [List.cons_append, closer, opening a List.mem_cons_self, Bool.false_eq_true,
        if_false]
      split_ifs
      · exact rest (d + 1) (closer_succ_eq_none unclosed)
      · exact rest d unclosed

theorem closer_append_neutral {u : List α}
    (neutral : ∀ a ∈ u, B.opens a = false ∧ B.closes a = false) (d : Nat) (v : List α) :
    B.closer d (u ++ v) = B.closer d v := by
  induction u with
  | nil => rfl
  | cons a u ih =>
      obtain ⟨opens, closes⟩ := neutral a List.mem_cons_self
      rw [List.cons_append, closer_neutral opens closes]
      exact ih fun b mem => neutral b (List.mem_cons_of_mem a mem)

theorem encloses_zero_iff {a : α} {word : List α} {k : Nat} :
    B.Encloses (a :: word) 0 (k + 1) ↔ B.opens a ∧ ∃ c, word[k]? = some c ∧ B.opens c = false ∧
      B.closes c ∧ B.depth 0 (word.take k) = some 0 := by
  constructor
  · rintro ⟨-, ⟨_, first, opens⟩, ⟨c, last, notOpens, closes⟩, balanced⟩
    obtain rfl := Option.some.inj first
    exact ⟨opens, c, by simpa using last, notOpens, closes, by simpa [Balanced] using balanced⟩
  · rintro ⟨opens, c, last, notOpens, closes, balanced⟩
    exact ⟨k.succ_pos, ⟨a, rfl, opens⟩, ⟨c, by simpa using last, notOpens, closes⟩,
      by simpa [Balanced] using balanced⟩

end Brackets

end PathArmor.Library

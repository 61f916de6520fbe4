import Mathlib.Data.List.DropRight
import Mathlib.Data.List.Infix
import Mathlib.Data.UInt

/-!
# Lines, fields and numerals

What shell scripts do with text: lines selected by a fixed string, fields between blanks, the output
of one command as the words of the next, and the numeral at the front of a string.
-/

namespace PathArmor.Library

abbrev Text := List Char

namespace Text

def isBlank (c : Char) : Bool := c == ' ' || c == '\t' || c == '\n'

/-- The pieces between blanks, empty ones left out. -/
def words (text : Text) : List Text := (text.splitOnP isBlank).filter (· ≠ [])

/-- A piece of text that blanks do not cut. -/
structure IsWord (word : Text) : Prop where
  nonempty : word ≠ []
  solid : ∀ c ∈ word, isBlank c = false

/-- The lines that contain a fixed string. -/
def grep (pattern : Text) (lines : List Text) : List Text := lines.filter (pattern <:+: ·)

def secondField (line : Text) : Text := (words line).getD 1 []

/-- The lines a command prints, without the line breaks at the end. -/
def substitute (lines : List Text) : Text :=
  (lines.flatMap (· ++ ['\n'])).rdropWhile (· == '\n')

/-- The text is passed as separate words. -/
def echo (text : Text) : Text := [' '].intercalate (words text) ++ ['\n']

/-! ## Words -/

@[simp] theorem words_nil : words [] = [] := by simp [words]

theorem words_append_cons {blank : Char} (isBlank : isBlank blank) (text rest : Text) :
    words (text ++ blank :: rest) = words text ++ words rest := by
  rw [words, List.splitOnP_append_cons text rest isBlank, List.filter_append]
  rfl

theorem IsWord.words {word : Text} (isWord : IsWord word) : words word = [word] := by
  rw [Text.words, List.splitOnP_eq_singleton isWord.solid]
  simp [isWord.nonempty]

theorem words_lines {lines : List Text} (areWords : ∀ line ∈ lines, IsWord line) :
    words (lines.flatMap (· ++ ['\n'])) = lines := by
  induction lines with
  | nil => exact words_nil
  | cons line lines ih =>
      rw [List.flatMap_cons, List.append_assoc, List.singleton_append, words_append_cons rfl,
        (areWords line List.mem_cons_self).words, ih fun l later => areWords l (.tail _ later)]
      rfl

theorem words_rdropWhile (text : Text) : words (text.rdropWhile (· == '\n')) = words text := by
  induction text using List.reverseRecOn with
  | nil => rfl
  | append_singleton text c ih =>
      rw [List.rdropWhile_concat]
      split_ifs with newline
      · obtain rfl : c = '\n' := by simpa using newline
        rw [ih, words_append_cons rfl, words_nil, List.append_nil]
      · rfl

theorem words_substitute {lines : List Text} (areWords : ∀ line ∈ lines, IsWord line) :
    words (substitute lines) = lines := by
  rw [substitute, words_rdropWhile, words_lines areWords]

theorem substitute_eq_nil {lines : List Text} (areWords : ∀ line ∈ lines, IsWord line) :
    substitute lines = [] ↔ lines = [] := by
  constructor
  · intro empty
    rw [← words_substitute areWords, empty, words_nil]
  · rintro rfl
    rfl

theorem echo_substitute {lines : List Text} (areWords : ∀ line ∈ lines, IsWord line) :
    echo (substitute lines) = [' '].intercalate lines ++ ['\n'] := by
  rw [echo, words_substitute areWords]

theorem secondField_of_words {first second : Text} (isFirst : IsWord first)
    (isSecond : IsWord second) : secondField (first ++ ' ' :: second) = second := by
  rw [secondField, words_append_cons rfl, isFirst.words, isSecond.words]
  rfl

theorem IsWord.space_notMem {word : Text} (isWord : IsWord word) : ' ' ∉ word := fun member =>
  absurd (isWord.solid ' ' member) (by decide)

/-- Only the first word ends in front of a space. -/
theorem infix_iff_suffix {first second pattern : Text} (isFirst : IsWord first)
    (isSecond : IsWord second) :
    pattern ++ [' '] <:+: first ++ ' ' :: second ↔ pattern <:+ first := by
  constructor
  · rintro ⟨front, back, split⟩
    have pieces : (front ++ pattern).splitOn ' ' ++ back.splitOn ' ' = [first, second] := by
      rw [← List.splitOn_append_cons_self, List.append_assoc, List.append_cons pattern,
        ← List.append_assoc, split, List.splitOn_append_cons_self,
        List.splitOn_eq_singleton isFirst.space_notMem,
        List.splitOn_eq_singleton isSecond.space_notMem, List.singleton_append]
    have whole : (front ++ pattern).splitOn ' ' = [first] := by
      rcases List.append_eq_cons_iff.mp pieces with ⟨none, -⟩ | ⟨more, here, later⟩
      · exact absurd none (List.splitOn_ne_nil _ _)
      · rcases List.append_eq_singleton_iff.mp later.symm with ⟨rfl, -⟩ | ⟨-, none⟩
        · exact here
        · exact absurd none (List.splitOn_ne_nil _ _)
    refine ⟨front, ?_⟩
    calc front ++ pattern = [' '].intercalate ((front ++ pattern).splitOn ' ') :=
          (List.intercalate_splitOn ' ').symm
      _ = first := by simp [whole]
  · rintro ⟨front, rfl⟩
    exact ⟨front, second, by simp⟩

/-! ## Numerals -/

def hexDigit (c : Char) : Option Nat :=
  if '0'.toNat ≤ c.toNat ∧ c.toNat ≤ '9'.toNat then some (c.toNat - '0'.toNat)
  else if 'a'.toNat ≤ c.toNat ∧ c.toNat ≤ 'f'.toNat then some (c.toNat - 'a'.toNat + 10)
  else if 'A'.toNat ≤ c.toNat ∧ c.toNat ≤ 'F'.toNat then some (c.toNat - 'A'.toNat + 10)
  else none

def isHex (c : Char) : Bool := (hexDigit c).isSome

def hexValue (digits : Text) : Nat := digits.foldl (fun n c => 16 * n + (hexDigit c).getD 0) 0

def isSpace (c : Char) : Bool := c == ' ' || 9 ≤ c.toNat && c.toNat ≤ 13

def skipSign : Text → Bool × Text
  | '-' :: text => (true, text)
  | '+' :: text => (false, text)
  | text => (false, text)

def skipRadix : Text → Text
  | '0' :: 'x' :: text => text
  | '0' :: 'X' :: text => text
  | text => text

/-- `strtoll(text, NULL, 16)`. -/
def strtoll (text : Text) : Int :=
  let (negative, text) := skipSign (text.dropWhile isSpace)
  let n : Int := hexValue ((skipRadix text).takeWhile isHex)
  if negative then max (-n) (-2 ^ 63) else min n (2 ^ 63 - 1)

theorem strtoll_nil : strtoll [] = 0 := by decide

theorem strtoll_cons_space {c : Char} (space : isSpace c) (text : Text) :
    strtoll (c :: text) = strtoll text := by
  rw [strtoll, List.dropWhile_cons_of_pos space]
  rfl

theorem isHex_not_isSpace {c : Char} (hex : isHex c) : isSpace c = false := by
  by_contra space
  have bound : c.toNat ≤ 32 := by
    simp only [isSpace, Bool.not_eq_false, Bool.or_eq_true, beq_iff_eq, Bool.and_eq_true,
      decide_eq_true_iff] at space
    rcases space with rfl | ⟨-, bound⟩
    · decide
    · omega
  unfold isHex hexDigit at hex
  simp only [Char.reduceToNat] at hex
  rw [if_neg (by omega), if_neg (by omega), if_neg (by omega)] at hex
  simp at hex

theorem isBlank_isSpace {c : Char} (blank : isBlank c) : isSpace c := by
  simp only [isBlank, Bool.or_eq_true, beq_iff_eq] at blank
  rcases blank with (rfl | rfl) | rfl <;> decide

theorem skipSign_of_isHex {c : Char} (hex : isHex c) (text : Text) :
    skipSign (c :: text) = (false, c :: text) := by
  unfold skipSign
  split
  · rename_i same
    obtain ⟨rfl, -⟩ := List.cons.inj same
    exact absurd hex (by decide)
  · rename_i same
    obtain ⟨rfl, -⟩ := List.cons.inj same
    exact absurd hex (by decide)
  · rfl

theorem skipRadix_of_second {c : Char} {text : Text}
    (second : ∀ d ∈ text.head?, isHex d ∨ isBlank d) : skipRadix (c :: text) = c :: text := by
  unfold skipRadix
  split
  · rename_i same
    obtain ⟨-, rfl⟩ := List.cons.inj same
    exact absurd (second 'x' rfl) (by decide)
  · rename_i same
    obtain ⟨-, rfl⟩ := List.cons.inj same
    exact absurd (second 'X' rfl) (by decide)
  · rfl

theorem takeWhile_isHex {digits rest : Text} (hex : ∀ c ∈ digits, isHex c)
    (ends : ∀ c ∈ rest.head?, isBlank c) : (digits ++ rest).takeWhile isHex = digits := by
  rw [List.takeWhile_append_of_pos hex]
  cases rest with
  | nil => simp
  | cons c rest =>
      have space := isBlank_isSpace (ends c rfl)
      have notHex : ¬ isHex c := fun hex => by simp [isHex_not_isSpace hex] at space
      rw [List.takeWhile_cons_of_neg notHex, List.append_nil]

/-- A numeral ends where a blank follows. -/
theorem strtoll_append {digits rest : Text} (nonempty : digits ≠ []) (hex : ∀ c ∈ digits, isHex c)
    (small : hexValue digits < 2 ^ 63) (ends : ∀ c ∈ rest.head?, isBlank c) :
    strtoll (digits ++ rest) = hexValue digits := by
  have digitsOnly := takeWhile_isHex hex ends
  obtain ⟨d, digits, rfl⟩ := List.exists_cons_of_ne_nil nonempty
  have first : isHex d := hex d List.mem_cons_self
  have second : ∀ c ∈ (digits ++ rest).head?, isHex c ∨ isBlank c := by
    intro c isSecond
    cases digits with
    | nil => exact .inr (ends c isSecond)
    | cons d' digits =>
        obtain rfl : d' = c := by simpa using isSecond
        exact .inl (hex d' (by simp))
  have notSpace : ¬ isSpace d := by simp [isHex_not_isSpace first]
  rw [strtoll, List.cons_append, List.dropWhile_cons_of_neg notSpace, skipSign_of_isHex first]
  simp only [skipRadix_of_second second]
  rw [← List.cons_append, digitsOnly, if_neg (by simp)]
  omega

end Text

end PathArmor.Library

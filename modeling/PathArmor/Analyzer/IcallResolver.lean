import PathArmor.Analyzer.Cfg
import PathArmor.Library.Text

/-!
# The targets of indirect calls

`arms_icall_resolver` runs `cem-binmap.sh`, which looks the call site up in a map with lines such as
`4005d6 400500,400510,`, and reads the targets back from what the script prints. Lines with the site
`*` are for all other call sites.
-/

namespace PathArmor.Analyzer
open PathArmor.Library Text

/-! ## The script -/

def callsite2targets (callsite : Text) (map : List Text) : Text :=
  let targets := substitute ((grep (callsite ++ [' ']) map).map secondField)
  if targets = [] then echo (substitute ((grep ['*', ' '] map).map secondField)) else echo targets

/-- Without a map file the script prints nothing. -/
def cemBinmap (map : Option (List Text)) (callsite : Text) : Text :=
  match map with
  | none => []
  | some map => callsite2targets callsite map

/-! ## The resolver -/

def intMax : Nat := 2 ^ 31 - 1

/-- The positions of the separators are kept in an `int`; from `intMax` on the next token does not
start at a position. -/
def splitFrom (sep : Char) : Nat → Text → Text → Option (List Text)
  | _, token, [] => some [token]
  | position, token, c :: text =>
      if c = sep then
        if position < intMax then (splitFrom sep (position + 1) [] text).map (token :: ·) else none
      else splitFrom sep (position + 1) (token ++ [c]) text

def split (text : Text) (sep : Char) : Option (List Text) := splitFrom sep 0 [] text

def tokenValue (token : Text) : UInt64 := UInt64.ofInt (strtoll token)

/-- What `%lx` prints. -/
def hexText (n : UInt64) : Text := Nat.toDigits 16 n.toNat

def armsIcallResolver (map : Option (List Text)) (callSiteAddr : UInt64) : Option (List UInt64) :=
  (split (cemBinmap map (hexText callSiteAddr)) ',').map fun tokens => tokens.map tokenValue

/-! ## Map files -/

structure MapTarget where
  digits : Text
  nonempty : digits ≠ []
  hex : ∀ c ∈ digits, isHex c
  length_le : digits.length ≤ 16
  small : hexValue digits < 2 ^ 63

inductive MapSite
  | star
  | hex (digits : Text) (nonempty : digits ≠ []) (lower : ∀ c ∈ digits, isHex c ∧ ¬ c.isUpper)

structure MapLine where
  site : MapSite
  targets : List MapTarget
  nonempty : targets ≠ []
  trailingComma : Bool

def MapTarget.value (t : MapTarget) : UInt64 := UInt64.ofNat (hexValue t.digits)

def MapSite.text : MapSite → Text
  | .star => ['*']
  | .hex digits _ _ => digits

def MapSite.IsAt (c : UInt64) : MapSite → Prop
  | .star => False
  | .hex digits _ _ => hexValue digits = c.toNat

def MapSite.isStar : MapSite → Bool
  | .star => true
  | .hex _ _ _ => false

instance (c : UInt64) (site : MapSite) : Decidable (site.IsAt c) :=
  match site with
  | .star => isFalse id
  | .hex digits _ _ => inferInstanceAs (Decidable (hexValue digits = c.toNat))

namespace MapLine

def field (l : MapLine) : Text :=
  [','].intercalate (l.targets.map (·.digits)) ++ if l.trailingComma then [','] else []

def text (l : MapLine) : Text := l.site.text ++ ' ' :: l.field

def values (l : MapLine) : List UInt64 := l.targets.map (·.value)

end MapLine

/-- The targets on the lines of the call site, or else on the lines for all others. -/
def mapped (map : Option (List MapLine)) (c : UInt64) : List UInt64 :=
  let lines := (map.getD []).filter fun l => l.site.IsAt c
  if lines = [] then ((map.getD []).filter fun l => l.site.isStar).flatMap MapLine.values
  else lines.flatMap MapLine.values

def Resolves (map : Option (List MapLine)) (c : UInt64) : Prop :=
  ∃ targets, armsIcallResolver (map.map fun lines => lines.map MapLine.text) c = some targets ∧
    ∀ t, t ∈ targets ↔ t ∈ mapped map c

/-! ## What the script prints -/

/-- The lines that `grep` finds: the call site need only be the end of the site. -/
def selected (map : Option (List MapLine)) (c : UInt64) : List MapLine :=
  let lines := (map.getD []).filter fun l => hexText c <:+ l.site.text
  if lines = [] then (map.getD []).filter fun l => l.site.isStar else lines

theorem isHex_not_isBlank {c : Char} (hex : isHex c) : isBlank c = false := by
  by_contra blank
  have space := isBlank_isSpace (by simpa using blank)
  simp [isHex_not_isSpace hex] at space

theorem MapSite.isWord (site : MapSite) : IsWord site.text := by
  cases site with
  | star => exact ⟨by simp [MapSite.text], by simp [MapSite.text, isBlank]⟩
  | hex digits nonempty lower => exact ⟨nonempty, fun c member => isHex_not_isBlank (lower c member).1⟩

theorem mem_intercalate_comma {texts : List Text} {c : Char}
    (member : c ∈ [','].intercalate texts) : c = ',' ∨ ∃ text ∈ texts, c ∈ text := by
  induction texts with
  | nil => simp at member
  | cons text texts ih =>
      rcases eq_or_ne texts [] with rfl | more
      · exact .inr ⟨text, List.mem_cons_self, by simpa using member⟩
      · rw [List.intercalate_cons_of_ne_nil more, List.mem_append, List.mem_append,
          List.mem_singleton] at member
        rcases member with (here | comma) | later
        · exact .inr ⟨text, List.mem_cons_self, here⟩
        · exact .inl comma
        · obtain comma | ⟨text', among, inside⟩ := ih later
          · exact .inl comma
          · exact .inr ⟨text', List.mem_cons_of_mem _ among, inside⟩

namespace MapLine

theorem isWord_field (l : MapLine) : IsWord l.field := by
  constructor
  · obtain ⟨t, targets, isFirst⟩ := List.exists_cons_of_ne_nil l.nonempty
    rw [field, isFirst, List.map_cons]
    cases targets with
    | nil => simp [t.nonempty]
    | cons t' targets => simp [List.intercalate_cons_of_ne_nil]
  · intro c member
    rcases List.mem_append.mp member with inTarget | comma
    · obtain rfl | ⟨text, among, inside⟩ := mem_intercalate_comma inTarget
      · rfl
      · obtain ⟨t, -, rfl⟩ := List.mem_map.mp among
        exact isHex_not_isBlank (t.hex c inside)
    · obtain rfl : c = ',' := by
        split_ifs at comma
        · exact List.mem_singleton.mp comma
        · cases comma
      rfl

end MapLine

/-- The script prints the fields of the selected lines as words of one line. -/
def printed (lines : List MapLine) : Text := [' '].intercalate (lines.map MapLine.field) ++ ['\n']

theorem grep_text (pattern : Text) (lines : List MapLine) :
    (grep (pattern ++ [' ']) (lines.map MapLine.text)).map secondField =
      (lines.filter fun l => pattern <:+ l.site.text).map MapLine.field := by
  have second (l : MapLine) : secondField l.text = l.field :=
    secondField_of_words l.site.isWord l.isWord_field
  have found (l : MapLine) : pattern ++ [' '] <:+: l.text ↔ pattern <:+ l.site.text :=
    infix_iff_suffix l.site.isWord l.isWord_field
  rw [grep, List.filter_map, List.map_map]
  simp only [Function.comp_def, found, second]

theorem star_suffix_iff (site : MapSite) : ['*'] <:+ site.text ↔ site.isStar := by
  cases site with
  | star => exact ⟨fun _ => rfl, fun _ => List.suffix_rfl⟩
  | hex digits nonempty lower =>
      refine ⟨fun isSuffix => ?_, fun star => nomatch star⟩
      have isDigit := (lower '*' (isSuffix.subset List.mem_cons_self)).1
      exact absurd isDigit (by decide)

theorem echo_fields (lines : List MapLine) :
    echo (substitute (lines.map MapLine.field)) = printed lines := by
  apply echo_substitute
  simpa using fun l _ => l.isWord_field

theorem substitute_fields_eq_nil (lines : List MapLine) :
    substitute (lines.map MapLine.field) = [] ↔ lines = [] := by
  rw [substitute_eq_nil (by simpa using fun l _ => l.isWord_field), List.map_eq_nil_iff]

theorem callsite2targets_text (lines : List MapLine) (c : UInt64) :
    callsite2targets (hexText c) (lines.map MapLine.text) = printed (selected (some lines) c) := by
  have stars : (lines.filter fun l => ['*'] <:+ l.site.text) = lines.filter fun l => l.site.isStar := by
    simp only [star_suffix_iff, Bool.decide_eq_true]
  unfold callsite2targets selected
  simp only [grep_text, show ['*', ' '] = ['*'] ++ [' '] from rfl, stars, echo_fields,
    substitute_fields_eq_nil, Option.getD_some]
  split_ifs
  · rfl
  · rfl

theorem splitFrom_of_fits {sep : Char} {position : Nat} {text : Text}
    (fits : ∀ i, text[i]? = some sep → position + i < intMax) (token : Text) :
    splitFrom sep position token text = some ((text.splitOn sep).modifyHead (token ++ ·)) := by
  induction text generalizing position token with
  | nil => simp [splitFrom]
  | cons c text ih =>
      have later : ∀ i, text[i]? = some sep → position + 1 + i < intMax := fun i found => by
        have := fits (i + 1) found
        omega
      rw [splitFrom, List.splitOn_cons_eq_if_modifyHead]
      rcases eq_or_ne c sep with rfl | other
      · have here : position < intMax := fits 0 rfl
        rw [if_pos rfl, if_pos here, ih later, if_pos (by simp)]
        simp only [List.nil_append, List.modifyHead_cons, List.append_nil, Option.map_some]
        exact congrArg (fun pieces => some (token :: pieces)) (congrFun List.modifyHead_id _)
      · rw [if_neg other, if_neg (by simpa using other), ih later, List.modifyHead_modifyHead]
        simp [Function.comp_def]

theorem split_of_fits {sep : Char} {text : Text} (fits : ∀ i, text[i]? = some sep → i < intMax) :
    split text sep = some (text.splitOn sep) := by
  rw [split, splitFrom_of_fits (by simpa using fits)]
  exact congrArg some (congrFun List.modifyHead_id _)

theorem splitFrom_of_not_fits {sep : Char} {position i : Nat} {text : Text}
    (found : text[i]? = some sep) (outside : intMax ≤ position + i) (token : Text) :
    splitFrom sep position token text = none := by
  induction text generalizing position i token with
  | nil => simp at found
  | cons c text ih =>
      rw [splitFrom]
      cases i with
      | zero =>
          obtain rfl : c = sep := by simpa using found
          rw [if_pos rfl, if_neg (by omega)]
      | succ i =>
          have later (token : Text) : splitFrom sep (position + 1) token text = none :=
            ih found (by omega) token
          split_ifs
          · rw [later]
            rfl
          · rfl
          · rw [later]

/-! ## What is read back -/

def tokenValues (text : Text) : List UInt64 := (text.splitOn ',').map tokenValue

theorem tokenValues_append_comma (token text : Text) (solid : ',' ∉ token) :
    tokenValues (token ++ ',' :: text) = tokenValue token :: tokenValues text := by
  rw [tokenValues, List.splitOn_append_cons_self_of_not_mem solid, List.map_cons]
  rfl

theorem splitOn_append_of_notMem {front : Text} (solid : ',' ∉ front) (text : Text) :
    (front ++ text).splitOn ',' = (text.splitOn ',').modifyHead (front ++ ·) := by
  induction front with
  | nil => exact (congrFun List.modifyHead_id _).symm
  | cons c front ih =>
      obtain ⟨other, solid⟩ := not_or.mp (mt List.mem_cons.mpr solid)
      rw [List.cons_append, List.splitOn_cons_eq_if_modifyHead, if_neg (by simpa using Ne.symm other),
        ih solid, List.modifyHead_modifyHead]
      rfl

theorem tokenValues_append {front : Text} (solid : ',' ∉ front) (text : Text) :
    ∃ token, tokenValues (front ++ text) = tokenValue (front ++ token) :: (tokenValues text).tail ∧
      tokenValues text = tokenValue token :: (tokenValues text).tail := by
  obtain ⟨token, tokens, pieces⟩ := List.exists_cons_of_ne_nil (List.splitOn_ne_nil ',' text)
  refine ⟨token, ?_, ?_⟩
  · rw [tokenValues, splitOn_append_of_notMem solid, tokenValues, pieces]
    rfl
  · rw [tokenValues, pieces]
    rfl

theorem tokenValues_cons_blank {c : Char} (blank : isBlank c) (text : Text) :
    tokenValues (c :: text) = tokenValues text := by
  have solid : ',' ∉ [c] := by
    rw [List.mem_singleton]
    rintro rfl
    exact absurd blank (by decide)
  obtain ⟨token, values, values'⟩ := tokenValues_append solid text
  have skipped : tokenValue ([c] ++ token) = tokenValue token := by
    rw [tokenValue, List.singleton_append, strtoll_cons_space (isBlank_isSpace blank)]
    rfl
  rw [← List.singleton_append, values, skipped, ← values']

theorem MapTarget.tokenValue_append (t : MapTarget) (rest : Text)
    (ends : ∀ c ∈ rest.head?, isBlank c) : tokenValue (t.digits ++ rest) = t.value := by
  rw [tokenValue, strtoll_append t.nonempty t.hex t.small ends, MapTarget.value, UInt64.ofInt]
  congr 1
  have small := t.small
  omega

theorem MapTarget.comma_notMem (t : MapTarget) : ',' ∉ t.digits := fun member =>
  absurd (t.hex ',' member) (by decide)

theorem MapTarget.tokenValues_comma (t : MapTarget) (text : Text) :
    tokenValues (t.digits ++ ',' :: text) = t.value :: tokenValues text := by
  have value : tokenValue t.digits = t.value := by
    simpa using t.tokenValue_append [] (by simp)
  rw [tokenValues_append_comma _ _ t.comma_notMem, value]

/-- A blank after a target ends the numeral, but the token goes on to the next comma. -/
theorem MapTarget.tokenValues_blank (t : MapTarget) {c : Char} (blank : isBlank c) (text : Text) :
    tokenValues (t.digits ++ c :: text) = t.value :: (tokenValues text).tail := by
  have solid : ',' ∉ t.digits ++ [c] := by
    rw [List.mem_append, List.mem_singleton, not_or]
    refine ⟨t.comma_notMem, ?_⟩
    rintro rfl
    exact absurd blank (by decide)
  obtain ⟨token, values, -⟩ := tokenValues_append solid text
  have value : tokenValue (t.digits ++ c :: token) = t.value :=
    t.tokenValue_append _ fun d first => by
      obtain rfl : c = d := by simpa using first
      exact blank
  rw [List.append_cons, values, ← List.append_cons, value]

theorem MapLine.tokenValues_field (l : MapLine) {c : Char} (blank : isBlank c) (text : Text) :
    tokenValues (l.field ++ c :: text) =
      l.values ++ if l.trailingComma then tokenValues text else (tokenValues text).tail := by
  obtain ⟨site, targets, nonempty, trailing⟩ := l
  simp only [field, values]
  induction targets with
  | nil => exact absurd rfl nonempty
  | cons t targets ih =>
      rcases eq_or_ne targets [] with rfl | more
      · cases trailing with
        | true => simp [t.tokenValues_comma, tokenValues_cons_blank blank]
        | false => simp [t.tokenValues_blank blank]
      · have others : targets.map (·.digits) ≠ [] := mt List.map_eq_nil_iff.mp more
        rw [List.map_cons, List.intercalate_cons_of_ne_nil others, List.append_assoc,
          List.append_assoc, List.append_assoc, List.singleton_append, t.tokenValues_comma,
          ← List.append_assoc, ih more]
        rfl

/-- The targets that are read from the printed fields. Without a comma at the end of a field, its
last target and the first one of the next field are one token; with it, a token is left at the
end. -/
def resolved : List MapLine → List UInt64
  | [] => [0]
  | l :: lines => l.values ++ if l.trailingComma then resolved lines else (resolved lines).tail

theorem printed_cons (l : MapLine) (lines : List MapLine) :
    printed (l :: lines) = l.field ++ if lines = [] then ['\n'] else ' ' :: printed lines := by
  unfold printed
  split_ifs with none
  · simp [none]
  · have others : lines.map MapLine.field ≠ [] := mt List.map_eq_nil_iff.mp none
    rw [List.map_cons, List.intercalate_cons_of_ne_nil others]
    simp

theorem tokenValues_nil : tokenValues [] = [0] := by
  simp only [tokenValues, List.splitOn_nil, List.map_singleton, tokenValue, strtoll_nil]
  rfl

theorem tokenValues_printed (lines : List MapLine) :
    tokenValues (printed lines) = resolved lines := by
  induction lines with
  | nil =>
      change tokenValues ['\n'] = [0]
      rw [tokenValues_cons_blank rfl, tokenValues_nil]
  | cons l lines ih =>
      rw [printed_cons, resolved]
      split_ifs with none trailing trailing
      · subst none
        rw [l.tokenValues_field rfl, tokenValues_nil, if_pos trailing]
        rfl
      · subst none
        rw [l.tokenValues_field rfl, tokenValues_nil, if_neg trailing]
        rfl
      · rw [l.tokenValues_field rfl, ih, if_pos trailing]
      · rw [l.tokenValues_field rfl, ih, if_neg trailing]

theorem tokenValues_cemBinmap (map : Option (List MapLine)) (c : UInt64) :
    tokenValues (cemBinmap (map.map fun lines => lines.map MapLine.text) (hexText c)) =
      resolved (selected map c) := by
  cases map with
  | none => exact tokenValues_nil
  | some lines =>
      rw [Option.map_some, cemBinmap, callsite2targets_text, tokenValues_printed]

/-- The position of every comma in the output of the script fits into an `int`. -/
def CommasFit (map : Option (List MapLine)) (c : UInt64) : Prop :=
  ∀ i, (cemBinmap (map.map fun lines => lines.map MapLine.text) (hexText c))[i]? = some ',' →
    i < intMax

theorem armsIcallResolver_eq_some {map : Option (List MapLine)} {c : UInt64} {targets : List UInt64} :
    armsIcallResolver (map.map fun lines => lines.map MapLine.text) c = some targets ↔
      CommasFit map c ∧ targets = resolved (selected map c) := by
  unfold armsIcallResolver
  by_cases fits : CommasFit map c
  · rw [split_of_fits fits, Option.map_some, Option.some.injEq, ← tokenValues_cemBinmap]
    exact ⟨fun same => ⟨fits, same.symm⟩, fun same => same.2.symm⟩
  · have beyond := fits
    simp only [CommasFit, not_forall, not_lt] at beyond
    obtain ⟨i, comma, outside⟩ := beyond
    rw [split, splitFrom_of_not_fits comma (by simpa using outside)]
    constructor
    · exact fun same => nomatch same
    · exact fun same => absurd same.1 fits

/-! ## When the targets are the mapped ones -/

/-- The targets on the lines, without those that share a token with the one in front of them. -/
def kept : List MapLine → List UInt64
  | [] => []
  | l :: lines => l.values ++ if l.trailingComma then kept lines else (kept lines).tail

/-- Nothing is printed, or a comma at the end. -/
def openEnd : List MapLine → Bool
  | [] => true
  | [l] => l.trailingComma
  | _ :: l :: lines => openEnd (l :: lines)

theorem resolved_eq (lines : List MapLine) :
    resolved lines = kept lines ++ if openEnd lines then [0] else [] := by
  induction lines with
  | nil => rfl
  | cons l lines ih =>
      rw [resolved, kept, ih]
      cases lines with
      | nil => cases trailing : l.trailingComma <;> simp [kept, openEnd, trailing]
      | cons l' lines =>
          have some : kept (l' :: lines) ≠ [] := by simp [kept, MapLine.values, l'.nonempty]
          have last : openEnd (l :: l' :: lines) = openEnd (l' :: lines) := rfl
          rw [last, List.append_assoc]
          split_ifs <;> simp [List.tail_append_of_ne_nil some]

theorem mem_resolved {lines : List MapLine} {t : UInt64} :
    t ∈ resolved lines ↔ t ∈ kept lines ∨ openEnd lines ∧ t = 0 := by
  rw [resolved_eq, List.mem_append]
  split_ifs with isOpen <;> simp [isOpen]

theorem resolved_ne_nil (lines : List MapLine) : resolved lines ≠ [] := by
  cases lines with
  | nil => exact List.cons_ne_nil _ _
  | cons l lines => simp [resolved, MapLine.values, l.nonempty]

/-- The line `4005d6 400500,`. -/
def closedLine : MapLine where
  site := .hex "4005d6".toList (by decide) (by simp [isHex, hexDigit])
  targets := [⟨"400500".toList, by decide, by simp [isHex, hexDigit], by decide, by decide⟩]
  nonempty := by simp
  trailingComma := true

end PathArmor.Analyzer

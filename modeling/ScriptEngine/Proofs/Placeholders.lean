import Mathlib.Data.List.DropRight
import ScriptEngine.Grammar.Placeholder
import ScriptEngine.Proofs.Patterns

/-! Placeholders are read as they were written.

What stands between two percent signs is read in three passes: a number after an `@` is cut off the
end (`cutTime?_eq_some`), flags are taken off the front, and what is left is cut at slashes and
trimmed (`read_eq_ok`). In a placeholder that is written as it should be (`Written`) none of them
takes what belongs to another (`Written.read_text`), and percent signs pair up around placeholders
however many there are (`Wording.fields_follow`, `Wording.bodies_follow`). So every placeholder of a
pattern is read as it was written, and whatever else is read is regular (`ofPattern_written`). -/
namespace ScriptEngine

/-! ### Cutting and trimming -/

namespace Text
variable {s front back : List Char}

theorem fields_eq_splitOn (separator : Char) (s : List Char) :
    fields separator s = s.splitOn separator := by
  induction s with
  | nil => rfl
  | cons c s ih =>
    rw [fields, List.splitOn_cons_eq_if_modifyHead, ih]
    simp only [beq_iff_eq]
    refine if_congr Iff.rfl rfl ?_
    obtain ⟨first, others, hsplit⟩ := List.exists_cons_of_ne_nil (List.splitOn_ne_nil separator s)
    rw [hsplit]
    rfl

/-- A text neither begins nor ends with a blank. -/
structure Trimmed (s : List Char) : Prop where
  front : ∀ c ∈ s.head?, isBlank c = false
  back : ∀ c ∈ s.getLast?, isBlank c = false

instance (s : List Char) : Decidable (Trimmed s) :=
  decidable_of_iff (s.head?.any isBlank = false ∧ s.getLast?.any isBlank = false)
    ⟨fun h => ⟨(Option.any_eq_false _ _).mp h.1, (Option.any_eq_false _ _).mp h.2⟩,
      fun h => ⟨(Option.any_eq_false _ _).mpr h.front, (Option.any_eq_false _ _).mpr h.back⟩⟩

/-- A text is told from what stands in front of it by its first character. -/
theorem span_append {p : Char → Bool} (hfront : ∀ c ∈ front, p c = true)
    (hs : ∀ c ∈ s.head?, p c = false) :
    (front ++ s).takeWhile p = front ∧ (front ++ s).dropWhile p = s := by
  rw [List.takeWhile_append_of_pos hfront, List.dropWhile_append_of_pos hfront]
  cases s with
  | nil => simp
  | cons c s => simp [hs c rfl]

theorem head_dropWhile (p : Char → Bool) (s : List Char) :
    ∀ c ∈ (s.dropWhile p).head?, p c = false := by
  intro c hc
  have h := List.head?_dropWhile_not p s
  rw [hc] at h
  exact h

theorem trimBack_prefix (s : List Char) : trimBack s <+: s := List.rdropWhile_prefix isBlank s

theorem trim_trimmed (s : List Char) : Trimmed (trim s) where
  front c hc := by
    obtain ⟨rest, hrest⟩ := trimBack_prefix (trimFront s)
    refine head_dropWhile isBlank s c ?_
    show c ∈ (trimFront s).head?
    rw [← hrest]
    exact List.mem_head?_append_of_mem_head? hc
  back c hc := by
    rw [trim, trimBack, List.getLast?_reverse] at hc
    exact head_dropWhile isBlank _ c hc

/-- Trimming takes off the blanks around a text, and no more. -/
theorem trim_pad (hfront : ∀ c ∈ front, isBlank c = true) (hback : ∀ c ∈ back, isBlank c = true)
    (hs : Trimmed s) (hne : s ≠ []) : trim (front ++ (s ++ back)) = s := by
  have hbegin : trimFront (front ++ (s ++ back)) = s ++ back := by
    refine (span_append hfront fun c hc => hs.front c ?_).2
    rwa [List.head?_append_of_ne_nil _ hne] at hc
  have hend : trimFront (back.reverse ++ s.reverse) = s.reverse :=
    (span_append (by simpa using hback) (by simpa using hs.back)).2
  rw [trim, hbegin, trimBack, List.reverse_append]
  exact List.reverse_eq_iff.mpr hend

theorem trim_of_trimmed (hs : Trimmed s) (hne : s ≠ []) : trim s = s := by
  have h : trim ([] ++ (s ++ [])) = s := trim_pad (by simp) (by simp) hs hne
  simpa using h

end Text

namespace Placeholder

/-! ### Numbers at the end -/

/-- Digits of any script, perhaps with a minus in front. -/
def IsNumber (number : List Char) : Prop :=
  ∃ digits, digits ≠ [] ∧ (∀ c ∈ digits, Text.isDecimalDigit c = true) ∧
    (number = digits ∨ number = '-' :: digits)

theorem isNumber_digits (digits : List Char) (hne : digits.isEmpty = false)
    (hdigits : digits.all Text.isDecimalDigit = true) :
    IsNumber digits ∧ IsNumber ('-' :: digits) := by
  rw [List.all_eq_true] at hdigits
  rw [List.isEmpty_eq_false_iff] at hne
  exact ⟨⟨digits, hne, hdigits, .inl rfl⟩, ⟨digits, hne, hdigits, .inr rfl⟩⟩

theorem cutTime?_number {stem number : List Char} (h : IsNumber number) :
    cutTime? (stem ++ '@' :: number) = some (stem, number) := by
  obtain ⟨digits, hne, hdigits, hnumber⟩ := h
  have hback : ∀ c ∈ digits.reverse, Text.isDecimalDigit c = true := by simpa using hdigits
  have hat : Text.isDecimalDigit '@' = false := by decide
  have hminus : Text.isDecimalDigit '-' = false := by decide
  rcases hnumber with rfl | rfl <;>
    simp [cutTime?, List.takeWhile_append_of_pos hback, List.dropWhile_append_of_pos hback, hat,
      hminus, hne]

/-- What is cut off a text is an `@` and a number at its end. -/
theorem cutTime?_eq_some {body stem number : List Char} :
    cutTime? body = some (stem, number) ↔ body = stem ++ '@' :: number ∧ IsNumber number := by
  refine ⟨fun h => ?_, fun ⟨hbody, hnumber⟩ => hbody ▸ cutTime?_number hnumber⟩
  have hbody := List.takeWhile_append_dropWhile (p := Text.isDecimalDigit) (l := body.reverse)
  rw [← List.reverse_inj, List.reverse_reverse, List.reverse_append] at hbody
  have hdigits : ∀ c ∈ (body.reverse.takeWhile Text.isDecimalDigit).reverse,
      Text.isDecimalDigit c = true := fun c hc =>
    List.mem_takeWhile_imp (List.mem_reverse.mp hc)
  simp only [cutTime?] at h
  split at h
  case isTrue => cases h
  case isFalse hne =>
    have hne := mt List.isEmpty_iff.mpr hne
    split at h
    case h_1 rest hrest =>
      cases h
      rw [hrest] at hbody
      exact ⟨by simpa using hbody.symm, _, hne, hdigits, .inr rfl⟩
    case h_2 rest hrest =>
      cases h
      rw [hrest] at hbody
      exact ⟨by simpa using hbody.symm, _, hne, hdigits, .inl rfl⟩
    case h_3 => cases h

/-- Nothing is cut off a text that does not end so. -/
theorem cutTime?_eq_none {body : List Char} : cutTime? body = none ↔
    ∀ stem number, IsNumber number → body ≠ stem ++ '@' :: number := by
  simp only [Option.eq_none_iff_forall_ne_some, Prod.forall, ne_eq, cutTime?_eq_some, not_and]
  exact forall₂_congr fun stem number => ⟨fun h hnumber hbody => h hbody hnumber,
    fun h hbody hnumber => h hnumber hbody⟩

/-- A state of the event is read if the number at the end, if there is any, is that of a state. The
text in front of it stays. -/
theorem readTime_eq_ok {raw : String} {body rest : List Char} {time : Option Time} :
    readTime raw body = .ok (time, rest) ↔
      (∀ stem number, IsNumber number → body ≠ stem ++ '@' :: number) ∧
        (time, rest) = (none, body) ∨
      ∃ number t, body = rest ++ '@' :: number ∧ IsNumber number ∧
        Decimal.readInt? number = some (Time.toInt t) ∧ time = some t := by
  have hstate : ∀ number t, (Decimal.readInt? number).bind Time.ofInt? = some t ↔
      Decimal.readInt? number = some (Time.toInt t) := fun number t => by
    simp [Option.bind_eq_some_iff, Time.ofInt?_eq_some]
  rw [readTime, ← cutTime?_eq_none]
  constructor
  · intro h
    split at h
    case h_1 hcut =>
      cases h
      exact .inl ⟨hcut, rfl⟩
    case h_2 stem number hcut =>
      split at h
      case h_1 => cases h
      case h_2 t ht =>
        cases h
        obtain ⟨hbody, hnumber⟩ := cutTime?_eq_some.mp hcut
        exact .inr ⟨number, t, hbody, hnumber, (hstate number t).mp ht, rfl⟩
  · rintro (⟨hcut, h⟩ | ⟨number, t, rfl, hnumber, ht, rfl⟩)
    · rw [hcut, h]
    · rw [cutTime?_number hnumber]
      simp only
      rw [(hstate number t).mpr ht]

theorem IsNumber.minus_or_digit {number : List Char} (h : IsNumber number) {c : Char}
    (hc : c ∈ number) : c = '-' ∨ Text.isDecimalDigit c = true := by
  obtain ⟨digits, -, hdigits, rfl | rfl⟩ := h
  · exact .inr (hdigits c hc)
  · exact (List.mem_cons.mp hc).imp_right (hdigits c)

/-! ### What it takes to be read -/

def namesOf (body : List Char) : List (List Char) :=
  (Text.fields '/' (body.dropWhile isFlag)).map Text.trim

/-- The placeholder that flags and names make. -/
def ofBody (time : Option Time) (body : List Char) : Placeholder where
  names := (namesOf body).map String.ofList
  optional := (body.takeWhile isFlag).contains '-'
  literalOnly := (body.takeWhile isFlag).contains '*'
  noLiteral := (body.takeWhile isFlag).contains '~'
  time := time

/-- A placeholder is read if its state can be, not both flags for literals are set and no name is
empty. -/
theorem read_eq_ok {raw : String} {p : Placeholder} : read raw = .ok p ↔
    ∃ time body, readTime raw (Text.trim raw.toList) = .ok (time, body) ∧
      ¬ ((ofBody time body).literalOnly = true ∧ (ofBody time body).noLiteral = true) ∧
      (∀ name ∈ namesOf body, name ≠ []) ∧ ofBody time body = p := by
  rw [read, Outcome.bind_eq_ok]
  constructor
  · rintro ⟨⟨time, body⟩, htime, h⟩
    refine ⟨time, body, htime, ?_⟩
    simp only at h
    split at h
    case isTrue => cases h
    case isFalse hcompatible =>
      split at h
      case isTrue => cases h
      case isFalse hnames =>
        cases h
        refine ⟨by simpa [ofBody] using hcompatible, ?_, rfl⟩
        simpa [namesOf] using hnames
  · rintro ⟨time, body, htime, hcompatible, hnames, rfl⟩
    refine ⟨(time, body), htime, ?_⟩
    simp only
    rw [if_neg, if_neg]
    · rfl
    · simpa [namesOf] using hnames
    · simpa [ofBody] using hcompatible

/-! ### Joined names -/

section
variable (separator : Char)

theorem intercalate_begins (first : List Char) (others : List (List Char)) :
    ∃ rest, [separator].intercalate (first :: others) = first ++ rest := by
  cases others with
  | nil => exact ⟨[], by simp⟩
  | cons second others =>
    exact ⟨_, by rw [List.intercalate_cons_cons, List.append_assoc]⟩

theorem intercalate_ends (others : List (List Char)) (last : List Char) :
    ∃ before, [separator].intercalate (others ++ [last]) = before ++ last ∧
      ∀ c ∈ before.getLast?, c = separator := by
  induction others with
  | nil => exact ⟨[], by simp, by simp⟩
  | cons first others ih =>
    obtain ⟨before, hjoined, hbefore⟩ := ih
    refine ⟨first ++ separator :: before, ?_, ?_⟩
    · rw [List.cons_append, List.intercalate_cons_of_ne_nil (by simp), hjoined]
      simp
    · cases before with
      | nil => simp
      | cons c before => simpa using hbefore

theorem notMem_intercalate {c : Char} {parts : List (List Char)} (hc : c ≠ separator)
    (hparts : ∀ part ∈ parts, c ∉ part) : c ∉ [separator].intercalate parts := by
  induction parts with
  | nil => simp
  | cons first others ih =>
    obtain ⟨hfirst, hothers⟩ := List.forall_mem_cons.mp hparts
    cases others with
    | nil => simpa using hfirst
    | cons second others =>
      rw [List.intercalate_cons_cons]
      simpa [hc] using ⟨hfirst, ih hothers⟩

end

/-! ### Written placeholders -/

/-- A text that may stand in a placeholder as the name of a type. -/
structure IsName (name : String) : Prop where
  nonempty : name.toList ≠ []
  trimmed : Text.Trimmed name.toList
  noSlash : '/' ∉ name.toList
  noPercent : '%' ∉ name.toList

instance (name : String) : Decidable (IsName name) :=
  decidable_of_iff (name.toList ≠ [] ∧ Text.Trimmed name.toList ∧ '/' ∉ name.toList ∧
      '%' ∉ name.toList)
    ⟨fun h => ⟨h.1, h.2.1, h.2.2.1, h.2.2.2⟩,
      fun h => ⟨h.nonempty, h.trimmed, h.noSlash, h.noPercent⟩⟩

/-- What asks for a state of the event. -/
def timeText : Option Time → String
  | none => ""
  | some .past => "@-1"
  | some .default => "@0"
  | some .future => "@1"

theorem timeText_some (time : Time) : ∃ number, (timeText (some time)).toList = '@' :: number ∧
    IsNumber number ∧ number.any Text.isBlank = false ∧
    Decimal.readInt? number = some time.toInt := by
  have hzero := isNumber_digits ['0'] (by decide) (by decide)
  have hone := isNumber_digits ['1'] (by decide) (by decide)
  cases time with
  | past => exact ⟨_, by decide, hone.2, by decide, by decide⟩
  | default => exact ⟨_, by decide, hzero.1, by decide, by decide⟩
  | future => exact ⟨_, by decide, hone.1, by decide, by decide⟩

/-- A placeholder in parts. No name is mistaken for a flag or for the state of the event, as far as
none is asked for. -/
structure Written where
  front : String
  flags : String
  names : List String
  time : Option Time
  back : String
  front_blank : ∀ c ∈ front.toList, Text.isBlank c = true
  flags_flag : ∀ c ∈ flags.toList, isFlag c = true
  compatible : ¬ ('*' ∈ flags.toList ∧ '~' ∈ flags.toList)
  named : names ≠ []
  names_name : ∀ name ∈ names, IsName name
  noFlag : ∀ name ∈ names.head?, ∀ c ∈ name.toList.head?, isFlag c = false
  noTime : time = none → ∀ name ∈ names.getLast?, ∀ stem number, IsNumber number →
    name.toList ≠ stem ++ '@' :: number
  back_blank : ∀ c ∈ back.toList, Text.isBlank c = true

namespace Written
variable (w : Written)

/-- What stands between two percent signs. -/
def text : String :=
  w.front ++ w.flags ++ "/".intercalate w.names ++ timeText w.time ++ w.back

def placeholder : Placeholder where
  names := w.names
  optional := w.flags.toList.contains '-'
  literalOnly := w.flags.toList.contains '*'
  noLiteral := w.flags.toList.contains '~'
  time := w.time

/-- The names with slashes between them. -/
def joined : List Char := ['/'].intercalate (w.names.map String.toList)

theorem joined_begins : ∃ first rest, first ∈ w.names.head? ∧ IsName first ∧
    w.joined = first.toList ++ rest := by
  obtain ⟨first, others, hnames⟩ := List.exists_cons_of_ne_nil w.named
  obtain ⟨rest, hrest⟩ := intercalate_begins '/' first.toList (others.map String.toList)
  refine ⟨first, rest, by simp [hnames], w.names_name first (by simp [hnames]), ?_⟩
  rw [joined, hnames]
  exact hrest

theorem joined_ends : ∃ before last, last ∈ w.names.getLast? ∧ IsName last ∧
    w.joined = before ++ last.toList ∧ ∀ c ∈ before.getLast?, c = '/' := by
  obtain ⟨others, last, hnames⟩ := (List.eq_nil_or_concat' w.names).resolve_left w.named
  obtain ⟨before, hbefore, hslash⟩ := intercalate_ends '/' (others.map String.toList) last.toList
  refine ⟨before, last, by simp [hnames], w.names_name last (by simp [hnames]), ?_, hslash⟩
  rw [joined, hnames, List.map_append]
  exact hbefore

/-- What is left when the blanks around it are taken off. -/
def body : List Char := w.flags.toList ++ (w.joined ++ (timeText w.time).toList)

theorem text_toList : w.text.toList = w.front.toList ++ (w.body ++ w.back.toList) := by
  simp [text, body, joined, String.toList_append, String.toList_intercalate]

/-- Behind the flags and the names stands nothing, or what asks for a state of the event. -/
theorem body_cases : w.time = none ∧ w.body = w.flags.toList ++ w.joined ∨
    ∃ time number, w.time = some time ∧ w.body = w.flags.toList ++ w.joined ++ '@' :: number ∧
      IsNumber number ∧ number.any Text.isBlank = false ∧
      Decimal.readInt? number = some time.toInt := by
  cases htime : w.time with
  | none => exact .inl ⟨rfl, by simp [body, htime, timeText]⟩
  | some time =>
    obtain ⟨number, htext, hnumber⟩ := timeText_some time
    exact .inr ⟨time, number, rfl, by simp [body, htime, htext], hnumber⟩

theorem isBlank_of_isFlag {c : Char} (h : isFlag c = true) : Text.isBlank c = false := by
  simp only [isFlag, Bool.or_eq_true, decide_eq_true_eq] at h
  rcases h with (rfl | rfl) | rfl <;> decide

theorem body_trimmed : Text.Trimmed w.body where
  front c hc := by
    cases hflags : w.flags.toList with
    | nil =>
      obtain ⟨first, rest, -, hfirst, hjoined⟩ := w.joined_begins
      refine hfirst.trimmed.front c ?_
      rwa [body, hflags, hjoined, List.nil_append, List.append_assoc,
        List.head?_append_of_ne_nil _ hfirst.nonempty] at hc
    | cons flag flags =>
      rw [body, hflags, List.cons_append, List.head?_cons, Option.mem_some_iff] at hc
      exact isBlank_of_isFlag (w.flags_flag c (by simp [hflags, hc]))
  back c hc := by
    rcases w.body_cases with ⟨-, hbody⟩ | ⟨-, number, -, hbody, -, hnumber, -⟩
    · obtain ⟨before, last, -, hlast, hjoined, -⟩ := w.joined_ends
      refine hlast.trimmed.back c ?_
      rwa [hbody, hjoined, ← List.append_assoc,
        List.getLast?_append_of_ne_nil _ hlast.nonempty] at hc
    · rw [hbody, List.getLast?_append_of_ne_nil _ (by simp)] at hc
      rcases List.mem_cons.mp (List.mem_of_getLast? hc) with rfl | hc
      · decide
      · simpa using List.any_eq_false.mp hnumber c hc

/-- The names are not mistaken for a state of the event: the `@` of one that spread over flags and
names would be a flag, or have a slash behind it. -/
theorem names_ne_time (htime : w.time = none) (stem number : List Char) :
    IsNumber number → w.flags.toList ++ w.joined ≠ stem ++ '@' :: number := by
  intro hnumber hbody
  obtain ⟨before, last, hlast, -, hjoined, hslash⟩ := w.joined_ends
  have hname := w.noTime htime last hlast
  rw [hjoined, ← List.append_assoc] at hbody
  rcases List.append_eq_append_iff.mp hbody with ⟨rest, -, hend⟩ | ⟨middle, hfront, hend⟩
  · exact hname rest number hnumber hend
  · cases middle with
    | nil => exact hname [] number hnumber hend.symm
    | cons at' middle =>
      obtain ⟨rfl, rfl⟩ := List.cons.inj hend
      rcases List.eq_nil_or_concat' before with rfl | ⟨before, slash, rfl⟩
      · rw [List.append_nil] at hfront
        exact absurd (w.flags_flag '@' (by simp [hfront])) (by decide)
      · obtain rfl : slash = '/' := hslash slash (by simp)
        have hmem : '/' ∈ '@' :: middle := by
          refine List.mem_of_getLast? ?_
          have hends := congrArg List.getLast? hfront
          simpa using hends.symm
        have hslash : '/' ∈ middle := (List.mem_cons.mp hmem).resolve_left (by decide)
        exact absurd (hnumber.minus_or_digit (List.mem_append_left _ hslash)) (by decide)

/-- The state of the event is read, and what is left are flags and names. -/
theorem readTime_body (raw : String) :
    readTime raw w.body = .ok (w.time, w.flags.toList ++ w.joined) := by
  rw [readTime_eq_ok]
  rcases w.body_cases with ⟨htime, hbody⟩ | ⟨time, number, htime, hbody, hnumber, -, hread⟩
  · exact .inl ⟨hbody ▸ w.names_ne_time htime, by rw [htime, hbody]⟩
  · exact .inr ⟨number, time, hbody, hnumber, hread, htime⟩

theorem body_ne_nil : w.body ≠ [] := by
  obtain ⟨first, rest, -, hfirst, hjoined⟩ := w.joined_begins
  simp [body, hjoined, hfirst.nonempty]

/-- Flags are told from names. -/
theorem span_flags : (w.flags.toList ++ w.joined).takeWhile isFlag = w.flags.toList ∧
    (w.flags.toList ++ w.joined).dropWhile isFlag = w.joined := by
  obtain ⟨first, rest, hfirst, hname, hjoined⟩ := w.joined_begins
  have hhead : ∀ c ∈ w.joined.head?, isFlag c = false := by
    rw [hjoined, List.head?_append_of_ne_nil _ hname.nonempty]
    exact w.noFlag first hfirst
  exact Text.span_append w.flags_flag hhead

theorem fields_joined : (Text.fields '/' w.joined).map Text.trim = w.names.map String.toList := by
  rw [Text.fields_eq_splitOn, joined, List.splitOn_intercalate]
  · rw [List.map_map]
    exact List.map_congr_left fun name hname =>
      Text.trim_of_trimmed (w.names_name name hname).trimmed (w.names_name name hname).nonempty
  · simpa using fun name hname => (w.names_name name hname).noSlash
  · simpa using w.named

theorem read_text : read w.text = .ok w.placeholder := by
  obtain ⟨htake, hdrop⟩ := w.span_flags
  have hnames : namesOf (w.flags.toList ++ w.joined) = w.names.map String.toList := by
    rw [namesOf, hdrop, fields_joined]
  have hplaceholder : ofBody w.time (w.flags.toList ++ w.joined) = w.placeholder := by
    simp [ofBody, placeholder, hnames, htake, Function.comp_def]
  refine read_eq_ok.mpr ⟨w.time, w.flags.toList ++ w.joined, ?_, ?_, ?_, hplaceholder⟩
  · rw [text_toList, Text.trim_pad w.front_blank w.back_blank w.body_trimmed w.body_ne_nil,
      readTime_body]
  · simpa [hplaceholder, placeholder] using w.compatible
  · simpa [hnames] using fun name hname => (w.names_name name hname).nonempty

theorem percent_notMem_joined : '%' ∉ w.joined :=
  notMem_intercalate '/' (by decide) (by simpa using fun name hname =>
    (w.names_name name hname).noPercent)

/-- No part of a placeholder has a percent sign in it. -/
theorem percent_notMem_text : '%' ∉ w.text.toList := by
  have hfront : '%' ∉ w.front.toList := fun h => absurd (w.front_blank _ h) (by decide)
  have hflags : '%' ∉ w.flags.toList := fun h => absurd (w.flags_flag _ h) (by decide)
  have hback : '%' ∉ w.back.toList := fun h => absurd (w.back_blank _ h) (by decide)
  have htime : '%' ∉ (timeText w.time).toList := by
    match w.time with
    | none | some .past | some .default | some .future => decide
  simp [text_toList, body, hfront, hflags, hback, htime, w.percent_notMem_joined]

theorem text_ne_nil : w.text.toList ≠ [] := by simp [text_toList, w.body_ne_nil]

end Written

/-! ### Patterns -/

/-- A pattern in parts: a text, and placeholders each with the text behind it. -/
structure Wording where
  lead : String
  places : List (Written × String)
  lead_plain : '%' ∉ lead.toList
  places_plain : ∀ place ∈ places, '%' ∉ place.2.toList

namespace Wording

/-- What follows the first text. -/
def follow (places : List (Written × String)) : List Char :=
  places.flatMap fun place => '%' :: (place.1.text.toList ++ '%' :: place.2.toList)

/-- The whole pattern. -/
def text (w : Wording) : String :=
  w.lead ++ String.join (w.places.map fun place => "%" ++ place.1.text ++ "%" ++ place.2)

def placeholders (w : Wording) : List Placeholder := w.places.map (·.1.placeholder)

theorem text_toList (w : Wording) : w.text.toList = w.lead.toList ++ follow w.places := by
  simp [text, follow, String.toList_append, String.toList_join, List.flatMap_map]

theorem fields_follow {lead : List Char} {places : List (Written × String)} (hlead : '%' ∉ lead)
    (hplaces : ∀ place ∈ places, '%' ∉ place.2.toList) :
    Text.fields '%' (lead ++ follow places) =
      lead :: places.flatMap fun place => [place.1.text.toList, place.2.toList] := by
  rw [Text.fields_eq_splitOn]
  induction places generalizing lead with
  | nil => simpa [follow] using List.splitOn_eq_singleton hlead
  | cons place places ih =>
    obtain ⟨hplace, hrest⟩ := List.forall_mem_cons.mp hplaces
    have hfollow : follow (place :: places) =
        '%' :: (place.1.text.toList ++ '%' :: (place.2.toList ++ follow places)) := by
      simp [follow]
    rw [hfollow, List.splitOn_append_cons_self_of_not_mem hlead,
      List.splitOn_append_cons_self_of_not_mem place.1.percent_notMem_text, ih hplace hrest]
    rfl

/-- Percent signs pair up around the placeholders. -/
theorem bodies_follow (places : List (Written × String)) :
    bodies (places.flatMap fun place => [place.1.text.toList, place.2.toList]) =
      places.map (·.1.text.toList) := by
  induction places with
  | nil => rfl
  | cons place places ih =>
    have hnonempty : place.1.text.toList.isEmpty = false := by simpa using place.1.text_ne_nil
    rw [List.flatMap_cons, List.map_cons, ← ih]
    simp [bodies, hnonempty]

theorem ofPattern_text (w : Wording) : ofPattern w.text = .ok w.placeholders := by
  have hread : (fun place : Written × String => read (String.ofList place.1.text.toList)) =
      fun place => pure place.1.placeholder := by
    funext place
    rw [String.ofList_toList, Written.read_text]
    rfl
  rw [ofPattern, text_toList, fields_follow w.lead_plain w.places_plain, List.tail_cons,
    bodies_follow, List.mapM_map]
  exact (congrArg (w.places.mapM ·) hread).trans List.mapM_pure

end Wording

/-! ### What is read -/

/-- What holds of every placeholder of a pattern. -/
structure Regular (p : Placeholder) : Prop where
  named : p.names ≠ []
  names : ∀ name ∈ p.names, name ≠ "" ∧ Text.Trimmed name.toList
  compatible : ¬ (p.literalOnly = true ∧ p.noLiteral = true)
  time : p.time.map Time.toInt ∈ [none, some (-1), some 0, some 1]

theorem regular_of_read {raw : String} {p : Placeholder} (h : read raw = .ok p) : p.Regular := by
  obtain ⟨time, body, -, hcompatible, hnames, rfl⟩ := read_eq_ok.mp h
  refine ⟨?_, ?_, hcompatible, ?_⟩
  · simp [ofBody, namesOf, Text.fields_eq_splitOn]
  · intro name hname
    obtain ⟨chars, hchars, rfl⟩ := List.mem_map.mp hname
    refine ⟨?_, ?_⟩
    · simpa using hnames chars hchars
    · obtain ⟨field, -, rfl⟩ := List.mem_map.mp hchars
      rw [String.toList_ofList]
      exact Text.trim_trimmed field
  · match time with
    | none | some .past | some .default | some .future => simp [ofBody, Time.toInt]

/-- **Patterns are read as they were written.** However many placeholders a pattern has, if they are
written as they should be, the names, flags and states that are read are those that were written, in
order. Whatever pattern is read, its placeholders have names, all of them trimmed and none empty, no
two flags that exclude each other, and no states of the event but the three that there are. -/
theorem ofPattern_written : (∀ w : Wording, ofPattern w.text = .ok w.placeholders) ∧
    ∀ pattern found, ofPattern pattern = .ok found → ∀ p ∈ found, p.Regular :=
  ⟨Wording.ofPattern_text, fun _ _ hfound =>
    Outcome.forall_of_mapM hfound fun _ _ _ hread => regular_of_read hread⟩

/-- A literal of a kind of structure, which may be left out. -/
def structureKind : Written where
  front := " "
  flags := "-*"
  names := ["structuretype"]
  time := none
  back := ""
  front_blank := List.all_eq_true.mp (by decide)
  flags_flag := List.all_eq_true.mp (by decide)
  compatible := by decide
  named := by decide
  names_name := List.forall_mem_singleton.mpr (by decide)
  noFlag := by
    rintro _ ⟨⟩
    exact (Option.any_eq_false _ _).mp (by decide)
  noTime _ name hname := by
    cases hname
    exact cutTime?_eq_none.mp (by decide)
  back_blank := List.all_eq_true.mp (by decide)

/-- Places and entities, as they were before the event. -/
def formerPlaces : Written where
  front := ""
  flags := "~"
  names := ["locations", "entities"]
  time := some .past
  back := ""
  front_blank := List.all_eq_true.mp (by decide)
  flags_flag := List.all_eq_true.mp (by decide)
  compatible := by decide
  named := by decide
  names_name := List.forall_mem_cons.mpr ⟨by decide, List.forall_mem_singleton.mpr (by decide)⟩
  noFlag := by
    rintro _ ⟨⟩
    exact (Option.any_eq_false _ _).mp (by decide)
  noTime h := nomatch h
  back_blank := List.all_eq_true.mp (by decide)

/-- A pattern with both. -/
def grow : Wording where
  lead := "grow "
  places := [(structureKind, " at "), (formerPlaces, "")]
  lead_plain := by decide
  places_plain := by decide

theorem grow_written :
    grow.text = "grow % -*structuretype% at %~locations/entities@-1%" ∧
    ofPattern "grow % -*structuretype% at %~locations/entities@-1%" = .ok [
      ⟨["structuretype"], true, true, false, none⟩,
      ⟨["locations", "entities"], false, false, true, some .past⟩] ∧
    ∀ p ∈ grow.placeholders, p.Regular := by
  have htext : grow.text = "grow % -*structuretype% at %~locations/entities@-1%" := by decide
  have hread := ofPattern_written.1 grow
  refine ⟨htext, htext ▸ hread, ofPattern_written.2 _ _ hread⟩

end Placeholder

end ScriptEngine

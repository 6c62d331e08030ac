import Mathlib.Data.List.Forall2
import ScriptEngine.Json.Printer
import ScriptEngine.Json.Reading

/-! What was printed is read back.

A text `Writes` a value if a reader takes the value off the front of it, whatever follows and
whatever gap stands before. Pieces that write the items of an array write the array between
brackets, with gaps wherever the two layouts differ; so both layouts of a value without numbers
write it (`Textual.writes_compact`, `Textual.writes_pretty`), a text without white space determines
its value (`compact_injective`), and what was printed one item a line is read back
(`read?_pretty`). -/
namespace ScriptEngine.Json

/-! ### Strings -/

theorem hexValue?_digitChar : ∀ n < 16, hexValue? (Nat.digitChar n) = some n := by decide

/-- A control character is written by its number. -/
theorem numbered?_control {c : Char} (h : c.toNat < 0x20) (rest : List Char) :
    numbered? ('0' :: '0' :: Nat.digitChar (c.toNat / 16) :: Nat.digitChar (c.toNat % 16) :: rest) =
      some (c, rest) := by
  have hhigh := hexValue?_digitChar (c.toNat / 16) (by omega)
  have hlow := hexValue?_digitChar (c.toNat % 16) (by omega)
  have hnumber : 16 * (c.toNat / 16) + c.toNat % 16 = c.toNat := Nat.div_add_mod ..
  have hunit : unit? ('0' :: '0' :: Nat.digitChar (c.toNat / 16) ::
      Nat.digitChar (c.toNat % 16) :: rest) = some (c.toNat, rest) := by
    have hzero : hexValue? '0' = some 0 := by decide
    simp [unit?, hhigh, hlow, hzero, hnumber]
  have hplain : c.toNat < 0xD800 := by omega
  simp [numbered?, hunit, hplain, Char.ofNat_toNat]

/-- A character is read as it is escaped, and no character is escaped by a quote. -/
theorem character?_escape (c : Char) (rest : List Char) :
    character? (escape c ++ rest) = some (c, rest) ∧ (escape c ++ rest).head? ≠ some '"' := by
  unfold escape
  split_ifs with hquote hbackslash _ _ _ _ _ hcontrol
  -- The seven characters that have an escape of their own.
  any_goals
    subst_vars
    exact ⟨rfl, by simp⟩
  · exact ⟨numbered?_control hcontrol rest, by simp⟩
  · exact ⟨by simp [character?, hbackslash, hcontrol], by simpa using hquote⟩

theorem characters?_escape (cs rest : List Char) {fuel : Nat} (hfuel : cs.length ≤ fuel) :
    characters? fuel (cs.flatMap escape ++ '"' :: rest) = some (cs, rest) := by
  induction cs generalizing fuel with
  | nil => cases fuel <;> rfl
  | cons c cs ih =>
    obtain ⟨fuel, rfl⟩ : ∃ fuel', fuel = fuel' + 1 := ⟨fuel - 1, by simp at hfuel; omega⟩
    obtain ⟨hread, hnoquote⟩ := character?_escape c (cs.flatMap escape ++ '"' :: rest)
    have hrest := ih (Nat.le_of_succ_le_succ hfuel)
    rw [List.flatMap_cons, List.append_assoc, characters?, if_neg hnoquote]
    simp [hread, hrest]

theorem length_escape_pos (c : Char) : 0 < (escape c).length := by
  have h := (character?_escape c []).1
  rw [List.append_nil] at h
  refine List.length_pos_of_ne_nil fun hnil => ?_
  rw [hnil] at h
  cases h

/-- A string is read back. -/
theorem stringTail?_escape (s : String) (rest : List Char) :
    stringTail? (s.toList.flatMap escape ++ '"' :: rest) = some (s, rest) := by
  have hlength : s.toList.length ≤ (s.toList.flatMap escape ++ '"' :: rest).length := by
    rw [List.length_append]
    refine Nat.le_add_right_of_le ?_
    induction s.toList with
    | nil => exact Nat.le_refl 0
    | cons c cs ih =>
      have hpos := length_escape_pos c
      rw [List.flatMap_cons, List.length_cons, List.length_append]
      omega
  rw [stringTail?, characters?_escape _ _ hlength]
  simp

/-! ### Gaps -/

/-- Characters that may stand between values and marks. -/
def Gap (g : List Char) : Prop := ∀ c ∈ g, isGap c = true

section
variable {g g' : List Char} {c : Char} {fuel : Nat}

theorem skip_gap (hg : Gap g) (s : List Char) : skip (g ++ s) = skip s :=
  List.dropWhile_append_of_pos hg

theorem skip_mark (hc : isGap c = false) (s : List Char) : skip (c :: s) = c :: s :=
  List.dropWhile_cons_of_neg (by simp [hc])

theorem skip_gap_mark (hg : Gap g) (hc : isGap c = false) (s : List Char) :
    skip (g ++ c :: s) = c :: s := by
  rw [skip_gap hg, skip_mark hc]

theorem value?_gap (hg : Gap g) (s : List Char) : value? fuel (g ++ s) = value? fuel s := by
  cases fuel with
  | zero => rfl
  | succ fuel => rw [value?, value?, skip_gap hg]

theorem gap_nil : Gap [] := List.forall_mem_nil _

theorem gap_cons (hc : isGap c = true) (hg : Gap g) : Gap (c :: g) :=
  List.forall_mem_cons.mpr ⟨hc, hg⟩

theorem gap_newLine (level : Nat) : Gap (newLine level) := by
  intro c hc
  rcases List.mem_cons.mp hc with rfl | hc
  · rfl
  · rw [List.eq_of_mem_replicate hc]
    rfl

/-! ### Pieces of texts -/

/-- A text writes a value: the value is read off the front of it. -/
structure Writes (piece : List Char) (j : Json) : Prop where
  begins : ∃ c rest, piece = c :: rest ∧ isGap c = false ∧ c ≠ ']'
  read : ∀ fuel rest, piece.length < fuel → value? fuel (piece ++ rest) = some (j, rest)

/-- A text writes a member of an object. -/
def WritesMember (piece : List Char) (m : String × Json) : Prop :=
  ∃ g value, Gap g ∧ Writes value m.2 ∧ piece = quote m.1 ++ ':' :: (g ++ value)

/-- What a text begins with says how it is read. -/
theorem Writes.of_cons {piece : List Char} {j : Json} (hc : isGap c = false) (hbracket : c ≠ ']')
    (h : ∀ fuel rest, piece.length < fuel →
      value? (fuel + 1) (c :: (piece ++ rest)) = some (j, rest)) : Writes (c :: piece) j where
  begins := ⟨c, piece, rfl, hc, hbracket⟩
  read fuel rest hfuel := by
    obtain ⟨fuel, rfl⟩ : ∃ fuel', fuel = fuel' + 1 := ⟨fuel - 1, by omega⟩
    exact h fuel rest (Nat.lt_of_succ_lt_succ hfuel)

theorem writes_null : Writes ['n', 'u', 'l', 'l'] .null :=
  .of_cons rfl (by decide) fun _ _ _ => rfl

theorem writes_bool (b : Bool) : Writes (compactChars (.bool b)) (.bool b) := by
  cases b <;> exact .of_cons rfl (by decide) fun _ _ _ => rfl

theorem writes_string (s : String) : Writes (quote s) (.string s) := by
  refine .of_cons rfl (by decide) fun fuel rest _ => ?_
  rw [value?, skip_mark rfl]
  simp [stringTail?_escape]

/-! ### Between brackets -/

theorem separated_cons (separator piece next : List Char) (rest : List (List Char)) :
    separated separator (piece :: next :: rest) =
      piece ++ (separator ++ separated separator (next :: rest)) := by
  rw [separated, List.append_assoc]
  simp

theorem Writes.length_pos {piece : List Char} {j : Json} (h : Writes piece j) :
    0 < piece.length := by
  obtain ⟨c, rest, rfl, _⟩ := h.begins
  exact Nat.succ_pos _

theorem WritesMember.length_pos {piece : List Char} {m : String × Json}
    (h : WritesMember piece m) : 0 < piece.length := by
  obtain ⟨_, _, _, _, rfl⟩ := h
  exact Nat.succ_pos _

/-- The name of a member is read first, then its value. -/
theorem WritesMember.read {piece : List Char} {m : String × Json} (h : WritesMember piece m)
    (rest : List Char) : ∃ s, nameTag? (skip (piece ++ rest)) = some (m.1, s) ∧
      ∀ fuel, piece.length < fuel → value? fuel s = some (m.2, rest) := by
  obtain ⟨g, value, hg, hvalue, rfl⟩ := h
  refine ⟨g ++ (value ++ rest), ?_, fun fuel hfuel => ?_⟩
  · have hquote : quote m.1 ++ ':' :: (g ++ value) ++ rest =
        '"' :: (m.1.toList.flatMap escape ++ '"' :: (':' :: (g ++ (value ++ rest)))) := by
      simp [quote]
    rw [hquote, skip_mark rfl]
    simp [nameTag?, stringTail?_escape, skip_mark (c := ':') rfl]
  · simp only [List.length_append, List.length_cons] at hfuel
    rw [value?_gap hg, hvalue.read fuel rest (by omega)]

theorem items?_gap (hg : Gap g) (s : List Char) : items? fuel (g ++ s) = items? fuel s := by
  cases fuel with
  | zero => rfl
  | succ fuel => rw [items?, items?, value?_gap hg]

theorem members?_gap (hg : Gap g) (s : List Char) : members? fuel (g ++ s) = members? fuel s := by
  cases fuel with
  | zero => rfl
  | succ fuel => rw [members?, members?, skip_gap hg]

/-- Pieces that write the items, with commas between them, write the items of an array. -/
theorem items?_writes (hg : Gap g) (hg' : Gap g') {items : List Json} {pieces : List (List Char)}
    (h : List.Forall₂ Writes pieces items) (hsome : items ≠ []) (rest : List Char)
    (hfuel : (separated (',' :: g) pieces).length + 1 < fuel) :
    items? fuel (separated (',' :: g) pieces ++ (g' ++ ']' :: rest)) = some (items, rest) := by
  induction h generalizing fuel with
  | nil => exact absurd rfl hsome
  | @cons piece item pieces items hitem hrest ih =>
    obtain ⟨fuel, rfl⟩ : ∃ fuel', fuel = fuel' + 1 := ⟨fuel - 1, by omega⟩
    cases hrest with
    | nil =>
      rw [separated] at hfuel ⊢
      have hread := hitem.read fuel (g' ++ ']' :: rest) (by omega)
      simp [items?, hread, skip_gap_mark hg' (c := ']') rfl]
    | @cons next nextItem pieces items hnext hrest =>
      rw [separated_cons] at hfuel ⊢
      simp only [List.length_append, List.length_cons] at hfuel
      have hpos := hitem.length_pos
      have hlater := @ih fuel (List.cons_ne_nil _ _) (by omega)
      have hread := hitem.read fuel
        (',' :: (g ++ (separated (',' :: g) (next :: pieces) ++ (g' ++ ']' :: rest)))) (by omega)
      simp only [List.append_assoc, List.cons_append]
      simp [items?, hread, skip_mark (c := ',') rfl, items?_gap hg, hlater]

/-- Pieces that write the members, with commas between them, write the members of an object. -/
theorem members?_writes (hg : Gap g) (hg' : Gap g') {members : List (String × Json)}
    {pieces : List (List Char)} (h : List.Forall₂ WritesMember pieces members)
    (hsome : members ≠ []) (rest : List Char)
    (hfuel : (separated (',' :: g) pieces).length + 1 < fuel) :
    members? fuel (separated (',' :: g) pieces ++ (g' ++ '\x7d' :: rest)) =
      some (members, rest) := by
  induction h generalizing fuel with
  | nil => exact absurd rfl hsome
  | @cons piece member pieces members hmember hrest ih =>
    obtain ⟨fuel, rfl⟩ : ∃ fuel', fuel = fuel' + 1 := ⟨fuel - 1, by omega⟩
    cases hrest with
    | nil =>
      rw [separated] at hfuel ⊢
      obtain ⟨s, hname, hvalue⟩ := hmember.read (g' ++ '\x7d' :: rest)
      simp [members?, hname, hvalue fuel (by omega), skip_gap_mark hg' (c := '\x7d') rfl]
    | @cons next nextMember pieces members hnext hrest =>
      rw [separated_cons] at hfuel ⊢
      simp only [List.length_append, List.length_cons] at hfuel
      have hpos := hmember.length_pos
      have hlater := @ih fuel (List.cons_ne_nil _ _) (by omega)
      obtain ⟨s, hname, hvalue⟩ := hmember.read
        (',' :: (g ++ (separated (',' :: g) (next :: pieces) ++ (g' ++ '\x7d' :: rest))))
      simp only [List.append_assoc, List.cons_append]
      simp [members?, hname, hvalue fuel (by omega), skip_mark (c := ',') rfl, members?_gap hg,
        hlater]

end

/-! ### Arrays and objects -/

/-- Pieces with separators begin as the first piece does. -/
theorem separated_begins (separator piece : List Char) (pieces : List (List Char)) :
    ∃ rest, separated separator (piece :: pieces) = piece ++ rest := by
  cases pieces with
  | nil => exact ⟨[], by simp [separated]⟩
  | cons next rest => exact ⟨_, separated_cons ..⟩

section
variable {g g' : List Char}

/-- Pieces that write the items write the array, between brackets. -/
theorem writes_array (hg : Gap g) (hg' : Gap g') {items : List Json} {pieces : List (List Char)}
    (h : List.Forall₂ Writes pieces items) (hsome : items ≠ []) :
    Writes ('[' :: (g ++ (separated (',' :: g) pieces ++ (g' ++ [']'])))) (.array items) := by
  refine .of_cons rfl (by decide) fun fuel rest hfuel => ?_
  simp only [List.length_cons, List.length_append] at hfuel
  have hitems := items?_writes hg hg' h hsome rest (by omega : _ < fuel)
  obtain ⟨c, tail, hbegins, hc, hbracket⟩ : ∃ c tail,
      separated (',' :: g) pieces ++ (g' ++ ']' :: rest) = c :: tail ∧ isGap c = false ∧
        c ≠ ']' := by
    cases h with
    | nil => exact absurd rfl hsome
    | @cons piece item pieces items hitem hrest =>
      obtain ⟨c, tail, rfl, hc, hbracket⟩ := hitem.begins
      obtain ⟨later, hlater⟩ := separated_begins (',' :: g) (c :: tail) pieces
      exact ⟨c, _, by rw [hlater]; rfl, hc, hbracket⟩
  rw [hbegins] at hitems
  simp only [List.cons_append, List.append_assoc, List.nil_append]
  rw [value?, skip_mark rfl]
  simp only [skip_gap hg, hbegins, skip_mark hc]
  split
  · next _ _ heq => exact absurd (List.cons.inj heq).1 hbracket
  · simp [hitems]

/-- Pieces that write the members write the object, between braces. -/
theorem writes_object (hg : Gap g) (hg' : Gap g') {members : List (String × Json)}
    {pieces : List (List Char)} (h : List.Forall₂ WritesMember pieces members)
    (hsome : members ≠ []) :
    Writes ('\x7b' :: (g ++ (separated (',' :: g) pieces ++ (g' ++ ['\x7d']))))
      (.object members) := by
  refine .of_cons rfl (by decide) fun fuel rest hfuel => ?_
  simp only [List.length_cons, List.length_append] at hfuel
  have hmembers := members?_writes hg hg' h hsome rest (by omega : _ < fuel)
  obtain ⟨tail, hbegins⟩ : ∃ tail,
      separated (',' :: g) pieces ++ (g' ++ '\x7d' :: rest) = '"' :: tail := by
    cases h with
    | nil => exact absurd rfl hsome
    | @cons piece member pieces members hmember hrest =>
      obtain ⟨_, _, _, _, rfl⟩ := hmember
      obtain ⟨later, hlater⟩ := separated_begins (',' :: g) _ pieces
      exact ⟨_, by rw [hlater]; rfl⟩
  rw [hbegins] at hmembers
  simp only [List.cons_append, List.append_assoc, List.nil_append]
  rw [value?, skip_mark rfl]
  simp only [skip_gap hg, hbegins, skip_mark (c := '"') rfl]
  simp [hmembers]

theorem writes_nil_array : Writes ['[', ']'] (.array []) :=
  .of_cons rfl (by decide) fun _ _ _ => rfl

theorem writes_nil_object : Writes ['\x7b', '\x7d'] (.object []) :=
  .of_cons rfl (by decide) fun _ _ _ => rfl

end

/-! ### Both layouts -/

/-- A value that holds no numbers, whose texts are kept as they are. -/
inductive Textual : Json → Prop where
  | null : Textual .null
  | bool (b : Bool) : Textual (.bool b)
  | string (s : String) : Textual (.string s)
  | array {items : List Json} (h : ∀ item ∈ items, Textual item) : Textual (.array items)
  | object {members : List (String × Json)} (h : ∀ m ∈ members, Textual m.2) :
    Textual (.object members)

theorem compactItems_eq (items : List Json) : compactItems items = items.map compactChars := by
  induction items with
  | nil => rfl
  | cons item items ih => rw [compactItems, ih, List.map_cons]

theorem compactMembers_eq (members : List (String × Json)) :
    compactMembers members = members.map fun m => quote m.1 ++ ':' :: compactChars m.2 := by
  induction members with
  | nil => rfl
  | cons m members ih => rw [compactMembers, ih, List.map_cons]

theorem prettyItems_eq (level : Nat) (items : List Json) :
    prettyItems level items = items.map (prettyChars level) := by
  induction items with
  | nil => rfl
  | cons item items ih => rw [prettyItems, ih, List.map_cons]

theorem prettyMembers_eq (level : Nat) (members : List (String × Json)) :
    prettyMembers level members =
      members.map fun m => quote m.1 ++ ':' :: ' ' :: prettyChars level m.2 := by
  induction members with
  | nil => rfl
  | cons m members ih => rw [prettyMembers, ih, List.map_cons]

/-- A list written item by item. -/
theorem forall₂_map_self {α β : Type} {P : β → α → Prop} {write : α → β} {as : List α}
    (h : ∀ a ∈ as, P (write a) a) : List.Forall₂ P (as.map write) as :=
  List.forall₂_map_left_iff.mpr (List.forall₂_same.mpr h)

/-- Printing without white space writes the value. -/
theorem Textual.writes_compact {j : Json} (h : Textual j) : Writes (compactChars j) j := by
  induction h with
  | null => exact writes_null
  | bool b => exact writes_bool b
  | string s => exact writes_string s
  | @array items _ ih =>
    rw [compactChars, compactItems_eq]
    by_cases hsome : items = []
    · subst hsome
      exact writes_nil_array
    · exact writes_array gap_nil gap_nil (forall₂_map_self ih) hsome
  | @object members _ ih =>
    rw [compactChars, compactMembers_eq]
    by_cases hsome : members = []
    · subst hsome
      exact writes_nil_object
    · exact writes_object gap_nil gap_nil
        (forall₂_map_self fun m hm => ⟨[], _, gap_nil, ih m hm, rfl⟩) hsome

theorem block_cons (opening closing : Char) (level : Nat) {pieces : List (List Char)}
    (h : pieces ≠ []) : block opening closing level pieces =
      opening :: (newLine (level + 1) ++ (separated (',' :: newLine (level + 1)) pieces ++
        (newLine level ++ [closing]))) := by
  rw [block, if_neg (by simpa using h)]
  simp only [List.cons_append, List.append_assoc]

/-- Printing one item a line writes the value, at every level. -/
theorem Textual.writes_pretty {j : Json} (h : Textual j) (level : Nat) :
    Writes (prettyChars level j) j := by
  induction h generalizing level with
  | null => exact writes_null
  | bool b => exact writes_bool b
  | string s => exact writes_string s
  | @array items _ ih =>
    rw [prettyChars, prettyItems_eq]
    by_cases hsome : items = []
    · subst hsome
      exact writes_nil_array
    · rw [block_cons _ _ _ (by simpa using hsome)]
      exact writes_array (gap_newLine _) (gap_newLine _)
        (forall₂_map_self fun item hitem => ih item hitem _) hsome
  | @object members _ ih =>
    rw [prettyChars, prettyMembers_eq]
    by_cases hsome : members = []
    · subst hsome
      exact writes_nil_object
    · rw [block_cons _ _ _ (by simpa using hsome)]
      exact writes_object (gap_newLine _) (gap_newLine _)
        (forall₂_map_self fun m hm => ⟨[' '], _, gap_cons rfl gap_nil, ih m hm _, rfl⟩) hsome

theorem Writes.read? {piece : List Char} {j : Json} (h : Writes piece j) :
    Json.read? (String.ofList piece) = some j := by
  have hread := h.read (piece.length + 1) [] (Nat.lt_succ_self _)
  rw [List.append_nil] at hread
  simp [Json.read?, hread, skip]

theorem Textual.read?_pretty {j : Json} (h : Textual j) : Json.read? j.pretty = some j :=
  (h.writes_pretty 0).read?

theorem Textual.read?_compact {j : Json} (h : Textual j) : Json.read? j.compact = some j :=
  h.writes_compact.read?

theorem compact_injective {j k : Json} (hj : Textual j) (hk : Textual k)
    (h : j.compact = k.compact) : j = k := by
  have hread := hj.read?_compact
  rw [h, hk.read?_compact] at hread
  exact (Option.some.inj hread).symm

end ScriptEngine.Json

/-! Tables that keep their entries in the order they were made.

`get?` is the view of a table: what each operation does is said through it. -/
namespace ScriptEngine

/-- Values under keys, oldest entry first; `insert` keeps the keys apart. -/
structure Table (κ α : Type) where
  entries : List (κ × α)

namespace Table
variable {κ α : Type}

def empty : Table κ α := ⟨[]⟩

def size (t : Table κ α) : Nat := t.entries.length

/-- The keys, oldest first. -/
def keys (t : Table κ α) : List κ := t.entries.map (·.1)

/-- The values, oldest first. -/
def values (t : Table κ α) : List α := t.entries.map (·.2)

def filterKeys (p : κ → Bool) (t : Table κ α) : Table κ α := ⟨t.entries.filter fun e => p e.1⟩

variable [DecidableEq κ]

/-- The value under a key in a list of entries. -/
def find? (k : κ) : List (κ × α) → Option α
  | [] => none
  | e :: rest => if e.1 = k then some e.2 else find? k rest

/-- A value put under a key, in place of the one that was there. -/
def put (k : κ) (a : α) : List (κ × α) → List (κ × α)
  | [] => [(k, a)]
  | e :: rest => if e.1 = k then (k, a) :: rest else e :: put k a rest

def get? (t : Table κ α) (k : κ) : Option α := find? k t.entries

def insert (t : Table κ α) (k : κ) (a : α) : Table κ α := ⟨put k a t.entries⟩

/-! ### What the operations do to the view -/

@[simp] theorem get?_empty (k : κ) : (empty : Table κ α).get? k = none := rfl

theorem find?_put (k k' : κ) (a : α) (entries : List (κ × α)) :
    find? k' (put k a entries) = if k = k' then some a else find? k' entries := by
  induction entries with
  | nil => simp [put, find?]
  | cons e rest ih =>
    by_cases he : e.1 = k
    · subst he
      by_cases hk : e.1 = k' <;> simp [put, find?, hk]
    · by_cases hk : e.1 = k'
      · subst hk
        simp [put, find?, he, Ne.symm he]
      · simp [put, find?, he, hk, ih]

theorem get?_insert (t : Table κ α) (k k' : κ) (a : α) :
    (t.insert k a).get? k' = if k = k' then some a else t.get? k' :=
  find?_put k k' a t.entries

theorem find?_filter (p : κ → Bool) (k : κ) (entries : List (κ × α)) :
    find? k (entries.filter fun e => p e.1) = if p k then find? k entries else none := by
  induction entries with
  | nil => simp [find?]
  | cons e rest ih =>
    by_cases hp : p e.1 <;> by_cases hk : e.1 = k
    · subst hk
      simp [find?, hp]
    · simp [find?, hp, hk, ih]
    · subst hk
      simp [hp, ih]
    · simp [find?, hp, hk, ih]

theorem get?_filterKeys (p : κ → Bool) (t : Table κ α) (k : κ) :
    (t.filterKeys p).get? k = if p k then t.get? k else none :=
  find?_filter p k t.entries

/-! ### Keys -/

theorem mem_of_find? {k : κ} {a : α} {entries : List (κ × α)} (h : find? k entries = some a) :
    (k, a) ∈ entries := by
  induction entries with
  | nil => exact nomatch h
  | cons e rest ih =>
    rw [find?] at h
    split at h
    · rename_i he
      obtain rfl := Option.some.inj h
      exact he ▸ List.mem_cons_self ..
    · exact List.mem_cons_of_mem e (ih h)

theorem find?_of_mem {k : κ} {a : α} {entries : List (κ × α)} (hkeys : (entries.map (·.1)).Nodup)
    (h : (k, a) ∈ entries) : find? k entries = some a := by
  induction entries with
  | nil => exact absurd h List.not_mem_nil
  | cons e rest ih =>
    rw [List.map_cons, List.nodup_cons] at hkeys
    rcases List.mem_cons.mp h with rfl | h
    · exact if_pos rfl
    · have hne : e.1 ≠ k := fun he => hkeys.1 (List.mem_map.mpr ⟨(k, a), h, he.symm⟩)
      rw [find?, if_neg hne]
      exact ih hkeys.2 h

/-- A key that was there keeps its place; a new one comes last. -/
theorem keys_put (k : κ) (a : α) (entries : List (κ × α)) : (put k a entries).map (·.1) =
    if k ∈ entries.map (·.1) then entries.map (·.1) else entries.map (·.1) ++ [k] := by
  induction entries with
  | nil => simp [put]
  | cons e rest ih =>
    by_cases he : e.1 = k
    · simp [put, he]
    · rw [put, if_neg he, List.map_cons, List.map_cons, ih]
      by_cases hk : k ∈ rest.map (·.1) <;> simp [hk, Ne.symm he]

/-- An entry that is put into a table keeps the keys apart. -/
theorem nodup_keys_insert {t : Table κ α} (h : t.keys.Nodup) (k : κ) (a : α) :
    (t.insert k a).keys.Nodup := by
  have hkeys : (t.insert k a).keys = if k ∈ t.keys then t.keys else t.keys ++ [k] :=
    keys_put k a t.entries
  rw [hkeys]
  split
  · exact h
  · rename_i hk
    rw [List.nodup_append]
    refine ⟨h, by simp, fun a ha b hb hab => hk ?_⟩
    rw [← List.mem_singleton.mp hb, ← hab]
    exact ha

/-- Where keys are apart, the entries are what is found under the keys. -/
theorem mem_entries {t : Table κ α} (h : t.keys.Nodup) {k : κ} {a : α} :
    (k, a) ∈ t.entries ↔ t.get? k = some a :=
  ⟨find?_of_mem h, mem_of_find?⟩

theorem mem_keys {t : Table κ α} (h : t.keys.Nodup) {k : κ} :
    k ∈ t.keys ↔ (t.get? k).isSome = true := by
  rw [keys, List.mem_map, Option.isSome_iff_exists]
  constructor
  · rintro ⟨⟨k, a⟩, he, rfl⟩
    exact ⟨a, (mem_entries h).mp he⟩
  · rintro ⟨a, ha⟩
    exact ⟨(k, a), (mem_entries h).mpr ha, rfl⟩

end Table

end ScriptEngine

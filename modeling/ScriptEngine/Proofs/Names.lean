import Mathlib.Data.List.Find
import Mathlib.Data.List.TakeWhile
import ScriptEngine.Proofs.Patterns

/-! What the key name of a type denotes.

A type answers to the name of its key, to its plural and to its name for readers. Keys are
distinct, but nothing keeps the other names of one type apart from the key name of another:
all of them are searched together, in the order of registration. So the name of a key denotes
the first type before it that is also called so, or else the type of the key
(`own_name_denotes`). A name that denotes a type denotes the same one ever after. -/
namespace ScriptEngine

/-- A name is the plural of a type, or its name for readers in whatever case. -/
def Descriptor.alsoCalled {σ : Type} (d : Descriptor σ) (name : String) : Bool :=
  name == d.plural ||
    match d.userName with
    | none => false
    | some u => Text.eqIgnoringCase u name

theorem Descriptor.answersTo_eq {σ : Type} (d : Descriptor σ) (name : String) :
    d.answersTo name = (name == d.key.name || d.alsoCalled name) := by
  rw [answersTo, alsoCalled]
  exact Bool.or_assoc ..

theorem Descriptor.answersTo_key {σ : Type} (d : Descriptor σ) : d.answersTo d.key.name = true := by
  rw [answersTo_eq, beq_self_eq_true, Bool.true_or]

namespace TypeRegistry
variable {σ : Type} {r r' : TypeRegistry σ} {k : TypeKey}

def earlier (r : TypeRegistry σ) (k : TypeKey) : List (Descriptor σ) :=
  r.types.takeWhile fun d => d.key != k

theorem earlier_ne {d : Descriptor σ} (hd : d ∈ r.earlier k) : d.key ≠ k := by
  simpa using List.mem_takeWhile_imp hd

/-- A registered type stands right after those that were registered before it. -/
theorem earlier_split (hk : k ∈ r.keys) :
    ∃ d after, d.key = k ∧ r.types = r.earlier k ++ d :: after := by
  have hfound : ∃ d ∈ r.types, ¬ (d.key != k) = true := by
    obtain ⟨d, hd, rfl⟩ := List.mem_map.mp hk
    exact ⟨d, hd, by simp⟩
  cases hrest : r.types.dropWhile fun d => d.key != k with
  | nil =>
    obtain ⟨d, hd, hkey⟩ := hfound
    exact absurd (List.dropWhile_eq_nil_iff.mp hrest d hd) hkey
  | cons d after =>
    refine ⟨d, after, ?_, ?_⟩
    · have hhead := List.head?_dropWhile_not (fun d : Descriptor σ => d.key != k) r.types
      rw [hrest] at hhead
      simpa using hhead
    · rw [earlier, ← hrest, List.takeWhile_append_dropWhile]

/-- A type before another answers to the name of that one only if it is also called so. -/
theorem earlier_answersTo {d : Descriptor σ} (hd : d ∈ r.earlier k) :
    d.answersTo k.name = d.alsoCalled k.name := by
  have hne : (k.name == d.key.name) = false := by
    rw [beq_eq_false_iff_ne]
    exact fun he => earlier_ne hd (TypeKey.eq_of_name he.symm)
  rw [Descriptor.answersTo_eq, hne, Bool.false_or]

/-- What the name of a registered key denotes. -/
structure OwnName (r : TypeRegistry σ) (k : TypeKey) : Prop where
  /-- It denotes the first earlier type that is also called so, or else the type of the key. -/
  denotes : r.resolve? k.name =
    some (((r.earlier k).find? fun d => d.alsoCalled k.name).elim k (·.key))
  own_iff : r.resolve? k.name = some k ↔ ∀ d ∈ r.earlier k, d.alsoCalled k.name = false
  /-- In any case it denotes a registered type that answers to it. -/
  answers : r.Answers k.name
  fixed : ∀ r', Relation.ReflTransGen Step r r' → r'.resolve? k.name = r.resolve? k.name

theorem resolve?_own (hk : k ∈ r.keys) : r.resolve? k.name =
    some (((r.earlier k).find? fun d => d.alsoCalled k.name).elim k (·.key)) := by
  obtain ⟨d, after, rfl, hsplit⟩ := earlier_split hk
  have hearlier : (r.earlier d.key).find? (fun e => e.answersTo d.key.name) =
      (r.earlier d.key).find? fun e => e.alsoCalled d.key.name :=
    List.find?_congr fun e he => earlier_answersTo he
  rw [resolve?, hsplit, List.find?_append, hearlier, List.find?_cons, d.answersTo_key]
  cases (r.earlier d.key).find? fun e => e.alsoCalled d.key.name <;> rfl

theorem resolve?_own_iff (hk : k ∈ r.keys) :
    r.resolve? k.name = some k ↔ ∀ d ∈ r.earlier k, d.alsoCalled k.name = false := by
  rw [resolve?_own hk]
  cases hfound : (r.earlier k).find? fun d => d.alsoCalled k.name with
  | none => simpa using hfound
  | some d =>
    have hd := List.mem_of_find?_eq_some hfound
    have hcalled := List.find?_some hfound
    refine iff_of_false (fun he => earlier_ne hd (Option.some.inj he)) fun hnone => ?_
    exact absurd hcalled (ne_true_of_eq_false (hnone d hd))

/-- A name goes on denoting what it denotes. -/
theorem resolve?_later {name : String} (hname : r.resolve? name = some k)
    (hsteps : Relation.ReflTransGen Step r r') : r'.resolve? name = some k := by
  induction hsteps with
  | refl => exact hname
  | tail _ hstep ih =>
    obtain ⟨d, hd, hkey⟩ := Option.map_eq_some_iff.mp ih
    rw [resolve?, hstep.types_prefix.find?_eq_some hd, Option.map_some, hkey]

/-- **What the name of a key denotes**: the first type registered before it that has the name as
plural or name for readers, and only where there is none the type of the key itself. -/
theorem own_name_denotes (hk : k ∈ r.keys) : r.OwnName k where
  denotes := resolve?_own hk
  own_iff := resolve?_own_iff hk
  answers := resolve?_isSome.mp (by rw [resolve?_own hk]; rfl)
  fixed r' hsteps := by
    rw [resolve?_own hk]
    exact resolve?_later (resolve?_own hk) hsteps

/-- Types of players: of one, and of several. -/
def teamed : TypeRegistry Unit :=
  { initial with types := [.object, .ofShape ⟨"player"⟩ .i64, .ofShape ⟨"players"⟩ .i64] }

theorem teamed_reachable : teamed.Reachable :=
  Reachable.initial
    |>.step (.type (d := .ofShape ⟨"player"⟩ .i64) rfl)
    |>.step (.type (d := .ofShape ⟨"players"⟩ .i64) rfl)

/-- The plural of the first type is the key name of the second one, and denotes the first. -/
theorem players_denotes_player : teamed.OwnName ⟨"player"⟩ ∧ teamed.OwnName ⟨"players"⟩ ∧
    teamed.resolve? "player" = some ⟨"player"⟩ ∧ teamed.resolve? "players" = some ⟨"player"⟩ :=
  ⟨own_name_denotes (by decide), own_name_denotes (by decide), by decide, by decide⟩

/-- So the name of a registered key need not denote the type of the key. -/
theorem own_name_taken : ¬ ∀ r : TypeRegistry Unit, r.Reachable → ∀ k ∈ r.keys,
    r.resolve? k.name = some k :=
  fun hall => absurd (hall teamed teamed_reachable ⟨"players"⟩ (by decide)) (by decide)

end TypeRegistry

end ScriptEngine

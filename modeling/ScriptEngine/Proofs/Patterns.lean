import ScriptEngine.Grammar.Registry
import ScriptEngine.Proofs.Registration

/-! What it takes for patterns to pass.

Patterns pass if all of their placeholders can be read and every name in them is one that a
registered type answers to (`validatePatterns_ok`). -/
namespace ScriptEngine
variable {σ : Type}

namespace Outcome
variable {α β : Type}

theorem forM_eq_ok {f : α → Outcome Unit} {as : List α} :
    as.forM f = .ok () ↔ ∀ a ∈ as, f a = .ok () := by
  induction as with
  | nil => simp [List.forM, pure, Except.pure]
  | cons a as ih =>
    have hcons : (a :: as).forM f = f a >>= fun _ => as.forM f := rfl
    rw [hcons, bind_eq_ok, List.forall_mem_cons, ih]
    exact ⟨fun ⟨_, ha, has⟩ => ⟨ha, has⟩, fun ⟨ha, has⟩ => ⟨(), ha, has⟩⟩

/-- All items can be had, each with a property, exactly if each of them can be. -/
theorem mapM_eq_ok {f : α → Outcome β} {P : β → Prop} {as : List α} :
    (∃ bs, as.mapM f = .ok bs ∧ ∀ b ∈ bs, P b) ↔ ∀ a ∈ as, ∃ b, f a = .ok b ∧ P b := by
  induction as with
  | nil => simp [pure, Except.pure]
  | cons a as ih =>
    rw [List.forall_mem_cons, ← ih]
    constructor
    · rintro ⟨bs, hbs, hP⟩
      rw [List.mapM_cons] at hbs
      obtain ⟨b, hb, hbs⟩ := bind_eq_ok.mp hbs
      obtain ⟨rest, hrest, hbs⟩ := bind_eq_ok.mp hbs
      cases hbs
      rw [List.forall_mem_cons] at hP
      exact ⟨⟨b, hb, hP.1⟩, rest, hrest, hP.2⟩
    · rintro ⟨⟨b, hb, hPb⟩, rest, hrest, hPrest⟩
      refine ⟨b :: rest, ?_, List.forall_mem_cons.mpr ⟨hPb, hPrest⟩⟩
      rw [List.mapM_cons, hb, hrest]
      rfl

/-- If each item that can be had has a property, those had from a list have it. -/
theorem forall_of_mapM {f : α → Outcome β} {P : β → Prop} {as : List α} {bs : List β}
    (h : as.mapM f = .ok bs) (hP : ∀ a ∈ as, ∀ b, f a = .ok b → P b) : ∀ b ∈ bs, P b := by
  have heach : ∀ a ∈ as, ∃ b, f a = .ok b ∧ True := mapM_eq_ok.mp ⟨bs, h, fun _ _ => trivial⟩
  obtain ⟨bs', h', hall⟩ := mapM_eq_ok.mpr fun a ha =>
    (heach a ha).imp fun b hb => ⟨hb.1, hP a ha b hb.1⟩
  cases h.symm.trans h'
  exact hall

end Outcome

/-- A registered type answers to a name, and is found by it. -/
def TypeRegistry.Answers (types : TypeRegistry σ) (name : String) : Prop :=
  ∃ d ∈ types.types, d.answersTo name = true ∧ types.resolve? name = some d.key

theorem TypeRegistry.resolve?_isSome {types : TypeRegistry σ} {name : String} :
    (types.resolve? name).isSome = true ↔ types.Answers name := by
  rw [resolve?, Option.isSome_map]
  constructor
  · intro h
    obtain ⟨d, hd⟩ := Option.isSome_iff_exists.mp h
    have hanswers := List.find?_some hd
    refine ⟨d, List.mem_of_find?_eq_some hd, hanswers, ?_⟩
    rw [resolve?, hd]
    rfl
  · rintro ⟨d, hd, hanswers, _⟩
    exact List.find?_isSome.mpr ⟨d, hd, hanswers⟩

/-- All placeholders in the patterns of a construct can be read, and each of the names in them is
one that a registered type answers to. -/
def Construct.PatternsResolve (c : Construct σ) (types : TypeRegistry σ) : Prop :=
  ∀ pattern ∈ c.patterns, ∃ found, Placeholder.ofPattern pattern = .ok found ∧
    ∀ p ∈ found, ∀ name ∈ p.names, types.Answers name

theorem TypeRegistry.Extends.patternsResolve {types types' : TypeRegistry σ}
    (h : types.Extends types') {c : Construct σ} (hc : c.PatternsResolve types) :
    c.PatternsResolve types' := by
  simp only [Construct.PatternsResolve, TypeRegistry.Answers, TypeRegistry.resolve?, h.types]
  exact hc

namespace Grammar
variable {types : TypeRegistry σ}

/-- So it is with all constructs of a grammar. -/
def PatternsResolve (g : Grammar σ) (types : TypeRegistry σ) : Prop :=
  ∀ c ∈ g.constructs, c.PatternsResolve types

theorem unknownName?_eq_none {found : List Placeholder} : unknownName? types found = none ↔
    ∀ p ∈ found, ∀ name ∈ p.names, types.Answers name := by
  simp only [unknownName?, List.find?_eq_none, List.forall_mem_flatMap, Option.isNone_iff_eq_none,
    ← Option.isSome_iff_ne_none, ← TypeRegistry.resolve?_isSome]

theorem unknownPattern?_eq_none {place : Nat} {all : List (List Placeholder)} :
    unknownPattern? types place all = none ↔ ∀ found ∈ all, unknownName? types found = none := by
  induction all generalizing place with
  | nil => simp [unknownPattern?]
  | cons found rest ih =>
    rw [unknownPattern?, List.forall_mem_cons]
    cases unknownName? types found with
    | some name => simp
    | none => simpa using ih

theorem validateConstruct_ok {c : Construct σ} :
    validateConstruct types c = .ok () ↔ c.PatternsResolve types := by
  rw [Construct.PatternsResolve, ← Outcome.mapM_eq_ok, validateConstruct, Outcome.bind_eq_ok]
  refine exists_congr fun all => and_congr_right fun _ => ?_
  simp only [← unknownName?_eq_none]
  rw [← @unknownPattern?_eq_none _ _ 0]
  cases unknownPattern? types 0 all with
  | none => simp [pure, Except.pure]
  | some found => simp [refuse]

/-- Patterns pass exactly if they can be read and name registered types. -/
theorem validatePatterns_ok {g : Grammar σ} :
    g.validatePatterns types = .ok () ↔ g.PatternsResolve types := by
  rw [validatePatterns, Outcome.forM_eq_ok]
  exact forall₂_congr fun c _ => validateConstruct_ok

end Grammar

end ScriptEngine

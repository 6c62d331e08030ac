import Mathlib.Tactic.Tauto
import ScriptEngine.Proofs.Accepted

/-! The seals of a registry and its report.

The seals of the two halves, and the report, tell which sealing commands a registry has accepted
(`Tells`): each half is sealed by its own command or with the whole, once, and the report comes
with the whole only. `performAll_reported` says what follows for every run of commands. Seal and
report agree as long as one of the halves was not sealed on its own; a registry of which both
halves were is sealed, has no report, and is never given one. -/
namespace ScriptEngine.Registry
variable {σ : Type} {r r' : Registry σ} {past : List (Command σ)}

/-! ### One command -/

/-- What a command does to the seals and to the report. -/
structure Marks (r : Registry σ) (c : Command σ) (r' : Registry σ) : Prop where
  types : r'.types.isSealed = true ↔ r.types.isSealed = true ∨ c = .sealTypes ∨ c = .sealAll
  grammar : r'.grammar.isSealed = true ↔
    r.grammar.isSealed = true ∨ c = .sealGrammar ∨ c = .sealAll
  report : r'.report.isSome = true ↔ r.report.isSome = true ∨ c = .sealAll

/-- Only the sealing commands touch seals and report. -/
theorem Takes.marks {c : Command σ} (h : r.Takes c r') : r.Marks c r' := by
  induction h with
  | type => constructor <;> simp [withTypes]
  | converter _ ih =>
    exact ⟨by simpa using ih.types, by simpa using ih.grammar, by simpa using ih.report⟩
  | edge => constructor <;> simp [withTypes]
  | comparator => constructor <;> simp [withTypes]
  | @construct c =>
    have hsame : (r.grammar.insert c).isSealed = r.grammar.isSealed := by
      rcases r.grammar.insert_cases c with ⟨rank, h⟩ | h | h
      all_goals exact congrArg (·.isSealed) h
    constructor <;> simp [withGrammar, hsame]
  | sealTypes htypes =>
    obtain ⟨_, rfl⟩ := TypeRegistry.sealed_ok.mp htypes
    constructor <;> simp [withTypes]
  | sealGrammar hgrammar =>
    obtain ⟨_, rfl⟩ := Grammar.sealed_ok.mp hgrammar
    constructor <;> simp [withGrammar]
  | sealAll _ htypes hgrammar =>
    obtain ⟨_, rfl⟩ := TypeRegistry.sealed_ok.mp htypes
    obtain ⟨_, rfl⟩ := Grammar.sealed_ok.mp hgrammar
    constructor <;> simp

/-! ### Runs of commands -/

/-- The seals and the report of a registry tell which sealing commands it has accepted. -/
structure Tells (r : Registry σ) (past : List (Command σ)) : Prop where
  types : r.types.isSealed = true ↔ Command.sealTypes ∈ past ∨ Command.sealAll ∈ past
  grammar : r.grammar.isSealed = true ↔ Command.sealGrammar ∈ past ∨ Command.sealAll ∈ past
  report : r.report.isSome = true ↔ Command.sealAll ∈ past
  /-- The whole is sealed while both halves are open, and they are sealed with it. -/
  apart : Command.sealAll ∈ past → Command.sealTypes ∉ past ∧ Command.sealGrammar ∉ past

theorem initial_tells (config : Config) : (initial config : Registry σ).Tells [] := by
  constructor <;> simp [initial, TypeRegistry.initial, Grammar.initial]

theorem Tells.step (h : r.Tells past) {c : Command σ} (hc : r.Takes c r') :
    r'.Tells (past ++ [c]) := by
  have hmarks := hc.marks
  have hmem : ∀ x, x ∈ past ++ [c] ↔ x ∈ past ∨ c = x := fun x => by
    rw [List.mem_append, List.mem_singleton, @eq_comm _ x]
  -- A half that is sealed accepts no seal, its own or that of the whole.
  have htypes : c = .sealTypes ∨ c = .sealAll →
      ¬(Command.sealTypes ∈ past ∨ Command.sealAll ∈ past) := fun hseal => by
    rw [← h.types, hc.isOpen.1 (by rcases hseal with rfl | rfl <;> rfl)]
    exact Bool.false_ne_true
  have hgrammar : c = .sealGrammar ∨ c = .sealAll →
      ¬(Command.sealGrammar ∈ past ∨ Command.sealAll ∈ past) := fun hseal => by
    rw [← h.grammar, hc.isOpen.2 (by rcases hseal with rfl | rfl <;> rfl)]
    exact Bool.false_ne_true
  constructor <;> simp only [hmem]
  · rw [hmarks.types, h.types]
    exact or_or_or_comm
  · rw [hmarks.grammar, h.grammar]
    exact or_or_or_comm
  · rw [hmarks.report, h.report]
  · rintro (hall | rfl)
    · obtain ⟨hnoTypes, hnoGrammar⟩ := h.apart hall
      exact ⟨(·.elim hnoTypes fun hown => htypes (.inl hown) (.inr hall)),
        (·.elim hnoGrammar fun hown => hgrammar (.inl hown) (.inr hall))⟩
    · exact ⟨(·.elim (fun hown => htypes (.inr rfl) (.inl hown)) fun hown => nomatch hown),
        (·.elim (fun hown => hgrammar (.inr rfl) (.inl hown)) fun hown => nomatch hown)⟩

theorem Tells.performAll (hr : r.Sound) (h : r.Tells past) (cs : List (Command σ)) :
    (r.performAll cs).Tells (past ++ r.accepted cs) :=
  performAll_induction (fun _ h hc => h.step hc) hr h cs

/-! ### Seal and report -/

/-- What the seal of a registry says about its report, where the registry has accepted some
commands. -/
structure Reported (r : Registry σ) (past : List (Command σ)) : Prop where
  /-- The fingerprint comes with the report. -/
  fingerprint : r.fingerprint?.isSome = r.report.isSome
  /-- There is a report once the whole was sealed. -/
  report : r.report.isSome = true ↔ Command.sealAll ∈ past
  /-- A registry with a report is sealed. -/
  sealed : r.report.isSome = true → r.isSealed = true
  /-- Sealed registries are the ones with a report, unless both halves were sealed on their own. -/
  agree : (r.isSealed = true ↔ r.report.isSome = true) ↔
    ¬(Command.sealTypes ∈ past ∧ Command.sealGrammar ∈ past)
  /-- After a half was sealed on its own there is no report, whatever comes later. -/
  halves : Command.sealTypes ∈ past ∨ Command.sealGrammar ∈ past →
    ∀ more, (r.performAll more).report = none

theorem Tells.reported (hr : r.Sound) (h : r.Tells past) : r.Reported past where
  fingerprint := by rw [fingerprint?, Option.isSome_map]
  report := h.report
  sealed := hr.reported
  agree := by
    have hapart := h.apart
    rw [isSealed, Bool.and_eq_true, h.types, h.grammar, h.report]
    tauto
  halves hhalf more := by
    have hlater := h.performAll hr more
    rw [← Option.not_isSome_iff_eq_none, hlater.report]
    intro hall
    obtain ⟨hnoTypes, hnoGrammar⟩ := hlater.apart hall
    rcases hhalf with hhalf | hhalf
    · exact hnoTypes (List.mem_append_left _ hhalf)
    · exact hnoGrammar (List.mem_append_left _ hhalf)

/-- **Seal and report.** After any commands, whether they were accepted or not, a registry is
sealed exactly if it has a report, unless both halves were sealed on their own. -/
theorem performAll_reported (config : Config) (given : List (Command σ)) :
    ((initial config).performAll given).Reported ((initial config).accepted given) :=
  ((initial_tells config).performAll (initial_sound config) given).reported
    ((initial_sound config).performAll given).2

/-- A registry of which both halves were sealed on their own is sealed, and has no report. -/
theorem halves_unreported : ¬∀ given : List (Command Unit),
    ((initial .default).performAll given).isSealed = true ↔
      ((initial .default).performAll given).report.isSome = true := by
  intro hagree
  have hsealed : ((initial .default).performAll [Command.sealTypes (σ := Unit),
      .sealGrammar]).isSealed = true := by decide
  have hreport : ((initial .default).performAll [Command.sealTypes (σ := Unit),
      .sealGrammar]).report.isSome = false := by decide
  exact absurd ((hagree _).mp hsealed) (ne_true_of_eq_false hreport)

end ScriptEngine.Registry

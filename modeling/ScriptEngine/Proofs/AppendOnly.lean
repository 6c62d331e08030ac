import Mathlib.Data.List.InsertIdx
import ScriptEngine.Proofs.Commands

/-! Registries only grow.

An accepted command does one thing to a registry (`Takes`), and keeps all that was there,
in its order (`Keeps`). The commands to a half that is sealed are all refused, so such a
half is never changed again. `appendOnly` says so of every run of commands, accepted or
not, from the registry before any registration. -/
namespace ScriptEngine
variable {σ : Type}

/-! ### What is kept -/

/-- The second registry of types has what the first one has, in the same order, and every edge
between the same two types; if the first one is sealed they are the same. -/
structure TypeRegistry.Grows (r r' : TypeRegistry σ) : Prop where
  types : r.types <+: r'.types
  registered : r.registered <+: r'.registered
  edges : ∀ {a b e}, r.entry? a b = some e → r'.entry? a b = some e
  comparators : r.comparators <+: r'.comparators
  closed : r.isSealed = true → r' = r

/-- The second grammar has what the first one has, in the same order; if the first one is sealed
they are the same. -/
structure Grammar.Grows (g g' : Grammar σ) : Prop where
  expressions : g.expressions.Sublist g'.expressions
  statements : g.statements <+: g'.statements
  events : g.events <+: g'.events
  closed : g.isSealed = true → g' = g

/-- Both halves of the second registry have what those of the first one have. The settings are the
same, and so is the report if there was one. -/
structure Registry.Keeps (r r' : Registry σ) : Prop where
  types : r.types.Grows r'.types
  grammar : r.grammar.Grows r'.grammar
  config : r'.config = r.config
  report : ∀ report, r.report = some report → r'.report = some report

namespace TypeRegistry
variable {r r' r'' : TypeRegistry σ}

theorem Grows.refl (r : TypeRegistry σ) : r.Grows r :=
  ⟨List.prefix_rfl, List.prefix_rfl, id, List.prefix_rfl, fun _ => rfl⟩

theorem Grows.trans (h : r.Grows r') (h' : r'.Grows r'') : r.Grows r'' where
  types := h.types.trans h'.types
  registered := h.registered.trans h'.registered
  edges he := h'.edges (h.edges he)
  comparators := h.comparators.trans h'.comparators
  closed hsealed := by
    have hsame : r' = r := h.closed hsealed
    subst hsame
    exact h'.closed hsealed

/-- While a registry is open, it is enough that nothing gets lost. -/
theorem Grows.ofOpen (hopen : r.isSealed = false) (htypes : r.types <+: r'.types)
    (hregistered : r.registered <+: r'.registered)
    (hedges : ∀ {a b e}, r.entry? a b = some e → r'.entry? a b = some e)
    (hcomparators : r.comparators <+: r'.comparators) : r.Grows r' :=
  ⟨htypes, hregistered, hedges, hcomparators,
    fun hsealed => absurd hsealed (ne_true_of_eq_false hopen)⟩

theorem Grows.withType (hopen : r.isSealed = false) (d : Descriptor σ) :
    r.Grows { r with types := r.types ++ [d] } :=
  .ofOpen hopen (List.prefix_append ..) List.prefix_rfl id List.prefix_rfl

theorem Grows.withComparator (hopen : r.isSealed = false) (c : Comparator σ) :
    r.Grows { r with comparators := r.comparators ++ [c] } :=
  .ofOpen hopen List.prefix_rfl List.prefix_rfl id (List.prefix_append ..)

/-- An edge is only put between types that had none. -/
theorem entry?_withEdge {e e' : Edge σ} {a b : TypeKey} (hnone : r.entry? e.source e.target = none)
    (h : r.entry? a b = some e') :
    entry? { r with registered := r.registered ++ [e] } a b = some e' := by
  rw [entry?_eq_some] at h ⊢
  rcases h with h | ⟨hregistered, hcomposed⟩
  · exact .inl (registeredEdge?_withEdge h)
  · refine .inr ⟨?_, hcomposed⟩
    have hother : (e.source == a && e.target == b) = false := by
      by_contra hsame
      obtain ⟨rfl, rfl⟩ : e.source = a ∧ e.target = b := by simpa using hsame
      rw [(entry?_eq_none.mp hnone).2] at hcomposed
      cases hcomposed
    simp only [registeredEdge?, List.find?_append] at hregistered ⊢
    rw [hregistered, List.find?_singleton, hother]
    rfl

theorem Grows.withEdge {e : Edge σ} (hopen : r.isSealed = false)
    (hnone : r.entry? e.source e.target = none) :
    r.Grows { r with registered := r.registered ++ [e] } :=
  .ofOpen hopen List.prefix_rfl (List.prefix_append ..) (entry?_withEdge hnone) List.prefix_rfl

theorem Grows.sealed {s : TypeRegistry σ} (hs : r.sealed = .ok s) : r.Grows s := by
  obtain ⟨hopen, _⟩ := sealed_ok.mp hs
  have hextends := sealed_extends hs
  exact .ofOpen hopen (hextends.types ▸ List.prefix_rfl) (hextends.registered ▸ List.prefix_rfl)
    hextends.kept (sealed_comparators hs ▸ List.prefix_rfl)

end TypeRegistry

namespace Grammar
variable {g g' g'' : Grammar σ}

theorem Grows.refl (g : Grammar σ) : g.Grows g :=
  ⟨List.Sublist.refl _, List.prefix_rfl, List.prefix_rfl, fun _ => rfl⟩

theorem Grows.trans (h : g.Grows g') (h' : g'.Grows g'') : g.Grows g'' where
  expressions := h.expressions.trans h'.expressions
  statements := h.statements.trans h'.statements
  events := h.events.trans h'.events
  closed hsealed := by
    have hsame : g' = g := h.closed hsealed
    subst hsame
    exact h'.closed hsealed

/-- A construct is put at the end of its rank, of the statements or of the events. -/
theorem insert_cases (g : Grammar σ) (c : Construct σ) :
    (∃ rank, g.insert c = g.insertExpression c rank) ∨
      g.insert c = { g with statements := g.statements ++ [c] } ∨
      g.insert c = { g with events := g.events ++ [c] } := by
  unfold Grammar.insert
  cases c.form.rank? with
  | some rank => exact .inl ⟨rank, rfl⟩
  | none =>
    cases c.form.isStatement with
    | true => exact .inr (.inl rfl)
    | false => exact .inr (.inr rfl)

theorem Grows.insert (hopen : g.isSealed = false) (c : Construct σ) : g.Grows (g.insert c) := by
  have hclosed : g.isSealed = true → g.insert c = g :=
    fun hsealed => absurd hsealed (ne_true_of_eq_false hopen)
  rcases g.insert_cases c with ⟨rank, h⟩ | h | h <;> rw [h] at hclosed ⊢
  · exact ⟨List.sublist_insertIdx .., List.prefix_rfl, List.prefix_rfl, hclosed⟩
  · exact ⟨.refl _, List.prefix_append .., List.prefix_rfl, hclosed⟩
  · exact ⟨.refl _, List.prefix_rfl, List.prefix_append .., hclosed⟩

theorem Grows.sealed (hg : g.sealed = .ok g') : g.Grows g' := by
  obtain ⟨hopen, rfl⟩ := sealed_ok.mp hg
  exact ⟨.refl _, List.prefix_rfl, List.prefix_rfl,
    fun hsealed => absurd hsealed (ne_true_of_eq_false hopen)⟩

/-- Each rank of expressions ends within the expressions. -/
def Bounded (g : Grammar σ) : Prop := ∀ rank, g.rankEnds rank ≤ g.expressions.length

/-- A construct that is put in its place is there, beside all others. -/
theorem insert_perm (hg : g.Bounded) (c : Construct σ) :
    (g.insert c).constructs.Perm (c :: g.constructs) := by
  rcases g.insert_cases c with ⟨rank, h⟩ | h | h <;> rw [h, constructs, constructs]
  · have hplace := (List.perm_insertIdx c g.expressions (hg rank)).append_left
      (g.events ++ g.statements)
    exact hplace.trans List.perm_middle
  · show (g.events ++ (g.statements ++ [c]) ++ g.expressions).Perm _
    rw [← List.append_assoc, List.append_assoc _ [c]]
    exact List.perm_middle
  · show (g.events ++ [c] ++ g.statements ++ g.expressions).Perm _
    rw [List.append_assoc, List.append_assoc, List.append_assoc]
    exact List.perm_middle

theorem Bounded.insert (hg : g.Bounded) (c : Construct σ) : (g.insert c).Bounded := by
  rcases g.insert_cases c with ⟨rank, h⟩ | h | h <;> rw [h]
  · intro other
    have hlength : (g.expressions.insertIdx (g.rankEnds rank) c).length =
        g.expressions.length + 1 := List.length_insertIdx_of_le_length (hg rank) _
    have hother := hg other
    show (if rank.index ≤ other.index then g.rankEnds other + 1 else g.rankEnds other) ≤
      (g.expressions.insertIdx (g.rankEnds rank) c).length
    rw [hlength]
    split <;> omega
  · exact hg
  · exact hg

end Grammar

namespace Registry
variable {r r' r'' : Registry σ}

theorem Keeps.refl (r : Registry σ) : r.Keeps r := ⟨.refl _, .refl _, rfl, fun _ h => h⟩

theorem Keeps.trans (h : r.Keeps r') (h' : r'.Keeps r'') : r.Keeps r'' :=
  ⟨h.types.trans h'.types, h.grammar.trans h'.grammar, h'.config.trans h.config,
    fun report hreport => h'.report report (h.report report hreport)⟩

/-! ### What is added -/

/-- What every registry keeps to: it has no report before it is sealed, and ranks end within the
expressions. -/
structure Sound (r : Registry σ) : Prop where
  reported : r.report.isSome = true → r.isSealed = true
  bounded : r.grammar.Bounded

theorem initial_sound (config : Config) : (initial config : Registry σ).Sound :=
  ⟨(fun h => nomatch h), fun _ => Nat.le_refl 0⟩

/-- The one thing that an accepted command does. -/
inductive Takes (r : Registry σ) : Command σ → Registry σ → Prop where
  | type {d} : r.types.isSealed = false → d.key ∉ r.types.keys →
      Takes r (.type d) (r.withTypes { r.types with types := r.types.types ++ [d] })
  | converter {source target input output convert r'} :
      Takes r (.edge (.typed source target input output convert)) r' →
      Takes r (.converter source target input output convert) r'
  | edge {e} : r.types.isSealed = false → r.types.entry? e.source e.target = none →
      Takes r (.edge e) (r.withTypes { r.types with registered := r.types.registered ++ [e] })
  | comparator {c} : r.types.isSealed = false → r.types.comparator? c.left c.right = none →
      Takes r (.comparator c)
        (r.withTypes { r.types with comparators := r.types.comparators ++ [c] })
  | construct {c} : r.grammar.isSealed = false →
      (r.grammar.insert c).constructs.Perm (c :: r.grammar.constructs) →
      Takes r (.construct c) (r.withGrammar (r.grammar.insert c))
  | sealTypes {types} : r.types.sealed = .ok types → Takes r .sealTypes (r.withTypes types)
  | sealGrammar {grammar} : r.grammar.sealed = .ok grammar →
      Takes r .sealGrammar (r.withGrammar grammar)
  | sealAll {types grammar} : r.checkSealable = .ok () → r.types.sealed = .ok types →
      r.grammar.sealed = .ok grammar →
      Takes r .sealAll { r with
        types := types, grammar := grammar, report := some (.ofRegistries types grammar) }

theorem apply_takes (hr : r.Sound) {c : Command σ} (h : r.apply c = .ok r') : r.Takes c r' := by
  cases c with
  | type d =>
    obtain ⟨types, htypes, rfl⟩ := Outcome.map_eq_ok.mp h
    obtain ⟨hopen, hnew, _, rfl⟩ := TypeRegistry.registerType_ok.mp htypes
    exact .type hopen hnew
  | converter source target input output convert =>
    obtain ⟨types, htypes, rfl⟩ := Outcome.map_eq_ok.mp h
    obtain ⟨_, _, hedge⟩ := TypeRegistry.registerConverter_ok.mp htypes
    obtain ⟨hopen, _, _, _, hnone, rfl⟩ := TypeRegistry.registerEdge_ok.mp hedge
    exact .converter (.edge hopen hnone)
  | edge e =>
    obtain ⟨types, htypes, rfl⟩ := Outcome.map_eq_ok.mp h
    obtain ⟨hopen, _, _, _, hnone, rfl⟩ := TypeRegistry.registerEdge_ok.mp htypes
    exact .edge hopen hnone
  | comparator c =>
    obtain ⟨types, htypes, rfl⟩ := Outcome.map_eq_ok.mp h
    obtain ⟨hopen, _, _, hnone, rfl⟩ := TypeRegistry.registerComparator_ok.mp htypes
    exact .comparator hopen hnone
  | construct c =>
    obtain ⟨grammar, hgrammar, rfl⟩ := Outcome.map_eq_ok.mp h
    obtain ⟨hopen, _, rfl⟩ := Grammar.register_ok.mp hgrammar
    exact .construct hopen (Grammar.insert_perm hr.bounded c)
  | sealTypes =>
    obtain ⟨types, htypes, rfl⟩ := Outcome.map_eq_ok.mp h
    exact .sealTypes htypes
  | sealGrammar =>
    obtain ⟨grammar, hgrammar, rfl⟩ := Outcome.map_eq_ok.mp h
    exact .sealGrammar hgrammar
  | sealAll =>
    obtain ⟨_, hsealable, h⟩ := Outcome.bind_eq_ok.mp h
    obtain ⟨types, htypes, h⟩ := Outcome.bind_eq_ok.mp h
    obtain ⟨grammar, hgrammar, h⟩ := Outcome.bind_eq_ok.mp h
    cases h
    exact .sealAll hsealable htypes hgrammar

/-- A registry with a report is sealed. -/
theorem Sound.report_none (hr : r.Sound) (hopen : r.types.isSealed = false ∨
    r.grammar.isSealed = false) : r.report = none := by
  cases hreport : r.report with
  | none => rfl
  | some =>
    have hsealed := hr.reported (by rw [hreport]; rfl)
    rw [isSealed, Bool.and_eq_true] at hsealed
    rcases hopen with hopen | hopen
    · exact absurd hsealed.1 (ne_true_of_eq_false hopen)
    · exact absurd hsealed.2 (ne_true_of_eq_false hopen)

theorem Keeps.ofTypes {types : TypeRegistry σ} (h : r.types.Grows types) :
    r.Keeps (r.withTypes types) := ⟨h, .refl _, rfl, fun _ hreport => hreport⟩

theorem Keeps.ofGrammar {grammar : Grammar σ} (h : r.grammar.Grows grammar) :
    r.Keeps (r.withGrammar grammar) := ⟨.refl _, h, rfl, fun _ hreport => hreport⟩

/-- An accepted command keeps all that was there. -/
theorem Takes.keeps (hr : r.Sound) {c : Command σ} (h : r.Takes c r') : r.Keeps r' := by
  induction h with
  | type hopen => exact .ofTypes (.withType hopen _)
  | converter _ ih => exact ih
  | edge hopen hnone => exact .ofTypes (.withEdge hopen hnone)
  | comparator hopen => exact .ofTypes (.withComparator hopen _)
  | construct hopen => exact .ofGrammar (.insert hopen _)
  | sealTypes htypes => exact .ofTypes (.sealed htypes)
  | sealGrammar hgrammar => exact .ofGrammar (.sealed hgrammar)
  | sealAll _ htypes hgrammar =>
    refine ⟨.sealed htypes, .sealed hgrammar, rfl, fun report hreport => ?_⟩
    rw [hr.report_none (.inl (TypeRegistry.sealed_ok.mp htypes).1)] at hreport
    cases hreport

theorem Sound.withHalves (hr : r.Sound) (hopen : r.types.isSealed = false ∨
    r.grammar.isSealed = false) (types : TypeRegistry σ) {grammar : Grammar σ}
    (hgrammar : grammar.Bounded) :
    ({ r with types := types, grammar := grammar } : Registry σ).Sound := by
  refine ⟨fun h => ?_, hgrammar⟩
  have hnone : ({ r with types := types, grammar := grammar } : Registry σ).report = none :=
    hr.report_none hopen
  rw [hnone] at h
  cases h

theorem Takes.sound (hr : r.Sound) {c : Command σ} (h : r.Takes c r') : r'.Sound := by
  induction h with
  | type hopen => exact hr.withHalves (.inl hopen) _ hr.bounded
  | converter _ ih => exact ih
  | edge hopen => exact hr.withHalves (.inl hopen) _ hr.bounded
  | comparator hopen => exact hr.withHalves (.inl hopen) _ hr.bounded
  | construct hopen => exact hr.withHalves (.inr hopen) _ (hr.bounded.insert _)
  | sealTypes htypes =>
    exact hr.withHalves (.inl (TypeRegistry.sealed_ok.mp htypes).1) _ hr.bounded
  | sealGrammar hgrammar =>
    obtain ⟨hopen, rfl⟩ := Grammar.sealed_ok.mp hgrammar
    exact hr.withHalves (.inr hopen) _ hr.bounded
  | sealAll _ htypes hgrammar =>
    obtain ⟨_, rfl⟩ := TypeRegistry.sealed_ok.mp htypes
    obtain ⟨_, rfl⟩ := Grammar.sealed_ok.mp hgrammar
    exact ⟨fun _ => rfl, hr.bounded⟩

/-! ### Runs of commands -/

/-- The registry after some commands, of which some may be refused. -/
def performAll (r : Registry σ) (cs : List (Command σ)) : Registry σ :=
  cs.foldl (fun r c => (Act.perform c.acts r).2) r

/-- One command keeps all that was there, whether it is accepted or refused. -/
theorem Sound.perform (hr : r.Sound) (c : Command σ) :
    r.Keeps (Act.perform c.acts r).2 ∧ (Act.perform c.acts r).2.Sound := by
  rw [perform_acts]
  cases h : r.apply c with
  | error => exact ⟨.refl r, hr⟩
  | ok r' =>
    have htakes := apply_takes hr h
    exact ⟨htakes.keeps hr, htakes.sound hr⟩

theorem Sound.performAll (hr : r.Sound) (cs : List (Command σ)) :
    r.Keeps (r.performAll cs) ∧ (r.performAll cs).Sound := by
  induction cs generalizing r with
  | nil => exact ⟨.refl r, hr⟩
  | cons c cs ih =>
    obtain ⟨hkeeps, hsound⟩ := hr.perform c
    obtain ⟨hrest, hlast⟩ := ih hsound
    exact ⟨hkeeps.trans hrest, hlast⟩

end Registry

/-- Whether a command is given to the types. -/
def Command.onTypes : Command σ → Bool
  | .type _ => true
  | .converter .. => true
  | .edge _ => true
  | .comparator _ => true
  | .construct _ => false
  | .sealTypes => true
  | .sealGrammar => false
  | .sealAll => true

/-- Whether a command is given to the grammar. -/
def Command.onGrammar : Command σ → Bool
  | .construct _ => true
  | .sealGrammar => true
  | .sealAll => true
  | _ => false

namespace Registry
variable {r r' : Registry σ}

/-- An accepted command finds the half open that it is given to. -/
theorem Takes.isOpen {c : Command σ} (h : r.Takes c r') :
    (c.onTypes = true → r.types.isSealed = false) ∧
      (c.onGrammar = true → r.grammar.isSealed = false) := by
  induction h with
  | type hopen => exact ⟨fun _ => hopen, fun h => nomatch h⟩
  | converter _ ih => exact ih
  | edge hopen => exact ⟨fun _ => hopen, fun h => nomatch h⟩
  | comparator hopen => exact ⟨fun _ => hopen, fun h => nomatch h⟩
  | construct hopen => exact ⟨(fun h => nomatch h), fun _ => hopen⟩
  | sealTypes htypes => exact ⟨fun _ => (TypeRegistry.sealed_ok.mp htypes).1, fun h => nomatch h⟩
  | sealGrammar hgrammar =>
    exact ⟨(fun h => nomatch h), fun _ => (Grammar.sealed_ok.mp hgrammar).1⟩
  | sealAll _ htypes hgrammar =>
    exact ⟨fun _ => (TypeRegistry.sealed_ok.mp htypes).1,
      fun _ => (Grammar.sealed_ok.mp hgrammar).1⟩

/-- What holds of a registry, whatever commands it is given. -/
structure AppendOnly (r : Registry σ) : Prop where
  /-- This is how the engine gives commands to a registry. -/
  given : ∀ (c : Command σ) s,
    ((Registration.command c).run.run r).run s = ⟨Act.perform c.acts r, s, []⟩
  /-- A command that is refused leaves the registry as it was, and is refused for a fault of
  configuration. -/
  refused : ∀ (c : Command σ) e r', Act.perform c.acts r = (.error e, r') →
    r' = r ∧ ∃ fault, e = .configuration fault
  /-- One that is accepted does one thing and keeps all that was there. -/
  accepted : ∀ (c : Command σ) r', Act.perform c.acts r = (.ok (), r') → r.Takes c r' ∧ r.Keeps r'
  /-- Where a half is sealed, all commands to it are refused. -/
  closed : ∀ c : Command σ, (c.onTypes = true ∧ r.types.isSealed = true) ∨
      (c.onGrammar = true ∧ r.grammar.isSealed = true) →
    ∃ fault, Act.perform c.acts r = (.error (.configuration fault), r)
  /-- Both halves are sealed at once if they are open, and their patterns can be read if that is
  asked for. -/
  sealable : (∃ r', Act.perform Command.sealAll.acts r = (.ok (), r')) ↔
    r.types.isSealed = false ∧ r.grammar.isSealed = false ∧
      (r.config.validatePatterns = true → r.grammar.validatePatterns r.types = .ok ())
  /-- Whatever comes later, all is kept. -/
  later : ∀ cs, r.Keeps (r.performAll cs)

theorem sealed_ok (r : Registry σ) : (∃ r', r.sealed = .ok r') ↔ r.checkSealable = .ok () := by
  constructor
  · rintro ⟨r', h⟩
    obtain ⟨_, hsealable, _⟩ := Outcome.bind_eq_ok.mp h
    exact hsealable
  · intro hsealable
    obtain ⟨htypes, hgrammar, _⟩ := checkSealable_ok.mp hsealable
    have htypesSealed := TypeRegistry.sealed_ok.mpr ⟨htypes, rfl⟩
    have hgrammarSealed := Grammar.sealed_ok.mpr ⟨hgrammar, rfl⟩
    rw [Registry.sealed, hsealable, htypesSealed, hgrammarSealed]
    exact ⟨_, rfl⟩

theorem Sound.grows (hr : r.Sound) : r.AppendOnly where
  given c s := command_run c r s
  refused c e r' h := by
    rw [perform_acts] at h
    obtain ⟨hrefused, hsame⟩ := settle_error h
    exact ⟨hsame, r.apply_byFault c e hrefused⟩
  accepted c r' h := by
    rw [perform_acts, settle_ok] at h
    have htakes := apply_takes hr h
    exact ⟨htakes, htakes.keeps hr⟩
  closed c hclosed := by
    rw [perform_acts]
    cases h : r.apply c with
    | error e =>
      obtain ⟨fault, rfl⟩ := r.apply_byFault c e h
      exact ⟨fault, rfl⟩
    | ok r' =>
      obtain ⟨htypes, hgrammar⟩ := (apply_takes hr h).isOpen
      rcases hclosed with ⟨hon, hsealed⟩ | ⟨hon, hsealed⟩
      · exact absurd hsealed (ne_true_of_eq_false (htypes hon))
      · exact absurd hsealed (ne_true_of_eq_false (hgrammar hon))
  sealable := by
    rw [← checkSealable_ok, ← sealed_ok]
    exact exists_congr fun r' => by rw [perform_acts, settle_ok, apply]
  later cs := (hr.performAll cs).1

/-- **Registries are append-only.** After any commands, whether they were accepted or not, any
other command is all or nothing: refused, it changes nothing; accepted, it adds one thing and keeps
all others in their order. A half once sealed is never changed again. -/
theorem appendOnly (config : Config) (past : List (Command σ)) :
    ((initial config).performAll past).AppendOnly :=
  ((initial_sound config).performAll past).2.grows

end Registry

end ScriptEngine

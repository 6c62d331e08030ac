import ScriptEngine.Proofs.AppendOnly

/-! What a registry holds.

An accepted command puts what it registers to what there was (`Adds`). So whatever commands a
registry was given, it holds what those that it accepted registered, all of it and nothing else
(`Records`). -/
namespace ScriptEngine
variable {σ : Type}

/-! ### What a command registers -/

namespace Command

@[simp] def type? : Command σ → Option (Descriptor σ)
  | .type d => some d
  | _ => none

@[simp] def edge? : Command σ → Option (Edge σ)
  | .converter source target input output convert =>
    some (.typed source target input output convert)
  | .edge e => some e
  | _ => none

@[simp] def comparator? : Command σ → Option (Comparator σ)
  | .comparator c => some c
  | _ => none

@[simp] def construct? : Command σ → Option (Construct σ)
  | .construct c => some c
  | _ => none

theorem filterMap_concat {α : Type} (f : Command σ → Option α) (past : List (Command σ))
    (c : Command σ) : (past ++ [c]).filterMap f = past.filterMap f ++ (f c).toList := by
  rw [List.filterMap_append, List.filterMap_cons]
  cases f c <;> rfl

end Command

/-! ### What is there after a command -/

namespace Grammar
variable {g : Grammar σ}

theorem insert_events (g : Grammar σ) (c : Construct σ) :
    (g.insert c).events = g.events ++ [c].filter (·.kind == .event) := by
  obtain ⟨name, form, patterns, produce⟩ := c
  cases form with
  | event => rfl
  | _ => exact (List.append_nil g.events).symm

theorem insert_statements (g : Grammar σ) (c : Construct σ) :
    (g.insert c).statements = g.statements ++ [c].filter (·.form.isStatement) := by
  obtain ⟨name, form, patterns, produce⟩ := c
  cases form with
  | condition => rfl
  | effect => rfl
  | _ => exact (List.append_nil g.statements).symm

theorem Bounded.insert_expressions (hg : g.Bounded) (c : Construct σ) :
    (g.insert c).expressions.Perm (g.expressions ++ [c].filter (·.kind == .expression)) := by
  obtain ⟨name, form, patterns, produce⟩ := c
  cases form with
  | expression rank =>
    exact (List.perm_insertIdx _ g.expressions (hg rank)).trans
      (List.perm_append_singleton _ g.expressions).symm
  | _ => exact .of_eq (List.append_nil g.expressions).symm

end Grammar

namespace Registry
variable {r r' : Registry σ} {past : List (Command σ)}

/-- The commands that a registry accepts of those that it is given one after the other. -/
def accepted (r : Registry σ) : List (Command σ) → List (Command σ)
  | [] => []
  | c :: cs =>
    match r.apply c with
    | .error _ => r.accepted cs
    | .ok r' => c :: r'.accepted cs

/-- A registry has what some commands registered, all of it and nothing else, besides the universal
type. Expressions stand by rank, all the rest in the order of registration. -/
structure Records (r : Registry σ) (past : List (Command σ)) : Prop where
  types : r.types.types = .object :: past.filterMap Command.type?
  converters : r.types.registered = past.filterMap Command.edge?
  comparators : r.types.comparators = past.filterMap Command.comparator?
  events : r.grammar.events = (past.filterMap Command.construct?).filter (·.kind == .event)
  statements : r.grammar.statements =
    (past.filterMap Command.construct?).filter (·.form.isStatement)
  expressions : r.grammar.expressions.Perm
    ((past.filterMap Command.construct?).filter (·.kind == .expression))

theorem initial_records (config : Config) : (initial config : Registry σ).Records [] :=
  ⟨rfl, rfl, rfl, rfl, rfl, .refl _⟩

/-- What the second registry has besides the first one is what a command registers. -/
structure Adds (r : Registry σ) (c : Command σ) (r' : Registry σ) : Prop where
  types : r'.types.types = r.types.types ++ c.type?.toList
  converters : r'.types.registered = r.types.registered ++ c.edge?.toList
  comparators : r'.types.comparators = r.types.comparators ++ c.comparator?.toList
  events : r'.grammar.events = r.grammar.events ++ c.construct?.toList.filter (·.kind == .event)
  statements : r'.grammar.statements =
    r.grammar.statements ++ c.construct?.toList.filter (·.form.isStatement)
  expressions : r'.grammar.expressions.Perm
    (r.grammar.expressions ++ c.construct?.toList.filter (·.kind == .expression))

theorem Takes.adds (hr : r.Sound) {c : Command σ} (h : r.Takes c r') : r.Adds c r' := by
  induction h with
  | type => constructor <;> simp [withTypes]
  | converter _ ih =>
    exact ⟨ih.types, ih.converters, ih.comparators, ih.events, ih.statements, ih.expressions⟩
  | edge => constructor <;> simp [withTypes]
  | comparator => constructor <;> simp [withTypes]
  | construct =>
    refine ⟨?_, ?_, ?_, Grammar.insert_events .., Grammar.insert_statements ..,
      hr.bounded.insert_expressions _⟩ <;> simp [withGrammar]
  | sealTypes htypes =>
    have hextends := TypeRegistry.sealed_extends htypes
    have hcomparators := TypeRegistry.sealed_comparators htypes
    constructor <;> simp [withTypes, hextends.types, hextends.registered, hcomparators]
  | sealGrammar hgrammar =>
    obtain ⟨_, rfl⟩ := Grammar.sealed_ok.mp hgrammar
    constructor <;> simp [withGrammar]
  | sealAll _ htypes hgrammar =>
    have hextends := TypeRegistry.sealed_extends htypes
    have hcomparators := TypeRegistry.sealed_comparators htypes
    obtain ⟨_, rfl⟩ := Grammar.sealed_ok.mp hgrammar
    constructor <;> simp [hextends.types, hextends.registered, hcomparators]

/-- What an accepted command registers is put to what there was, and nothing gets lost. -/
theorem Records.step (h : r.Records past) {c : Command σ} (hc : r.Adds c r') :
    r'.Records (past ++ [c]) := by
  constructor <;> rw [Command.filterMap_concat]
  · rw [hc.types, h.types, List.cons_append]
  · rw [hc.converters, h.converters]
  · rw [hc.comparators, h.comparators]
  · rw [hc.events, h.events, List.filter_append]
  · rw [hc.statements, h.statements, List.filter_append]
  · rw [List.filter_append]
    exact hc.expressions.trans (h.expressions.append_right _)

theorem performAll_append (r : Registry σ) (cs more : List (Command σ)) :
    r.performAll (cs ++ more) = (r.performAll cs).performAll more := List.foldl_append

theorem performAll_cons (r : Registry σ) (c : Command σ) (cs : List (Command σ)) :
    r.performAll (c :: cs) =
      match r.apply c with
      | .error _ => r.performAll cs
      | .ok r' => r'.performAll cs := by
  have hfirst : r.performAll (c :: cs) = (Act.perform c.acts r).2.performAll cs := rfl
  rw [hfirst, perform_acts]
  cases r.apply c <;> rfl

/-- What each accepted command keeps true, a run of commands does, whatever it was refused. -/
theorem performAll_induction {P : Registry σ → List (Command σ) → Prop}
    (hstep : ∀ {r past c r'}, r.Sound → P r past → r.Takes c r' → P r' (past ++ [c]))
    (hr : r.Sound) (h : P r past) (cs : List (Command σ)) :
    P (r.performAll cs) (past ++ r.accepted cs) := by
  induction cs generalizing r past with
  | nil => exact (List.append_nil past).symm ▸ h
  | cons c cs ih =>
    rw [performAll_cons, accepted]
    cases hc : r.apply c with
    | error => exact ih hr h
    | ok r' =>
      have htakes := apply_takes hr hc
      have hrest := ih (htakes.sound hr) (hstep hr h htakes)
      rw [List.append_assoc] at hrest
      exact hrest

/-- Whatever was refused, what was accepted is there. -/
theorem Records.performAll (hr : r.Sound) (h : r.Records past) (cs : List (Command σ)) :
    (r.performAll cs).Records (past ++ r.accepted cs) :=
  performAll_induction (fun hr h hc => h.step (hc.adds hr)) hr h cs

/-- An accepted command leaves types that a host can get. -/
theorem apply_reachable (hr : r.types.Reachable) {c : Command σ} (h : r.apply c = .ok r') :
    r'.types.Reachable := by
  cases c with
  | type =>
    obtain ⟨types, htypes, rfl⟩ := Outcome.map_eq_ok.mp h
    exact hr.step (.type htypes)
  | converter =>
    obtain ⟨types, htypes, rfl⟩ := Outcome.map_eq_ok.mp h
    exact hr.step (.converter htypes)
  | edge =>
    obtain ⟨types, htypes, rfl⟩ := Outcome.map_eq_ok.mp h
    exact hr.step (.edge htypes)
  | comparator =>
    obtain ⟨types, htypes, rfl⟩ := Outcome.map_eq_ok.mp h
    exact hr.step (.comparator htypes)
  | construct =>
    obtain ⟨grammar, _, rfl⟩ := Outcome.map_eq_ok.mp h
    exact hr
  | sealTypes =>
    obtain ⟨types, htypes, rfl⟩ := Outcome.map_eq_ok.mp h
    exact hr.step (.sealed htypes)
  | sealGrammar =>
    obtain ⟨grammar, _, rfl⟩ := Outcome.map_eq_ok.mp h
    exact hr
  | sealAll =>
    obtain ⟨_, _, h⟩ := Outcome.bind_eq_ok.mp h
    obtain ⟨types, htypes, h⟩ := Outcome.bind_eq_ok.mp h
    obtain ⟨grammar, _, h⟩ := Outcome.bind_eq_ok.mp h
    cases h
    exact hr.step (.sealed htypes)

theorem performAll_reachable (hr : r.types.Reachable) (cs : List (Command σ)) :
    (r.performAll cs).types.Reachable := by
  induction cs generalizing r with
  | nil => exact hr
  | cons c cs ih =>
    rw [performAll_cons]
    cases hc : r.apply c with
    | error => exact ih hr
    | ok r' => exact ih (apply_reachable hr hc)

end Registry

end ScriptEngine

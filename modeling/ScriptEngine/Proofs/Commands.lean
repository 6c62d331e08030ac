import ScriptEngine.Engine.Manifest
import ScriptEngine.Proofs.Registration

/-! What commands do to a registry.

A registry is one thing that commands write to, in place. What each of them does, one
check and one write after the other, stands in `Command.acts`; if a check failed after
something was written, that would stay. But all that can fail is checked before the first
write, also when both halves are sealed at once (`perform_acts`). So a command that is
refused leaves the registry as it was.

Whatever is refused is refused for a fault of configuration (`apply_byFault`). -/
namespace ScriptEngine
variable {σ : Type}

/-! ### Commands in place -/

/-- One thing that a command does to a registry: it makes sure of something, or it writes. -/
inductive Act (σ : Type) where
  | check (what : Registry σ → Outcome Unit)
  | write (how : Registry σ → Registry σ)

namespace Act

/-- Does one thing after the other, in place, up to the first check that fails. What was written
until then stays. -/
def perform : List (Act σ) → Registry σ → Outcome Unit × Registry σ
  | [], r => (.ok (), r)
  | .check what :: rest, r =>
    match what r with
    | .error e => (.error e, r)
    | .ok _ => perform rest r
  | .write how :: rest, r => perform rest (how r)

/-- Makes sure that something is not so. -/
def refuseIf (p : Registry σ → Bool) (fault : ConfigurationFault) : Act σ :=
  .check fun r => if p r then refuse fault else .ok ()

def writeTypes (how : TypeRegistry σ → TypeRegistry σ) : Act σ :=
  .write fun r => r.withTypes (how r.types)

def writeGrammar (how : Grammar σ → Grammar σ) : Act σ :=
  .write fun r => r.withGrammar (how r.grammar)

/-- Puts an edge between types already checked. -/
def insertEdge (e : Edge σ) : List (Act σ) := [
  refuseIf (fun _ => e.source = e.target) (.selfConverter e.source),
  refuseIf (fun r => (r.types.entry? e.source e.target).isSome)
    (.converterTaken e.source e.target),
  writeTypes fun t => { t with registered := t.registered ++ [e] }]

/-- Puts a construct in its place. -/
def insertConstruct (c : Construct σ) : List (Act σ) :=
  match c.form.rank? with
  | some rank => [
    writeGrammar fun g => { g with expressions := g.expressions.insertIdx (g.rankEnds rank) c },
    writeGrammar fun g => { g with rankEnds := fun other =>
      if rank.index ≤ other.index then g.rankEnds other + 1 else g.rankEnds other }]
  | none =>
    if c.form.isStatement then [writeGrammar fun g => { g with statements := g.statements ++ [c] }]
    else [writeGrammar fun g => { g with events := g.events ++ [c] }]

def sealTypes : List (Act σ) := [
  refuseIf (·.types.isSealed) (.alreadySealed .types),
  writeTypes fun t => t.closure,
  writeTypes fun t => { t with listing := t.sortedKeys },
  writeTypes fun t => { t with isSealed := true }]

def sealGrammar : List (Act σ) := [
  refuseIf (·.grammar.isSealed) (.alreadySealed .grammar),
  writeGrammar fun g => { g with isSealed := true }]

/-- Makes sure that both halves can be sealed at once. -/
def checkSealable : List (Act σ) := [
  refuseIf (·.isSealed) (.alreadySealed .registry),
  refuseIf (·.types.isSealed) (.sealedOutside .types),
  refuseIf (·.grammar.isSealed) (.sealedOutside .grammar),
  .check fun r => if r.config.validatePatterns then r.grammar.validatePatterns r.types else .ok ()]

end Act

/-- What a command does, in order. -/
def Command.acts : Command σ → List (Act σ)
  | .type d =>
    .check (·.types.checkOpen (.type d.key)) ::
    .refuseIf (·.types.contains d.key) (.typeTaken d.key) ::
    (d.supertypes.map fun parent => .check fun r => r.types.checkSupertype d parent) ++
    [.writeTypes fun t => { t with types := t.types ++ [d] }]
  | .converter source target input output convert =>
    .check (·.types.checkOpen (.converter source target)) ::
    .check (·.types.checkEndpoint source input) ::
    .check (·.types.checkEndpoint target output) ::
    Act.insertEdge (.typed source target input output convert)
  | .edge e =>
    .check (·.types.checkOpen (.converter e.source e.target)) ::
    .refuseIf (fun r => !r.types.contains e.source) (.unknownType e.source) ::
    .refuseIf (fun r => !r.types.contains e.target) (.unknownType e.target) ::
    Act.insertEdge e
  | .comparator c => [
    .check (·.types.checkOpen (.comparator c.left c.right)),
    .check (·.types.checkEndpoint c.left c.leftShape),
    .check (·.types.checkEndpoint c.right c.rightShape),
    .refuseIf (fun r => (r.types.comparator? c.left c.right).isSome)
      (.comparatorTaken c.left c.right),
    .writeTypes fun t => { t with comparators := t.comparators ++ [c] }]
  | .construct c =>
    .refuseIf (·.grammar.isSealed) (.closed (.element c.kind c.name)) ::
    .refuseIf (fun _ => c.patterns.isEmpty) (.noPatterns c.kind c.name) ::
    Act.insertConstruct c
  | .sealTypes => Act.sealTypes
  | .sealGrammar => Act.sealGrammar
  | .sealAll =>
    Act.checkSealable ++ Act.sealTypes ++ Act.sealGrammar ++
    [.write fun r => { r with report := some (.ofRegistries r.types r.grammar) }]

/-- The registry that a command leaves: the one it makes, or the one it was given. -/
def Registry.settle (r : Registry σ) : Outcome (Registry σ) → Outcome Unit × Registry σ
  | .error e => (.error e, r)
  | .ok r' => (.ok (), r')

namespace Act
variable {acts rest : List (Act σ)} {r : Registry σ}

theorem perform_append (acts rest : List (Act σ)) (r : Registry σ) :
    perform (acts ++ rest) r =
      match perform acts r with
      | (.error e, r') => (.error e, r')
      | (.ok _, r') => perform rest r' := by
  induction acts generalizing r with
  | nil => rfl
  | cons act acts ih =>
    cases act with
    | check what =>
      simp only [List.cons_append, perform]
      cases what r with
      | error => rfl
      | ok => exact ih r
    | write how => exact ih (how r)

theorem perform_refuseIf (p : Registry σ → Bool) (fault : ConfigurationFault) (rest : List (Act σ))
    (r : Registry σ) : perform (refuseIf p fault :: rest) r =
      if p r then (refuse fault, r) else perform rest r := by
  simp only [refuseIf, perform]
  cases p r <;> rfl

theorem perform_supertypes (d : Descriptor σ) (parents : List TypeKey) (rest : List (Act σ))
    (r : Registry σ) :
    perform ((parents.map fun parent => .check fun r => r.types.checkSupertype d parent) ++ rest)
        r =
      match r.types.checkSupertypes d parents with
      | .error e => (.error e, r)
      | .ok _ => perform rest r := by
  induction parents with
  | nil => rfl
  | cons parent parents ih =>
    simp only [List.map_cons, List.cons_append, perform, TypeRegistry.checkSupertypes]
    cases r.types.checkSupertype d parent with
    | error => rfl
    | ok => exact ih

theorem perform_insertEdge (e : Edge σ) (r : Registry σ) :
    perform (insertEdge e) r = r.settle ((r.types.insertEdge e).map r.withTypes) := by
  rw [insertEdge, perform_refuseIf, perform_refuseIf, TypeRegistry.insertEdge]
  by_cases hself : e.source = e.target
  · rw [if_pos hself, if_pos (decide_eq_true hself)]
    rfl
  · rw [if_neg hself, if_neg (by simpa using hself)]
    cases (r.types.entry? e.source e.target).isSome <;> rfl

theorem perform_insertConstruct (c : Construct σ) (r : Registry σ) :
    perform (insertConstruct c) r = (.ok (), r.withGrammar (r.grammar.insert c)) := by
  rw [insertConstruct, Grammar.insert]
  cases c.form.rank? with
  | some rank => rfl
  | none => cases c.form.isStatement <;> rfl

theorem perform_sealTypes (r : Registry σ) :
    perform sealTypes r = r.settle (r.types.sealed.map r.withTypes) := by
  rw [sealTypes, perform_refuseIf, TypeRegistry.sealed]
  cases r.types.isSealed <;> rfl

theorem perform_sealGrammar (r : Registry σ) :
    perform sealGrammar r = r.settle (r.grammar.sealed.map r.withGrammar) := by
  rw [sealGrammar, perform_refuseIf, Grammar.sealed]
  cases r.grammar.isSealed <;> rfl

theorem perform_checkSealable (r : Registry σ) :
    perform checkSealable r = (r.checkSealable, r) := by
  simp only [checkSealable, perform_refuseIf, Registry.checkSealable, perform]
  cases r.isSealed with
  | true => rfl
  | false =>
    cases r.types.isSealed with
    | true => rfl
    | false =>
      cases r.grammar.isSealed with
      | true => rfl
      | false =>
        simp only [Bool.false_eq_true, if_false]
        cases (if r.config.validatePatterns then r.grammar.validatePatterns r.types else .ok ()) <;>
          rfl

end Act

theorem Outcome.map_eq_ok {α β : Type} {x : Outcome α} {f : α → β} {b : β} :
    x.map f = .ok b ↔ ∃ a, x = .ok a ∧ f a = b := by
  cases x <;> simp [Except.map]

theorem Grammar.register_ok {g g' : Grammar σ} {c : Construct σ} :
    g.register c = .ok g' ↔ g.isSealed = false ∧ c.patterns.isEmpty = false ∧ g' = g.insert c := by
  cases hsealed : g.isSealed <;> cases hpatterns : c.patterns.isEmpty <;>
    simp [register, refuse, hsealed, hpatterns, eq_comm]

theorem Grammar.sealed_ok {g g' : Grammar σ} :
    g.sealed = .ok g' ↔ g.isSealed = false ∧ g' = { g with isSealed := true } := by
  cases h : g.isSealed <;> simp [sealed, refuse, h, eq_comm]

theorem Registry.checkSealable_ok {r : Registry σ} : r.checkSealable = .ok () ↔
    r.types.isSealed = false ∧ r.grammar.isSealed = false ∧
      (r.config.validatePatterns = true → r.grammar.validatePatterns r.types = .ok ()) := by
  rw [checkSealable, isSealed]
  cases r.types.isSealed <;> cases r.grammar.isSealed <;> cases r.config.validatePatterns <;>
    simp [refuse]

/-- **A command is all or nothing**: done in place it leaves what it makes, and if it is refused,
the registry as it was. -/
theorem perform_acts (c : Command σ) (r : Registry σ) :
    Act.perform c.acts r = r.settle (r.apply c) := by
  cases c with
  | type d =>
    simp only [Command.acts, List.cons_append, Act.perform, Act.perform_refuseIf,
      Act.perform_supertypes, Registry.apply, TypeRegistry.registerType]
    cases r.types.checkOpen (.type d.key) with
    | error => rfl
    | ok =>
      cases r.types.contains d.key with
      | true => rfl
      | false => cases r.types.checkSupertypes d d.supertypes <;> rfl
  | converter source target input output convert =>
    simp only [Command.acts, Act.perform, Act.perform_insertEdge, Registry.apply,
      TypeRegistry.registerConverter]
    cases r.types.checkOpen (.converter source target) with
    | error => rfl
    | ok =>
      cases r.types.checkEndpoint source input with
      | error => rfl
      | ok => cases r.types.checkEndpoint target output <;> rfl
  | edge e =>
    simp only [Command.acts, Act.perform, Act.perform_refuseIf, Act.perform_insertEdge,
      Registry.apply, TypeRegistry.registerEdge, TypeRegistry.requireType, TypeRegistry.contains]
    cases r.types.checkOpen (.converter e.source e.target) with
    | error => rfl
    | ok =>
      cases r.types.descriptor? e.source with
      | none => rfl
      | some => cases r.types.descriptor? e.target <;> rfl
  | comparator c =>
    simp only [Command.acts, Act.perform, Act.perform_refuseIf, Registry.apply,
      TypeRegistry.registerComparator]
    cases r.types.checkOpen (.comparator c.left c.right) with
    | error => rfl
    | ok =>
      cases r.types.checkEndpoint c.left c.leftShape with
      | error => rfl
      | ok =>
        cases r.types.checkEndpoint c.right c.rightShape with
        | error => rfl
        | ok => cases (r.types.comparator? c.left c.right).isSome <;> rfl
  | construct c =>
    simp only [Command.acts, Act.perform_refuseIf, Act.perform_insertConstruct, Registry.apply,
      Grammar.register]
    cases r.grammar.isSealed with
    | true => rfl
    | false => cases c.patterns.isEmpty <;> rfl
  | sealTypes => exact Act.perform_sealTypes r
  | sealGrammar => exact Act.perform_sealGrammar r
  | sealAll =>
    simp only [Command.acts, Act.perform_append, Act.perform_checkSealable, Registry.apply,
      Registry.sealed]
    cases hsealable : r.checkSealable with
    | error => rfl
    | ok =>
      -- What was made sure of still holds when it is asked again for each half.
      obtain ⟨htypes, hgrammar, _⟩ := Registry.checkSealable_ok.mp hsealable
      obtain ⟨types, htypes⟩ : ∃ types, r.types.sealed = .ok types :=
        ⟨_, TypeRegistry.sealed_ok.mpr ⟨htypes, rfl⟩⟩
      obtain ⟨grammar, hgrammar⟩ : ∃ grammar, r.grammar.sealed = .ok grammar :=
        ⟨_, Grammar.sealed_ok.mpr ⟨hgrammar, rfl⟩⟩
      have hfirst : Act.perform Act.sealTypes r = (.ok (), r.withTypes types) := by
        rw [Act.perform_sealTypes, htypes]
        rfl
      have hsecond : Act.perform Act.sealGrammar (r.withTypes types) =
          (.ok (), (r.withTypes types).withGrammar grammar) := by
        rw [Act.perform_sealGrammar, Registry.withTypes, hgrammar]
        rfl
      simp only [hfirst, hsecond, htypes, hgrammar]
      rfl

namespace Registry
variable {r r' : Registry σ}

/-- A command given by a step of registration is done in place. -/
theorem command_run (c : Command σ) (r : Registry σ) (s : σ) :
    ((Registration.command c).run.run r).run s = ⟨Act.perform c.acts r, s, []⟩ := by
  rw [perform_acts]
  have hrun : ((Registration.command c).run.run r).run s =
      ((match r.apply c with
        | .error e => throw e
        | .ok r' => set r' : Registration σ Unit).run.run r).run s := rfl
  rw [hrun]
  cases r.apply c <;> rfl

theorem settle_error {x : Outcome (Registry σ)} {e : EngineError}
    (h : r.settle x = (.error e, r')) : x = .error e ∧ r' = r := by
  cases x with
  | error =>
    cases h
    exact ⟨rfl, rfl⟩
  | ok => cases h

theorem settle_ok {x : Outcome (Registry σ)} : r.settle x = (.ok (), r') ↔ x = .ok r' := by
  cases x <;> simp [settle]

end Registry

/-! ### Faults -/

namespace Outcome
variable {α β : Type}

/-- Whatever is refused is refused for a fault of configuration. -/
def ByFault (x : Outcome α) : Prop := ∀ e, x = .error e → ∃ fault, e = .configuration fault

namespace ByFault
variable {x y : Outcome α}

theorem ok (a : α) : ByFault (.ok a) := fun _ h => nomatch h

theorem refuse (fault : ConfigurationFault) : ByFault (ScriptEngine.refuse fault : Outcome α) := by
  intro e h
  cases h
  exact ⟨fault, rfl⟩

theorem ite (p : Prop) [Decidable p] (hx : ByFault x) (hy : ByFault y) :
    ByFault (if p then x else y) := by
  split
  · exact hx
  · exact hy

theorem bind {f : α → Outcome β} (hx : ByFault x) (hf : ∀ a, ByFault (f a)) :
    ByFault (x >>= f) := by
  intro e h
  cases x with
  | error e' =>
    cases h
    exact hx e rfl
  | ok a => exact hf a e h

theorem map (hx : ByFault x) (f : α → β) : ByFault (x.map f) := by
  intro e h
  cases x with
  | error e' =>
    cases h
    exact hx e rfl
  | ok a => cases h

theorem mapM {f : α → Outcome β} (hf : ∀ a, ByFault (f a)) (as : List α) :
    ByFault (as.mapM f) := by
  induction as with
  | nil => exact .ok []
  | cons a as ih =>
    rw [List.mapM_cons]
    exact (hf a).bind fun _ => ih.bind fun _ => .ok _

theorem forM {f : α → Outcome Unit} (hf : ∀ a, ByFault (f a)) (as : List α) :
    ByFault (as.forM f) := by
  induction as with
  | nil => exact .ok ()
  | cons a as ih =>
    show ByFault (f a >>= fun _ => as.forM f)
    exact (hf a).bind fun _ => ih

end ByFault

end Outcome

open Outcome

theorem Placeholder.ofPattern_byFault (pattern : String) : ByFault (ofPattern pattern) := by
  have htime : ∀ raw body, ByFault (readTime raw body) := by
    intro raw body
    unfold readTime
    split
    · exact .ok _
    · split
      · exact .refuse _
      · exact .ok _
  exact .mapM (fun body => (htime _ _).bind fun _ =>
    .ite _ (.refuse _) (.ite _ (.refuse _) (.ok _))) _

/-- Patterns are refused for a fault. -/
theorem Grammar.validatePatterns_byFault (g : Grammar σ) (types : TypeRegistry σ) :
    ByFault (g.validatePatterns types) := by
  refine .forM (fun c => .bind (.mapM Placeholder.ofPattern_byFault _) fun found => ?_) _
  cases unknownPattern? types 0 found with
  | none => exact .ok ()
  | some => exact .refuse _

namespace TypeRegistry
variable (r : TypeRegistry σ)

theorem checkOpen_byFault (what : Registrand) : ByFault (r.checkOpen what) :=
  .ite _ (.refuse _) (.ok ())

theorem requireType_byFault (key : TypeKey) : ByFault (r.requireType key) := by
  unfold requireType
  cases r.descriptor? key with
  | none => exact .refuse _
  | some d => exact .ok d

theorem checkEndpoint_byFault (key : TypeKey) (shape : Shape) :
    ByFault (r.checkEndpoint key shape) := by
  refine (r.requireType_byFault key).bind fun d => ?_
  cases d.native with
  | none => exact .ok ()
  | some held => exact .ite _ (.ok ()) (.refuse _)

theorem checkSupertypes_byFault (d : Descriptor σ) (parents : List TypeKey) :
    ByFault (r.checkSupertypes d parents) := by
  have hparent : ∀ parent, ByFault (r.checkSupertype d parent) := by
    intro parent
    unfold checkSupertype
    split
    · exact .refuse _
    · split
      · exact .ok ()
      · exact .ite _ (.ok ()) (.refuse _)
  induction parents with
  | nil => exact .ok ()
  | cons parent parents ih => exact (hparent parent).bind fun _ => ih

theorem insertEdge_byFault (e : Edge σ) : ByFault (r.insertEdge e) :=
  .ite _ (.refuse _) (.ite _ (.refuse _) (.ok _))

theorem sealed_byFault : ByFault r.sealed := .ite _ (.refuse _) (.ok _)

end TypeRegistry

theorem Grammar.sealed_byFault (g : Grammar σ) : ByFault g.sealed := .ite _ (.refuse _) (.ok _)

namespace Registry

theorem checkSealable_byFault (r : Registry σ) : ByFault r.checkSealable :=
  .ite _ (.refuse _) (.ite _ (.refuse _) (.ite _ (.refuse _)
    (.ite _ (r.grammar.validatePatterns_byFault r.types) (.ok ()))))

/-- **A command is refused for a fault of configuration.** -/
theorem apply_byFault (r : Registry σ) (c : Command σ) : ByFault (r.apply c) := by
  cases c with
  | type d =>
    have hparents := (r.types.checkSupertypes_byFault d d.supertypes).bind
      fun _ => .ok { r.types with types := r.types.types ++ [d] }
    exact .map (.bind (r.types.checkOpen_byFault _) fun _ => .ite _ (.refuse _) hparents) _
  | converter source target input output convert =>
    exact .map (.bind (r.types.checkOpen_byFault _) fun _ =>
      .bind (r.types.checkEndpoint_byFault source input) fun _ =>
        .bind (r.types.checkEndpoint_byFault target output) fun _ =>
          r.types.insertEdge_byFault _) _
  | edge e =>
    exact .map (.bind (r.types.checkOpen_byFault _) fun _ =>
      .bind (r.types.requireType_byFault e.source) fun _ =>
        .bind (r.types.requireType_byFault e.target) fun _ => r.types.insertEdge_byFault e) _
  | comparator c =>
    exact .map (.bind (r.types.checkOpen_byFault _) fun _ =>
      .bind (r.types.checkEndpoint_byFault c.left c.leftShape) fun _ =>
        .bind (r.types.checkEndpoint_byFault c.right c.rightShape) fun _ =>
          .ite _ (.refuse _) (.ok _)) _
  | construct c => exact .map (.ite _ (.refuse _) (.ite _ (.refuse _) (.ok _))) _
  | sealTypes => exact .map r.types.sealed_byFault _
  | sealGrammar => exact .map r.grammar.sealed_byFault _
  | sealAll =>
    exact .bind r.checkSealable_byFault fun _ => .bind r.types.sealed_byFault fun _ =>
      .bind r.grammar.sealed_byFault fun _ => .ok _

end Registry

end ScriptEngine

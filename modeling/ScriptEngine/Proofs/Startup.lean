import ScriptEngine.Proofs.Accepted
import ScriptEngine.Proofs.Patterns
import ScriptEngine.Proofs.Reports

/-! What starting an engine comes to.

The steps of a manifest may do what they like between the commands that they give: ask the host,
go on after a refusal, fail. All the same the registry becomes what some commands make of it
(`Gives`), and so it holds what was accepted and nothing else. `startup_started` says what a
started engine runs on: both halves are sealed, the report has all that was registered, and the
patterns name registered types if that was asked for. Where a step has sealed a half itself, no
engine starts. -/
namespace ScriptEngine
variable {σ : Type}

/-! ### Steps -/

namespace Registration
variable {α β : Type} {m : Registration σ α} {f : α → Registration σ β}

/-- What a registration comes to, and the registry that it leaves. -/
def reply (m : Registration σ α) (r : Registry σ) (s : σ) : Reply σ (Outcome α × Registry σ) :=
  (m.run.run r).run s

/-- Whatever a registration comes to, to the registry it has done what some commands do. -/
def Gives (m : Registration σ α) : Prop := ∀ r s, ∃ cs, (m.reply r s).value.2 = r.performAll cs

theorem reply_bind (m : Registration σ α) (f : α → Registration σ β) (r : Registry σ) (s : σ) :
    ((m >>= f).reply r s).value =
      match (m.reply r s).value with
      | (.error e, r') => (.error e, r')
      | (.ok a, r') => ((f a).reply r' (m.reply r s).state).value := by
  have hrun : ((m >>= f).reply r s).value =
      (((ExceptT.bindCont f (m.reply r s).value.1).run (m.reply r s).value.2).run
        (m.reply r s).state).value := rfl
  rw [hrun]
  cases (m.reply r s).value with
  | mk out r' => cases out <;> rfl

theorem reply_tryCatch (m : Registration σ α) (handle : EngineError → Registration σ α)
    (r : Registry σ) (s : σ) :
    ((MonadExcept.tryCatch m handle).reply r s).value =
      match (m.reply r s).value with
      | (.error e, r') => ((handle e).reply r' (m.reply r s).state).value
      | (.ok a, r') => (.ok a, r') := by
  rw [reply, show (MonadExcept.tryCatch m handle).run = _ from ExceptT.run_tryCatch ..]
  have hrun : ∀ k : Outcome α → StateT (Registry σ) (HostM σ) (Outcome α),
      (((m.run >>= k).run r).run s).value =
        (((k (m.reply r s).value.1).run (m.reply r s).value.2).run (m.reply r s).state).value :=
    fun _ => rfl
  rw [hrun]
  cases (m.reply r s).value with
  | mk out r' => cases out <;> rfl

namespace Gives

theorem pure (a : α) : Gives (Pure.pure a : Registration σ α) := fun _ _ => ⟨[], rfl⟩

theorem host (m : HostM σ α) : Gives (Registration.host m) := fun _ _ => ⟨[], rfl⟩

theorem command (c : Command σ) : Gives (Registration.command c) := by
  intro r s
  refine ⟨[c], ?_⟩
  rw [reply, Registry.command_run]
  rfl

/-- What comes second adds to what came first. -/
theorem follows (m : Registration σ α) (hf : ∀ a, (f a).Gives) (r : Registry σ) (s : σ) :
    ∃ cs, ((m >>= f).reply r s).value.2 = (m.reply r s).value.2.performAll cs := by
  rw [reply_bind]
  cases (m.reply r s).value with
  | mk out r' =>
    cases out with
    | error e => exact ⟨[], rfl⟩
    | ok a => exact hf a r' _

theorem bind (hm : m.Gives) (hf : ∀ a, (f a).Gives) : (m >>= f).Gives := by
  intro r s
  obtain ⟨cs, hcs⟩ := hm r s
  obtain ⟨more, hmore⟩ := follows m hf r s
  exact ⟨cs ++ more, by rw [hmore, hcs, Registry.performAll_append]⟩

/-- A registration may go on where a part of it failed. -/
theorem tryCatch (hm : m.Gives) {handle : EngineError → Registration σ α}
    (hhandle : ∀ e, (handle e).Gives) : (MonadExcept.tryCatch m handle).Gives := by
  intro r s
  obtain ⟨cs, hcs⟩ := hm r s
  rw [reply_tryCatch]
  cases hout : (m.reply r s).value with
  | mk out r' =>
    rw [hout] at hcs
    cases out with
    | error e =>
      obtain ⟨more, hmore⟩ := hhandle e r' (m.reply r s).state
      exact ⟨cs ++ more, by rw [Registry.performAll_append, ← hcs, hmore]⟩
    | ok a => exact ⟨cs, hcs⟩

theorem forM {ι : Type} {f : ι → Registration σ Unit} {is : List ι} (hf : ∀ i ∈ is, (f i).Gives) :
    (is.forM f).Gives := by
  induction is with
  | nil => exact .pure ()
  | cons i is ih =>
    rw [List.forall_mem_cons] at hf
    exact hf.1.bind fun _ => ih hf.2

theorem commands (cs : List (Command σ)) : Gives (Registration.commands cs) :=
  .forM fun c _ => .command c

end Gives

end Registration

namespace Manifest
variable {m : Manifest σ}

/-- The name that a step puts to its faults makes no difference to the registry. -/
theorem runStep_gives {step : String × Registration σ Unit} (h : step.2.Gives) :
    (runStep step).Gives := by
  intro r s
  exact h r s

theorem run_gives (hsteps : ∀ step ∈ m.steps, step.2.Gives) : m.run.Gives :=
  .forM fun step hstep => runStep_gives (hsteps step hstep)

end Manifest

/-! ### Starting -/

namespace Registry
variable {r r' registry : Registry σ}

/-- What a started engine runs on, given the commands that were accepted. -/
structure Started (settings : Config) (past : List (Command σ)) (registry : Registry σ) : Prop where
  typesSealed : registry.types.isSealed = true
  grammarSealed : registry.grammar.isSealed = true
  config : registry.config = settings
  records : registry.Records past
  reported : ∃ report, registry.report = some report ∧
    report.Describes registry.types registry.grammar
  patterns : settings.validatePatterns = true → registry.grammar.PatternsResolve registry.types

/-- Whatever commands came before, a registry that could be sealed is one to start on. -/
theorem sealed_started (settings : Config) (given : List (Command σ))
    (hs : ((initial settings).performAll given).sealed = .ok registry) :
    registry.Started settings ((initial settings).accepted (given ++ [.sealAll])) := by
  have hlast : (initial settings).performAll (given ++ [.sealAll]) = registry := by
    rw [performAll_append, performAll_cons, apply, hs]
    rfl
  have hrecords := (initial_records settings).performAll (initial_sound settings)
    (given ++ [.sealAll])
  rw [hlast] at hrecords
  have hreachable := performAll_reachable (r := initial settings) .initial given
  obtain ⟨hkeeps, hsound⟩ := (initial_sound settings).performAll given
  have hconfig : ((initial settings).performAll given).config = settings := hkeeps.config
  cases apply_takes (c := .sealAll) hsound hs with
  | sealAll hsealable htypes hgrammar =>
    obtain ⟨_, _, hpatterns⟩ := checkSealable_ok.mp hsealable
    refine ⟨?_, ?_, hconfig, hrecords, ⟨_, rfl, hreachable.report_describes htypes _⟩, ?_⟩
    · obtain ⟨_, rfl⟩ := TypeRegistry.sealed_ok.mp htypes
      rfl
    · obtain ⟨_, rfl⟩ := Grammar.sealed_ok.mp hgrammar
      rfl
    · intro hvalidate
      rw [← hconfig] at hvalidate
      have hresolve := Grammar.validatePatterns_ok.mp (hpatterns hvalidate)
      obtain ⟨_, rfl⟩ := Grammar.sealed_ok.mp hgrammar
      exact fun c hc => (TypeRegistry.sealed_extends htypes).patternsResolve (hresolve c hc)

def HalfSealed (r : Registry σ) : Prop := r.types.isSealed = true ∨ r.grammar.isSealed = true

/-- A registry of which a half is sealed cannot be sealed as a whole. -/
theorem HalfSealed.not_sealed (h : r.HalfSealed) : r.sealed ≠ .ok registry := by
  intro hs
  obtain ⟨htypes, hgrammar, _⟩ := checkSealable_ok.mp ((sealed_ok r).mp ⟨registry, hs⟩)
  rcases h with h | h
  · exact absurd h (ne_true_of_eq_false htypes)
  · exact absurd h (ne_true_of_eq_false hgrammar)

/-- A half that is sealed stays so. -/
theorem HalfSealed.keeps (h : r.HalfSealed) (hkeeps : r.Keeps r') : r'.HalfSealed := by
  rcases h with h | h
  · exact .inl (hkeeps.types.closed h ▸ h)
  · exact .inr (hkeeps.grammar.closed h ▸ h)

end Registry

namespace Manifest
variable {m : Manifest σ}

/-- The registry that steps leave, whether all of them could be taken or not. -/
def leaves (m : Manifest σ) (settings : Config) (s : σ) : Registry σ :=
  (m.run.reply (.initial settings) s).value.2

/-- A half that some of the steps sealed is sealed when all steps are over. -/
theorem leaves_halfSealed (hsteps : ∀ step ∈ m.steps, step.2.Gives)
    {before after : List (String × Registration σ Unit)} (hm : m.steps = before ++ after)
    {config : Config} {s : σ} (h : (leaves ⟨before⟩ config s).HalfSealed) :
    (m.leaves config s).HalfSealed := by
  rw [hm] at hsteps
  have hbefore : ∀ step ∈ before, step.2.Gives :=
    fun step hstep => hsteps step (List.mem_append_left _ hstep)
  have hafter : ∀ step ∈ after, step.2.Gives :=
    fun step hstep => hsteps step (List.mem_append_right _ hstep)
  have hrun : m.run = run ⟨before⟩ >>= fun _ => run ⟨after⟩ := by
    rw [run, hm]
    exact List.forM_append
  obtain ⟨given, hgiven⟩ := run_gives (m := ⟨before⟩) hbefore (.initial config) s
  obtain ⟨more, hmore⟩ := Registration.Gives.follows (run ⟨before⟩)
    (fun _ => run_gives (m := ⟨after⟩) hafter) (.initial config) s
  have hsound : (leaves ⟨before⟩ config s).Sound := by
    rw [leaves, hgiven]
    exact ((Registry.initial_sound config).performAll given).2
  rw [leaves, hrun, hmore]
  exact h.keeps (hsound.performAll more).1

end Manifest

/-- An engine starts if all steps can be taken and what they leave can be sealed. -/
theorem startup_run (config : Config) (m : Manifest σ) (s : σ) :
    ((startup config m).run s).value =
      match (m.run.reply (.initial config) s).value with
      | (.error e, _) => .error e
      | (.ok _, r) => r.sealed := by
  rw [startup, HostM.run_bind]
  cases hreply : m.run.reply (.initial config) s with
  | mk out s' journal =>
    rw [Registration.reply] at hreply
    rw [hreply]
    obtain ⟨ran, r⟩ := out
    cases ran <;> rfl

theorem startup_ok {config : Config} {m : Manifest σ} {s : σ} {registry : Registry σ} :
    ((startup config m).run s).value = .ok registry ↔
      (m.run.reply (.initial config) s).value = (.ok (), m.leaves config s) ∧
        (m.leaves config s).sealed = .ok registry := by
  rw [startup_run, Manifest.leaves]
  cases (m.run.reply (.initial config) s).value with
  | mk ran r =>
    cases ran with
    | error e => simp
    | ok => simp

/-- **What starting an engine comes to**, whatever the steps do besides giving commands. If the
engine starts, the steps have left what some commands make of a new registry, and it runs on that
registry, sealed, which holds and reports all that was accepted. Once a step has sealed a half, the
engine does not start. -/
theorem startup_started (config : Config) (m : Manifest σ) (hsteps : ∀ step ∈ m.steps, step.2.Gives)
    (s : σ) :
    (∀ registry, ((startup config m).run s).value = .ok registry →
      ∃ given, m.leaves config s = (Registry.initial config).performAll given ∧
        (m.leaves config s).sealed = .ok registry ∧
        registry.Started config ((Registry.initial config).accepted (given ++ [.sealAll]))) ∧
    ∀ before step after, m.steps = before ++ step :: after →
      (Manifest.leaves ⟨before ++ [step]⟩ config s).HalfSealed →
      ∃ e, ((startup config m).run s).value = .error e := by
  constructor
  · intro registry hstart
    obtain ⟨given, hgiven⟩ := Manifest.run_gives hsteps (.initial config) s
    obtain ⟨_, hsealed⟩ := startup_ok.mp hstart
    refine ⟨given, hgiven, hsealed, Registry.sealed_started config given ?_⟩
    rw [← hgiven]
    exact hsealed
  · intro before step after hm hhalf
    rw [List.append_cons] at hm
    have hleft : (m.leaves config s).HalfSealed := Manifest.leaves_halfSealed hsteps hm hhalf
    cases hstart : ((startup config m).run s).value with
    | error e => exact ⟨e, rfl⟩
    | ok registry => exact absurd (startup_ok.mp hstart).2 hleft.not_sealed

/-! A step may ask the host what to register and go on where that is refused. One that seals the
types keeps the engine from starting. -/

/-- An effect whose pattern names two types. -/
def greeting : Construct Bool := .effect "greet" ["greet %text/number%"] fun _ =>
  pure (.ok ⟨fun _ _ => pure (.ok ()), [], fun _ _ => pure "greet"⟩)

/-- The built-in types, and greetings if the host wants them; a second type of texts is refused. -/
def courteous : Manifest Bool := Manifest.standard.step "greetings" do
  if ← Registration.host get then
    Registration.command (.construct greeting)
  tryCatch (Registration.command (.type (.ofShape Standard.text .string))) fun _ => pure ()

/-- The same with a step that seals the types. -/
def hasty : Manifest Bool := courteous.step "haste" (Registration.command .sealTypes)

theorem courteous_gives : ∀ step ∈ courteous.steps, step.2.Gives := by
  intro step hstep
  rcases List.mem_append.mp hstep with hstep | hstep
  · obtain rfl := List.mem_singleton.mp hstep
    exact .commands _
  · obtain rfl := List.mem_singleton.mp hstep
    have hrest : (tryCatch (Registration.command (.type (.ofShape Standard.text .string)))
        fun _ => pure () : Registration Bool Unit).Gives :=
      .tryCatch (.command _) fun _ => .pure ()
    refine .bind (.host get) fun wanted => ?_
    cases wanted with
    | true => exact .bind (.command _) fun _ => hrest
    | false => exact hrest

theorem hasty_gives : ∀ step ∈ hasty.steps, step.2.Gives := by
  intro step hstep
  rcases List.mem_append.mp hstep with hstep | hstep
  · exact courteous_gives step hstep
  · obtain rfl := List.mem_singleton.mp hstep
    exact .command _

theorem courteous_started :
    (∃ registry given, ((startup .default courteous).run true).value = .ok registry ∧
      registry.Started .default given ∧ registry.grammar.PatternsResolve registry.types) ∧
    ∃ e, ((startup .default hasty).run true).value = .error e := by
  have hstarts : ((startup .default courteous).run true).value.toOption.isSome = true := by
    decide +kernel
  have hsealed : (hasty.leaves .default true).HalfSealed := .inl (by decide +kernel)
  constructor
  · cases hstart : ((startup .default courteous).run true).value with
    | error e =>
      rw [hstart] at hstarts
      cases hstarts
    | ok registry =>
      obtain ⟨given, _, _, hstarted⟩ :=
        (startup_started .default courteous courteous_gives true).1 registry hstart
      exact ⟨registry, _, rfl, hstarted, hstarted.patterns rfl⟩
  · exact (startup_started .default hasty hasty_gives true).2 courteous.steps
      ("haste", Registration.command .sealTypes) [] rfl hsealed

end ScriptEngine

import ScriptEngine.Grammar.Element
import ScriptEngine.Grammar.Kinds
import ScriptEngine.Grammar.Placeholder

/-! Constructs of the scripting language.

A construct pairs patterns with a producer, which builds an element once a pattern has
matched. The element must be of the kind that the construct was registered for. -/
namespace ScriptEngine

/-- What a construct is for. -/
inductive Form where
  | condition
  | effect
  | expression (rank : Rank) (type : TypeKey)
  /-- The kinds of events that the matcher listens to. -/
  | event (events : List String)

namespace Form

def kind : Form → ElementKind
  | .condition => .condition
  | .effect => .effect
  | .expression .. => .expression
  | .event _ => .event

/-- Conditions and effects are statements. -/
def isStatement : Form → Bool
  | .condition => true
  | .effect => true
  | _ => false

/-- How specific the patterns of an expression are. -/
def rank? : Form → Option Rank
  | .expression rank _ => some rank
  | _ => none

def type? : Form → Option TypeKey
  | .expression _ type => some type
  | _ => none

/-- The kinds of events that a matcher listens to. -/
def events : Form → List String
  | .event events => events
  | _ => []

def inspect : Form → String
  | .condition => "Condition"
  | .effect => "Effect"
  | .expression rank type =>
    "Expression \x7b rank: " ++ rank.title ++ ", return_type: " ++ type.inspect ++ " \x7d"
  | .event events =>
    "Event \x7b events: " ++ Descriptor.bracketed (events.map Text.quoted) ++ " \x7d"

end Form

/-- What a producer learns about a match. -/
structure Match (σ : Type) where
  types : TypeRegistry σ
  /-- One place for each placeholder, empty where an argument was left out. -/
  args : List (Option (Node σ))
  /-- Which pattern matched. -/
  pattern : Nat
  /-- Whether there may have been a delay before the element. -/
  delay : Kleenean
  /-- The marks that the pattern set. -/
  marks : Int
  /-- The name for what is built. -/
  id : NodeId

/-- The argument in one place. -/
def Match.arg? {σ : Type} (m : Match σ) (place : Nat) : Option (Node σ) := (m.args[place]?).join

/-- Builds an element from a match. -/
abbrev Producer (σ : Type) : Type := Match σ → Eval σ (Outcome (Element σ))

/-- A construct of the scripting language. -/
structure Construct (σ : Type) where
  name : String
  form : Form
  patterns : List String
  produce : Producer σ

namespace Construct
variable {σ : Type}

def kind (c : Construct σ) : ElementKind := c.form.kind

def condition (name : String) (patterns : List String)
    (init : Match σ → Eval σ (Outcome (Condition σ))) : Construct σ :=
  ⟨name, .condition, patterns, fun m => do return (← init m).map (.condition m.id)⟩

def effect (name : String) (patterns : List String)
    (init : Match σ → Eval σ (Outcome (Effect σ))) : Construct σ :=
  ⟨name, .effect, patterns, fun m => do return (← init m).map (.effect m.id)⟩

def expression (name : String) (type : TypeKey) (rank : Rank) (patterns : List String)
    (init : Match σ → Eval σ (Outcome (Node σ))) : Construct σ :=
  ⟨name, .expression rank type, patterns, fun m => do return (← init m).map .expression⟩

def event (name : String) (events patterns : List String)
    (init : Match σ → Eval σ (Outcome (EventMatcher σ))) : Construct σ :=
  ⟨name, .event events, patterns, fun m => do return (← init m).map (.event m.id)⟩

def placeholders (c : Construct σ) : Outcome (List (List Placeholder)) :=
  c.patterns.mapM Placeholder.ofPattern

/-- Builds an element, which must be of the construct's kind. -/
def build (c : Construct σ) (m : Match σ) : Eval σ (Outcome (Element σ)) := do
  match ← c.produce m with
  | .error e => return .error e
  | .ok element =>
    if element.kind = c.kind then return .ok element
    else return refuse (.wrongProduct c.kind c.name element.kind)

def inspect (c : Construct σ) : String :=
  "SyntaxDescriptor \x7b name: " ++ Text.quoted c.name ++ ", kind: " ++ c.form.inspect ++
    ", patterns: " ++ Descriptor.bracketed (c.patterns.map Text.quoted) ++ " \x7d"

end Construct

end ScriptEngine

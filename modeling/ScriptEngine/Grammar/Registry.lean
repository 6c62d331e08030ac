import ScriptEngine.Grammar.Construct

/-! The grammar: all constructs, in the order they are tried.

Expressions stand by rank, the most specific first, and in the order of registration
within a rank. Statements and events stand in the order of registration. The grammar
keeps for each rank where its expressions end, so that a new one is put in place
directly. -/
namespace ScriptEngine

/-- All constructs of the scripting language. -/
structure Grammar (σ : Type) where
  isSealed : Bool
  expressions : List (Construct σ)
  /-- For each rank, the number of expressions up to the last one of that rank. -/
  rankEnds : Rank → Nat
  /-- Conditions and effects. -/
  statements : List (Construct σ)
  events : List (Construct σ)

namespace Grammar
variable {σ : Type}

def initial : Grammar σ where
  isSealed := false
  expressions := []
  rankEnds _ := 0
  statements := []
  events := []

def conditions (g : Grammar σ) : List (Construct σ) :=
  g.statements.filter fun c => c.kind == .condition

def effects (g : Grammar σ) : List (Construct σ) :=
  g.statements.filter fun c => c.kind == .effect

/-- All constructs: events, statements, expressions. -/
def constructs (g : Grammar σ) : List (Construct σ) := g.events ++ g.statements ++ g.expressions

def size (g : Grammar σ) : Nat := g.expressions.length + g.statements.length + g.events.length

/-! ### Registration -/

/-- The grammar with an expression at the end of its rank. -/
def insertExpression (g : Grammar σ) (c : Construct σ) (rank : Rank) : Grammar σ :=
  { g with
    expressions := g.expressions.insertIdx (g.rankEnds rank) c
    rankEnds := fun other =>
      if rank.index ≤ other.index then g.rankEnds other + 1 else g.rankEnds other }

/-- The grammar with a construct in its place. -/
def insert (g : Grammar σ) (c : Construct σ) : Grammar σ :=
  match c.form.rank? with
  | some rank => g.insertExpression c rank
  | none =>
    if c.form.isStatement then { g with statements := g.statements ++ [c] }
    else { g with events := g.events ++ [c] }

/-- The grammar with one more construct, which must have a pattern. -/
def register (g : Grammar σ) (c : Construct σ) : Outcome (Grammar σ) :=
  if g.isSealed then refuse (.closed (.element c.kind c.name))
  else if c.patterns.isEmpty then refuse (.noPatterns c.kind c.name)
  else .ok (g.insert c)

def sealed (g : Grammar σ) : Outcome (Grammar σ) :=
  if g.isSealed then refuse (.alreadySealed .grammar) else .ok { g with isSealed := true }

/-! ### Queries -/

/-- Whether an expression can yield a value of one of some types; one of the universal type may
yield anything. -/
def canYield (types : TypeRegistry σ) (wanted : List TypeKey) (c : Construct σ) : Bool :=
  match c.form.type? with
  | none => false
  | some type => type.isObject || wanted.any fun t => types.converts type t

/-- The expressions that can yield a value of one of some types, in the order they are tried. -/
def expressionsFor (g : Grammar σ) (wanted : List TypeKey) (types : TypeRegistry σ) :
    List (Construct σ) :=
  g.expressions.filter (canYield types wanted)

/-- The first name in some placeholders that no type answers to. -/
def unknownName? (types : TypeRegistry σ) (found : List Placeholder) : Option String :=
  (found.flatMap (·.names)).find? fun name => (types.resolve? name).isNone

/-- The first pattern, counted from a number, with a name that no type answers to. -/
def unknownPattern? (types : TypeRegistry σ) : Nat → List (List Placeholder) → Option (Nat × String)
  | _, [] => none
  | place, found :: rest =>
    match unknownName? types found with
    | some name => some (place, name)
    | none => unknownPattern? types (place + 1) rest

/-- Every placeholder of a construct must name registered types. -/
def validateConstruct (types : TypeRegistry σ) (c : Construct σ) : Outcome Unit := do
  match unknownPattern? types 0 (← c.placeholders) with
  | none => return ()
  | some (place, name) => refuse (.unknownPatternType c.kind c.name place name)

/-- Every placeholder of every construct must name registered types. -/
def validatePatterns (g : Grammar σ) (types : TypeRegistry σ) : Outcome Unit :=
  g.constructs.forM (validateConstruct types)

end Grammar

end ScriptEngine

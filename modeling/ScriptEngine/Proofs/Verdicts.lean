import Mathlib.Data.List.TakeWhile
import ScriptEngine.Expr.Check
import ScriptEngine.Proofs.Abreast
import ScriptEngine.Proofs.Looking

/-! What a condition means.

A condition asks whether all values of a node pass a test, or whether one of them does. It
tests the values while they are computed, and stops at the first one that decides.
`check_meaning` puts it beside a reading of all values: as long as the functions of the
host are steady and the event goes on, the verdict is what the values that would be read
are worth, and the values tested are those up to the first that decides. -/
namespace ScriptEngine

/-! ### All or one -/

namespace Quantifier
variable {q : Quantifier} {passes : Value → Bool} {negated : Bool} {vs before after : List Value}
  {v : Value}

/-- Whether a value that passes, or fails, leaves the verdict to the values after it. -/
def leavesOpen (passed : Bool) : Quantifier → Bool
  | .and => passed
  | .or => !passed

/-- Whether all values pass, or one of them does. -/
def holds (passes : Value → Bool) (vs : List Value) : Quantifier → Bool
  | .and => vs.all passes
  | .or => vs.any passes

/-- The values up to the first one that decides; all of them if none does. -/
def heard (passes : Value → Bool) (vs : List Value) (q : Quantifier) : List Value :=
  vs.takeWhile (fun v => q.leavesOpen (passes v)) ++
    (vs.dropWhile fun v => q.leavesOpen (passes v)).take 1

theorem decided?_eq (q : Quantifier) (negated passed : Bool) :
    q.decided? negated passed =
      if q.leavesOpen passed then none else some (!q.undecided negated) := by
  cases q <;> cases passed <;> simp [decided?, leavesOpen, undecided]

theorem holds_of_open (h : ∀ v ∈ vs, q.leavesOpen (passes v) = true) :
    (q.holds passes vs ^^ negated) = q.undecided negated := by
  cases q with
  | and =>
    have hall : vs.all passes = true := List.all_eq_true.mpr h
    simp [holds, undecided, hall]
  | or =>
    have hnone : vs.any passes = false :=
      List.any_eq_false.mpr fun v hv => by simpa [leavesOpen] using h v hv
    simp [holds, undecided, hnone]

theorem holds_of_decided (hv : v ∈ vs) (h : q.leavesOpen (passes v) = false) :
    (q.holds passes vs ^^ negated) = !q.undecided negated := by
  cases q with
  | and =>
    have hall : vs.all passes = false :=
      List.all_eq_false.mpr ⟨v, hv, by simpa [leavesOpen] using h⟩
    simp [holds, undecided, hall]
  | or =>
    have hsome : vs.any passes = true :=
      List.any_eq_true.mpr ⟨v, hv, by simpa [leavesOpen] using h⟩
    simp [holds, undecided, hsome]

theorem heard_of_open (h : ∀ v ∈ vs, q.leavesOpen (passes v) = true) : q.heard passes vs = vs := by
  rw [heard, List.takeWhile_eq_self_iff.mpr h, List.dropWhile_eq_nil_iff.mpr h, List.take_nil,
    List.append_nil]

theorem heard_of_decided (hbefore : ∀ v ∈ before, q.leavesOpen (passes v) = true)
    (h : q.leavesOpen (passes v) = false) :
    q.heard passes (before ++ v :: after) = before ++ [v] := by
  have hv : ¬ q.leavesOpen (passes v) = true := by simp [h]
  rw [heard, List.takeWhile_append_of_pos hbefore, List.dropWhile_append_of_pos hbefore,
    List.takeWhile_cons, List.dropWhile_cons, if_neg hv, if_neg hv, List.append_nil,
    List.take_succ_cons, List.take_zero]

end Quantifier

/-! ### What is tested -/

def Entry.tested? : Entry → Option Value
  | .test v => some v
  | _ => none

namespace World
variable {σ : Type} {w : World σ} {added : List Entry}

/-- The values tested so far, in order. -/
def tests (w : World σ) : List Value := w.journal.filterMap (·.tested?)

theorem tests_append (host : σ) (hadded : ∀ e ∈ added, e.tested? = none) :
    ({ w with host := host, journal := w.journal ++ added } : World σ).tests = w.tests := by
  have hnone : added.filterMap (·.tested?) = [] := List.filterMap_eq_nil_iff.mpr hadded
  rw [tests, List.filterMap_append, hnone, List.append_nil, tests]

@[simp] theorem tests_remember {ctx : ContextId} {node : NodeId} {t : Time} {values : List Value} :
    (w.remember ctx node t values).tests = w.tests := by
  rw [remember]
  split <;> rfl

def tested (w : World σ) (test : Test σ) (v : Value) : World σ :=
  ((Eval.host (test v)).run { w with journal := w.journal ++ [.test v] }).2

end World

namespace Check
variable {σ : Type} {ctx : ContextId} {q : Quantifier} {test : Test σ} {negated : Bool} {v : Value}
  {w : World σ} {b : Option Bool}

theorem run_judge_revoked (h : w.isRevoked ctx = true) :
    (judge ctx q test negated v b).run w = (.done (some false), w) := by
  have hrevoked : (Eval.isRevoked ctx).run w = (true, w) := congrArg (·, w) h
  rw [judge, Eval.run_bind hrevoked]
  rfl

theorem run_judge (h : w.isRevoked ctx = false) :
    (judge ctx q test negated v b).run w =
      match q.decided? negated ((test v).run w.host).value with
      | some verdict => (.done (some verdict), w.tested test v)
      | none => (.yield none, w.tested test v) := by
  have hrunning : (Eval.isRevoked ctx).run w = (false, w) := congrArg (·, w) h
  have hnote : (Eval.note (.test v)).run w =
      ((), { w with journal := w.journal ++ [.test v] }) := rfl
  have htest : (Eval.host (test v)).run { w with journal := w.journal ++ [.test v] } =
      (((test v).run w.host).value, w.tested test v) := rfl
  rw [judge, Eval.run_bind hrunning, if_neg Bool.false_ne_true, Eval.run_bind hnote,
    Eval.run_bind htest]
  cases q.decided? negated ((test v).run w.host).value <;> rfl

theorem run_verdict (scan : ForInStep (Option Bool)) :
    (verdict ctx q negated scan).run w =
      (scan.value.getD (!w.isRevoked ctx && q.undecided negated), w) := by
  have hasked : (Eval.isRevoked ctx).run w = (w.isRevoked ctx, w) := rfl
  rw [verdict]
  cases scan.value with
  | some verdict => rfl
  | none =>
    dsimp only
    rw [Eval.run_bind hasked]
    cases w.isRevoked ctx <;> rfl

end Check

/-! ### Steady functions -/

/-- In all states of the host of some kind a function comes to the same. It leaves a state of that
kind, does not revoke the event and tests nothing. -/
structure HostM.Steady {σ α : Type} (R : σ → Prop) (ctx : ContextId) (m : HostM σ α) : Prop where
  same : ∀ {s s'}, R s → R s' → (m.run s).value = (m.run s').value
  stays : ∀ {s}, R s → R (m.run s).state
  quiet : ∀ {s}, R s → ∀ e ∈ (m.run s).journal, e.revokes ctx = false ∧ e.tested? = none

namespace Check
variable {σ : Type} {R : σ → Prop} {ctx : ContextId} {q : Quantifier} {test : Test σ}
  {negated : Bool} {earlier gathered : List Value} {w w' : World σ}

/-- A condition in one world and a reading in another are under way, and what was gathered there is
what was tested here. -/
structure Pending (R : σ → Prop) (ctx : ContextId) (earlier gathered : List Value)
    (w w' : World σ) : Prop where
  host : R w.host
  readingHost : R w'.host
  running : w.isRevoked ctx = false
  readingRuns : w'.isRevoked ctx = false
  memo : w.memo? ctx = w'.memo? ctx
  bindings : w.bindings = w'.bindings
  tests : w.tests = earlier ++ gathered.reverse

/-- A node cannot tell the two worlds apart. -/
theorem Pending.twins : Node.Twins ctx (Pending R ctx earlier gathered) where
  revoked h := h.running.trans h.readingRuns.symm
  bindings h := h.bindings
  memo h := h.memo
  note {w w'} e he h := by
    have hquiet : ∀ e' ∈ [e], e'.revokes ctx = false ∧ e'.tested? = none := by
      intro e' he'
      rw [List.mem_singleton.mp he']
      cases e <;> first | exact ⟨rfl, rfl⟩ | exact nomatch he
    exact { h with
      running := World.isRevoked_append w.host h.running fun e' he' => (hquiet e' he').1
      readingRuns := World.isRevoked_append w'.host h.readingRuns fun e' he' => (hquiet e' he').1
      tests := (World.tests_append w.host fun e' he' => (hquiet e' he').2).trans h.tests }
  remember node t values h :=
    { host := by simpa using h.host
      readingHost := by simpa using h.readingHost
      running := by simpa using h.running
      readingRuns := by simpa using h.readingRuns
      memo := World.memo?_remember_congr h.memo
      bindings := by simpa using h.bindings
      tests := by simpa using h.tests }

/-- A steady function does the same in both worlds. -/
theorem Pending.steady {α : Type} {m : HostM σ α} (hm : m.Steady R ctx) :
    Node.Alike (Pending R ctx earlier gathered) (Eval.host m) := by
  intro w w' h
  have hsame : (Eval.host m).run w' = ((m.run w.host).value, ((Eval.host m).run w').2) :=
    congrArg (·, ((Eval.host m).run w').2) (hm.same h.readingHost h.host)
  have hquiet := hm.quiet h.host
  have hreadingQuiet := hm.quiet h.readingHost
  exact ⟨_, _, _, rfl, hsame,
    { host := hm.stays h.host
      readingHost := hm.stays h.readingHost
      running := World.isRevoked_append _ h.running fun e he => (hquiet e he).1
      readingRuns := World.isRevoked_append _ h.readingRuns fun e he => (hreadingQuiet e he).1
      memo := h.memo
      bindings := h.bindings
      tests := (World.tests_append _ fun e he => (hquiet e he).2).trans h.tests }⟩

/-- A steady test is one more value tested here; there the value is gathered. -/
theorem Pending.tested {v : Value} (htest : (test v).Steady R ctx)
    (h : Pending R ctx earlier gathered w w') :
    Pending R ctx earlier (v :: gathered) (w.tested test v) w' := by
  have hnoted : ({ w with journal := w.journal ++ [.test v] } : World σ).tests =
      w.tests ++ [v] := by
    rw [World.tests, List.filterMap_append]
    rfl
  have hquiet := htest.quiet h.host
  have hrunning : ({ w with journal := w.journal ++ [.test v] } : World σ).isRevoked ctx = false :=
    World.isRevoked_append w.host h.running fun e he => by rw [List.mem_singleton.mp he]; rfl
  have htests : (w.tested test v).tests = w.tests ++ [v] :=
    (World.tests_append _ fun e he => (hquiet e he).2).trans hnoted
  exact
    { h with
      host := htest.stays h.host
      running := World.isRevoked_append _ hrunning fun e he => (hquiet e he).1
      tests := by rw [htests, h.tests, List.reverse_cons, List.append_assoc] }

/-- How a condition is decided: by a value that is tested last, of those that would be read. -/
structure Decided (q : Quantifier) (passes : Value → Bool) (negated : Bool) (ctx : ContextId)
    (earlier : List Value) (verdict : Option Bool) (w : World σ) (read : List Value) : Prop where
  split : ∃ before v after, read = before ++ v :: after ∧
    (∀ u ∈ before, q.leavesOpen (passes u) = true) ∧ q.leavesOpen (passes v) = false ∧
    w.tests = earlier ++ (before ++ [v])
  verdict : verdict = some (!q.undecided negated)
  running : w.isRevoked ctx = false

theorem Decided.read_on {passes : Value → Bool} {verdict : Option Bool} {read : List Value}
    (h : Decided q passes negated ctx earlier verdict w read) (v : Value) :
    Decided q passes negated ctx earlier verdict w (read ++ [v]) := by
  obtain ⟨before, u, after, hread, hrest⟩ := h.split
  exact { h with split := ⟨before, u, after ++ [v], by simp [hread], hrest⟩ }

/-- **A condition goes side by side with a reading** until it is decided. -/
theorem sideBySide {s : σ} (hs : R s) (htest : ∀ v, (test v).Steady R ctx) (q : Quantifier)
    (negated : Bool) (earlier : List Value) :
    Node.SideBySide (HostM.Steady R ctx) ctx (judge ctx q test negated) Node.gather
      (fun verdict gathered w w' => (verdict = none ∧
        ∀ v ∈ gathered, q.leavesOpen ((test v).run s).value = true) ∧
          Pending R ctx earlier gathered w w')
      fun verdict w gathered _ => Decided q (fun v => ((test v).run s).value) negated ctx earlier
        verdict w gathered.reverse where
  twins verdict gathered := Pending.twins.constrain _
  alike hm verdict gathered := (Pending.steady hm).constrain _
  step v verdict gathered w w' h := by
    obtain ⟨⟨rfl, hopen⟩, hpending⟩ := h
    have hafter := hpending.tested (htest v)
    rw [run_judge hpending.running, (htest v).same hpending.host hs, Quantifier.decided?_eq]
    cases hv : q.leavesOpen ((test v).run s).value with
    | true => exact .both ⟨⟨rfl, List.forall_mem_cons.mpr ⟨hv, hopen⟩⟩, hafter⟩
    | false =>
      refine .ahead ⟨⟨gathered.reverse, v, [], by simp [ForInStep.value], ?_, hv, ?_⟩, rfl,
        hafter.running⟩
      · exact fun u hu => hopen u (List.mem_reverse.mp hu)
      · rw [hafter.tests, List.reverse_cons]
  hostFree _ _ _ _ _ _ h := h
  memos _ _ _ _ _ h := h
  after verdict w v gathered w' h := by
    have hread := h.read_on v
    rw [← List.reverse_cons] at hread
    exact hread

end Check

/-! ### The meaning of a condition -/

namespace Node
variable {σ : Type} {R : σ → Prop} {ctx : ContextId} {test : Test σ} {n : Node σ}

theorem run_check (n : Node σ) (negated : Bool) (w : World σ) :
    (n.check ctx test negated).run w =
      let visited := (n.visit ctx (Check.judge ctx n.reading test negated) none).run w
      (visited.1.value.getD (!visited.2.isRevoked ctx && n.reading.undecided negated),
        visited.2) := by
  rw [check]
  exact (Eval.run_bind rfl).trans (Check.run_verdict _)

/-- **A condition means what the values of its node are worth**: whether all of them pass, or one
does, turned around if the condition is negated. A single node passes only by its value. A condition
tests the values up to the first that decides, and no others. The values of a list are those of its
nodes, whatever these would come to on their own. -/
theorem check_meaning (hn : n.Uses (HostM.Steady R ctx) ctx)
    (htest : ∀ v, (test v).Steady R ctx) {w : World σ} (hs : R w.host)
    (hrunning : w.isRevoked ctx = false) (negated : Bool) :
    let vs := ((n.array ctx).run w).1
    let reading : Quantifier := if n.isSingle then .or else n.quantifier
    let passes := fun v => ((test v).run w.host).value
    let checked := (n.check ctx test negated).run w
    checked.1 = (reading.holds passes vs ^^ negated) ∧
      checked.2.tests = w.tests ++ reading.heard passes vs ∧ checked.2.isRevoked ctx = false ∧
      ∀ id type children q, n = .list id type children q →
        vs = ((children.mapM (Node.array ctx)).run w).1.flatten := by
  have hstart : Check.Pending R ctx w.tests [] w w :=
    ⟨hs, hs, hrunning, hrunning, rfl, rfl, (List.append_nil _).symm⟩
  have hvisits := visit_abreast hn (Check.sideBySide hs htest n.reading negated w.tests)
    (b := none) (c := []) ⟨⟨rfl, fun _ h => nomatch h⟩, hstart⟩
  have hlist : ∀ id type children q, n = .list id type children q →
      ((n.array ctx).run w).1 = ((children.mapM (Node.array ctx)).run w).1.flatten := by
    rintro id type children q rfl
    rw [array_list]
  simp only [← and_assoc]
  refine ⟨?_, hlist⟩
  rw [run_check, run_array, gathered, ← reading]
  generalize (n.visit ctx (Check.judge ctx n.reading test negated) none).run w = visited
    at hvisits ⊢
  generalize (n.visit ctx gather []).run w = read at hvisits ⊢
  cases hvisits with
  | @both _ gathered _ _ h =>
    obtain ⟨⟨rfl, hopen⟩, hpending⟩ := h
    have hall : ∀ v ∈ gathered.reverse,
        n.reading.leavesOpen ((test v).run w.host).value = true :=
      fun v hv => hopen v (List.mem_reverse.mp hv)
    refine ⟨⟨?_, ?_⟩, hpending.running⟩
    · simp [Quantifier.holds_of_open hall, ForInStep.value, hpending.running]
    · rw [hpending.tests, ForInStep.value, Quantifier.heard_of_open hall]
  | @ahead _ _ step' _ h =>
    obtain ⟨⟨before, v, after, hsplit, hbefore, hv, htests⟩, rfl, hrunning'⟩ := h
    have hmem : v ∈ step'.value.reverse := by simp [hsplit]
    refine ⟨⟨?_, ?_⟩, hrunning'⟩
    · rw [Quantifier.holds_of_decided hmem hv]
      rfl
    · rw [htests, hsplit, Quantifier.heard_of_decided hbefore hv]

/-! A list asks whether one of its values is two. Its first node alone would not pass, since it asks
for all of its values; it has a two all the same. The host counts how often it is asked. A text has
no successor, and what yields nothing does not pass where it is single, even if it asks for all. -/

def isTwo : Test Nat := fun v => do
  modify (· + 1)
  return match v.payload with
    | .i64 n => n == 2
    | _ => false

def successor : Property Nat :=
  .typed "successor" ⟨"integer"⟩ .i64 .i64 fun (n : Int64) => do
    modify (· + 1)
    return some (n + 1)

def oneAndTwo : Node Nat :=
  ofChildren ⟨[1]⟩ [.literal ⟨[2]⟩ ⟨"integer"⟩ [⟨⟨"integer"⟩, .i64 1⟩] .and,
    .literal ⟨[3]⟩ ⟨"integer"⟩ [⟨⟨"integer"⟩, .i64 2⟩] .and] .and

def keptSuccessors : Node Nat :=
  .memoized ⟨[4]⟩ (.property ⟨[5]⟩ (.literal ⟨[6]⟩ ⟨"integer"⟩
    [⟨⟨"integer"⟩, .i64 6⟩, ⟨⟨"integer"⟩, .i64 7⟩] .and) successor)

def oneOfFour : Node Nat := ofChildren ⟨[0]⟩ [oneAndTwo, keptSuccessors] .or

def successorOfText : Node Nat :=
  .property ⟨[8]⟩ (.literal ⟨[9]⟩ ⟨"text"⟩ [⟨⟨"text"⟩, .string "one"⟩] .and) successor

theorem isTwo_steady (ctx : ContextId) (v : Value) : (isTwo v).Steady (fun _ => True) ctx :=
  ⟨fun _ _ => rfl, fun _ => trivial, fun _ _ he => nomatch he⟩

theorem successor_steady (ctx : ContextId) (v : Value) :
    (successor.get v).Steady (fun _ => True) ctx := by
  simp only [successor, Property.typed]
  cases v.as? .i64 <;> exact ⟨fun _ _ => rfl, fun _ => trivial, fun _ _ he => nomatch he⟩

theorem oneOfFour_uses (ctx : ContextId) :
    oneOfFour.Uses (HostM.Steady (fun _ => True) ctx) ctx := by
  refine .list fun c hc => ?_
  rcases List.mem_pair.mp hc with rfl | rfl
  · refine .list fun c hc => ?_
    rcases List.mem_pair.mp hc with rfl | rfl <;> exact .literal
  · exact .memoized (.property .literal (successor_steady ctx))

/-- The two is the second value, and nothing is asked for after it. The text is single and asks for
all, but has nothing to pass by. -/
theorem oneOfFour_meaning :
    ((oneOfFour.check ⟨7⟩ isTwo false).run ((World.start 0).withMemo ⟨7⟩)).1 = true ∧
    ((oneOfFour.check ⟨7⟩ isTwo true).run ((World.start 0).withMemo ⟨7⟩)).1 = false ∧
    ((oneOfFour.check ⟨7⟩ isTwo true).run ((World.start 0).withMemo ⟨7⟩)).2.tests =
      [⟨⟨"integer"⟩, .i64 1⟩, ⟨⟨"integer"⟩, .i64 2⟩] ∧
    ((oneOfFour.check ⟨7⟩ isTwo true).run ((World.start 0).withMemo ⟨7⟩)).2.host = 2 ∧
    ((oneAndTwo.check ⟨7⟩ isTwo false).run ((World.start 0).withMemo ⟨7⟩)).1 = false ∧
    successorOfText.isSingle = true ∧ successorOfText.quantifier = .and ∧
    ((successorOfText.check ⟨7⟩ isTwo false).run (World.start 0)).1 = false ∧
    ((successorOfText.check ⟨7⟩ isTwo true).run (World.start 0)).1 = true := by
  have hmeaning := check_meaning (oneOfFour_uses ⟨7⟩) (isTwo_steady ⟨7⟩)
    (w := (World.start 0).withMemo ⟨7⟩) trivial rfl
  have hsingle := check_meaning (.property .literal (successor_steady ⟨7⟩) :
    successorOfText.Uses (HostM.Steady (fun _ => True) ⟨7⟩) ⟨7⟩) (isTwo_steady ⟨7⟩)
    (w := World.start 0) trivial rfl
  exact ⟨(hmeaning false).1, (hmeaning true).1, (hmeaning true).2.1, rfl, rfl, rfl, rfl,
    (hsingle false).1, (hsingle true).1⟩

end Node

end ScriptEngine

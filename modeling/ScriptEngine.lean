import ScriptEngine.Engine.ReportReading
import ScriptEngine.Engine.Teardown
import ScriptEngine.Expr.Convert
import ScriptEngine.Expr.Snapshot
import ScriptEngine.Expr.Timing
import ScriptEngine.Main
import ScriptEngine.Proofs.Registration
import ScriptEngine.Proofs.Search
import ScriptEngine.Proofs.Supertypes
import ScriptEngine.Proofs.Closure
import ScriptEngine.Proofs.Conversions
import ScriptEngine.Proofs.Runs
import ScriptEngine.Proofs.Typing
import ScriptEngine.Proofs.TypedValues
import ScriptEngine.Proofs.EdgeTable
import ScriptEngine.Proofs.Shapes
import ScriptEngine.Proofs.Visits
import ScriptEngine.Proofs.Changes
import ScriptEngine.Proofs.Looking
import ScriptEngine.Proofs.Keeping
import ScriptEngine.Proofs.Abreast
import ScriptEngine.Proofs.Verdicts
import ScriptEngine.Proofs.Revocation
import ScriptEngine.Proofs.Commands
import ScriptEngine.Proofs.AppendOnly
import ScriptEngine.Proofs.Rebinding
import ScriptEngine.Proofs.Outdated
import ScriptEngine.Proofs.Agreement
import ScriptEngine.Proofs.Turns
import ScriptEngine.Proofs.Listing
import ScriptEngine.Proofs.Reports
import ScriptEngine.Proofs.Accepted
import ScriptEngine.Proofs.Ranks
import ScriptEngine.Proofs.Patterns
import ScriptEngine.Proofs.Placeholders
import ScriptEngine.Proofs.Startup
import ScriptEngine.Proofs.Seals
import ScriptEngine.Proofs.Comparisons
import ScriptEngine.Proofs.Candidates
import ScriptEngine.Proofs.TimeBinding
import ScriptEngine.Proofs.InForce
import ScriptEngine.Proofs.Levels
import ScriptEngine.Proofs.Printed
import ScriptEngine.Proofs.Traces
import ScriptEngine.Proofs.ReportText
import ScriptEngine.Proofs.Given
import ScriptEngine.Proofs.Accesses
import ScriptEngine.Proofs.Distances
import ScriptEngine.Proofs.Likeness
import ScriptEngine.Proofs.Wrapped
import ScriptEngine.Proofs.Deltas
import ScriptEngine.Proofs.Hierarchy
import ScriptEngine.Proofs.Names
import ScriptEngine.Proofs.Laziness
import ScriptEngine.Proofs.Recalls
import ScriptEngine.Proofs.KeptOnce
import ScriptEngine.Proofs.Origins
import ScriptEngine.Proofs.Courses
import ScriptEngine.Proofs.Rounding
import ScriptEngine.Proofs.Numerals

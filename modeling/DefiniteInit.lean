import DefiniteInit.Analysis
import DefiniteInit.AttrSet
import DefiniteInit.BaseCall
import DefiniteInit.Class.Cycle
import DefiniteInit.Class.Declaration
import DefiniteInit.Class.Graph
import DefiniteInit.Class.Lineage
import DefiniteInit.Class.Table
import DefiniteInit.Class.Waves
import DefiniteInit.CompileUnit
import DefiniteInit.Document.Basic
import DefiniteInit.Document.Reader
import DefiniteInit.Escape
import DefiniteInit.Expr.Basic
import DefiniteInit.Expr.Equality
import DefiniteInit.Expr.Literal
import DefiniteInit.Expr.Receiver
import DefiniteInit.Expr.Shorthand
import DefiniteInit.Facts.Basic
import DefiniteInit.Facts.OfClass
import DefiniteInit.Fault
import DefiniteInit.Name.Basic
import DefiniteInit.Name.Pool
import DefiniteInit.Name.Table
import DefiniteInit.Options
import DefiniteInit.Span
import DefiniteInit.State
import DefiniteInit.Stmt.Assigned
import DefiniteInit.Stmt.Basic
import DefiniteInit.Stmt.Equality
import DefiniteInit.Stmt.Shorthand
import DefiniteInit.Storage
import DefiniteInit.Verdict
import DefiniteInit.Walk.Finally
import DefiniteInit.Walk.Loop
import DefiniteInit.Walk.Stmt
import DefiniteInit.Walk.Summary
import DefiniteInit.Walk.Trace
import DefiniteInit.Proofs.RunLaws
import DefiniteInit.Proofs.Settling
import DefiniteInit.Proofs.Endings
import DefiniteInit.Proofs.Accounts
import DefiniteInit.Proofs.Readings
import DefiniteInit.Proofs.WalkSoundness
import DefiniteInit.Proofs.ExitSoundness
import DefiniteInit.Proofs.Hierarchy
import DefiniteInit.Proofs.LayoutSoundness
import DefiniteInit.Proofs.Chains
import DefiniteInit.Proofs.HandOver
import DefiniteInit.Proofs.Permanence
import DefiniteInit.Proofs.EscapeAccounts
import DefiniteInit.Proofs.EscapeSoundness
import DefiniteInit.Proofs.ThoroughWalk
import DefiniteInit.Proofs.LettingGo
import DefiniteInit.Proofs.Cycles
import DefiniteInit.Proofs.CycleMarks
import DefiniteInit.Proofs.Schedules
import DefiniteInit.Proofs.WriteOnce
import DefiniteInit.Proofs.ForeignAncestry
import DefiniteInit.Proofs.Narrowing
import DefiniteInit.Proofs.LayoutGrowth
import DefiniteInit.Proofs.LayoutsOnDemand
import DefiniteInit.Proofs.DeletableSlots
import DefiniteInit.Proofs.Comparisons
import DefiniteInit.Proofs.WalkLaws
import DefiniteInit.Proofs.Contexts
import DefiniteInit.Proofs.CycleReports
import DefiniteInit.Proofs.Forwarding
import DefiniteInit.Proofs.Occurrences
import DefiniteInit.Proofs.Monotonicity
import DefiniteInit.Proofs.Credits
import DefiniteInit.Proofs.SilentWalks
import DefiniteInit.Proofs.StrictGlobals
import DefiniteInit.Proofs.SafeExpressions
import DefiniteInit.Proofs.Bookkeeping
import DefiniteInit.Proofs.Renaming
import DefiniteInit.Proofs.RenamedWalks
import DefiniteInit.Proofs.DeclarationOrder
import DefiniteInit.Proofs.LoopHeads
import DefiniteInit.Proofs.Visits
import DefiniteInit.Proofs.ShieldedRegions
import DefiniteInit.Proofs.Relabelling
import DefiniteInit.Proofs.UnknownForms
import DefiniteInit.Proofs.Rebinding
import DefiniteInit.Proofs.RecordedEscapes
import DefiniteInit.Proofs.Persistence
import DefiniteInit.Proofs.Repetition
import DefiniteInit.Proofs.FinalPasses
import DefiniteInit.Proofs.InheritedFacts
import DefiniteInit.Proofs.SlotTables
import DefiniteInit.Proofs.BitmapBits
import DefiniteInit.Proofs.Countdown
import DefiniteInit.Proofs.DeadCode
import DefiniteInit.Proofs.Reordering
import DefiniteInit.Proofs.Ledgers
import DefiniteInit.Proofs.LedgerDiscipline
import DefiniteInit.Proofs.NameTables
import DefiniteInit.Proofs.Ancestors
import DefiniteInit.Proofs.AssignmentPlaces
import DefiniteInit.Proofs.ClassCalls
import DefiniteInit.Proofs.BuiltGraphs

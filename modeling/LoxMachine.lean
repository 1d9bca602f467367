import LoxMachine.Main
import LoxMachine.Proofs.Grammar.Ensures
import LoxMachine.Proofs.Scope.Levels
import LoxMachine.Proofs.Grammar.Builds
import LoxMachine.Proofs.Scope.Fits
import LoxMachine.Proofs.Scope.Accepted
import LoxMachine.Proofs.Scope.Mirror
import LoxMachine.Proofs.Scope.Resolves
import LoxMachine.Proofs.Value.Fits
import LoxMachine.Proofs.Machine.Fits
import LoxMachine.Proofs.Machine.Opens
import LoxMachine.Proofs.Machine.Operations
import LoxMachine.Proofs.Machine.Preservation
import LoxMachine.Proofs.Session.Reachable
import LoxMachine.Proofs.Machine.Changes
import LoxMachine.Proofs.Machine.Growth
import LoxMachine.Proofs.Session.Safety
import LoxMachine.Proofs.Session.ScopeMirror
import LoxMachine.Proofs.Recode.Basic
import LoxMachine.Proofs.Value.Code
import LoxMachine.Proofs.Recode.Values
import LoxMachine.Proofs.Recode.Store
import LoxMachine.Proofs.Recode.Machine
import LoxMachine.Proofs.Recode.Operations
import LoxMachine.Proofs.Recode.Calls
import LoxMachine.Proofs.Recode.Step
import LoxMachine.Proofs.Recode.Static
import LoxMachine.Proofs.Recode.Kept
import LoxMachine.Proofs.Recode.Renaming
import LoxMachine.Proofs.Recode.Shown
import LoxMachine.Proofs.Session.Renaming
import LoxMachine.Proofs.Grammar.Carries
import LoxMachine.Proofs.Grammar.Moved
import LoxMachine.Proofs.Grammar.Joined
import LoxMachine.Proofs.Machine.Depth
import LoxMachine.Proofs.Recode.Later
import LoxMachine.Proofs.Session.Joined
import LoxMachine.Proofs.Grammar.Takes
import LoxMachine.Proofs.Program.Shaped
import LoxMachine.Proofs.Grammar.Spelled
import LoxMachine.Proofs.Program.Bare
import LoxMachine.Proofs.Grammar.Reads
import LoxMachine.Proofs.Grammar.ReadsTerm
import LoxMachine.Proofs.Grammar.ReadsDeclaration
import LoxMachine.Proofs.Scope.Blamed
import LoxMachine.Proofs.Scope.Rejected
import LoxMachine.Proofs.Program.Declarations
import LoxMachine.Proofs.Scope.Settled
import LoxMachine.Proofs.Search.Agrees
import LoxMachine.Proofs.Session.Search
import LoxMachine.Proofs.Text.Search
import LoxMachine.Proofs.Grammar.Cuts
import LoxMachine.Proofs.Shell.Incomplete
import LoxMachine.Proofs.Token.Longest
import LoxMachine.Proofs.Grammar.Prefixes
import LoxMachine.Proofs.Machine.Openings
import LoxMachine.Proofs.Program.Functions
import LoxMachine.Proofs.Value.Recorded
import LoxMachine.Proofs.Machine.Recorded
import LoxMachine.Proofs.Machine.Receiver
import LoxMachine.Proofs.Session.Records
import LoxMachine.Proofs.Session.Receiver
import LoxMachine.Proofs.Shell.Script
import LoxMachine.Proofs.Token.Written
import LoxMachine.Proofs.Form.Sexp
import LoxMachine.Proofs.Form.Number
import LoxMachine.Proofs.Form.Legible
import LoxMachine.Proofs.Form.Parsed
import LoxMachine.Proofs.Form.Shown
import LoxMachine.Proofs.Form.Readback
import LoxMachine.Proofs.Reach.Beside
import LoxMachine.Proofs.Reach.Confined
import LoxMachine.Proofs.Reach.Calls
import LoxMachine.Proofs.Machine.Extent
import LoxMachine.Proofs.Machine.Alone
import LoxMachine.Proofs.Session.Home
import LoxMachine.Proofs.Machine.Names
import LoxMachine.Proofs.Machine.TopLevel
import LoxMachine.Proofs.Session.Names
import LoxMachine.Proofs.Shell.Conversation
import LoxMachine.Proofs.Program.Renamed
import LoxMachine.Proofs.Scope.Renamed
import LoxMachine.Proofs.Grammar.Shifted
import LoxMachine.Proofs.Value.Renamed
import LoxMachine.Proofs.Machine.Renamed
import LoxMachine.Proofs.Session.Renamed
import LoxMachine.Proofs.Session.Deletion
import LoxMachine.Proofs.Scope.Chain
import LoxMachine.Proofs.Value.Made
import LoxMachine.Proofs.Machine.Made
import LoxMachine.Proofs.Session.History
import LoxMachine.Proofs.Session.Shape
import LoxMachine.Proofs.Machine.Returns
import LoxMachine.Proofs.Machine.Lookups
import LoxMachine.Proofs.Session.Initializers
import LoxMachine.Proofs.Machine.Evaluates
import LoxMachine.Proofs.Machine.Arguments
import LoxMachine.Proofs.Session.Arguments
import LoxMachine.Proofs.Machine.Phrases
import LoxMachine.Proofs.Machine.Bindings
import LoxMachine.Proofs.Machine.Dues
import LoxMachine.Proofs.Scope.Assigned
import LoxMachine.Proofs.Session.Completions
import LoxMachine.Proofs.Session.Constants
import LoxMachine.Proofs.Number.Digits
import LoxMachine.Proofs.Number.Rounding
import LoxMachine.Proofs.Number.Arithmetic
import LoxMachine.Proofs.Machine.Arithmetic
import LoxMachine.Proofs.Machine.Values
import LoxMachine.Proofs.Machine.Fields
import LoxMachine.Proofs.Value.Latest
import LoxMachine.Proofs.Session.Fields
import LoxMachine.Proofs.Session.Properties
import LoxMachine.Proofs.Grammar.Mended
import LoxMachine.Proofs.Recode.Flat
import LoxMachine.Proofs.Scope.Flat
import LoxMachine.Proofs.Session.Free
import LoxMachine.Proofs.Session.Layout
import LoxMachine.Proofs.Grammar.Ahead
import LoxMachine.Proofs.Grammar.Loops
import LoxMachine.Proofs.Session.Loops
import LoxMachine.Proofs.Number.Order
import LoxMachine.Proofs.Number.Printed
import LoxMachine.Proofs.Value.Equality
import LoxMachine.Proofs.Machine.Comparisons
import LoxMachine.Proofs.Scope.History
import LoxMachine.Proofs.Session.Parsings
import LoxMachine.Proofs.Token.Lines
import LoxMachine.Proofs.Token.OpenString
import LoxMachine.Proofs.Shell.Pending
import LoxMachine.Proofs.Grammar.Advances
import LoxMachine.Proofs.Grammar.Progress
import LoxMachine.Proofs.Grammar.ComesToEnd

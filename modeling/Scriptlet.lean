import Scriptlet.Evaluation.Fuel
import Scriptlet.Main
import Scriptlet.Session.FileTree
import Scriptlet.Proofs.Discipline
import Scriptlet.Proofs.Bracket
import Scriptlet.Proofs.Scope
import Scriptlet.Proofs.Lasting
import Scriptlet.Proofs.Window
import Scriptlet.Proofs.Slices
import Scriptlet.Proofs.Kept
import Scriptlet.Proofs.Reach
import Scriptlet.Proofs.Tree.Syntax
import Scriptlet.Proofs.Tree.Walk
import Scriptlet.Proofs.Tree.Spelling
import Scriptlet.Proofs.Tree.Matching
import Scriptlet.Proofs.Tree.Facing
import Scriptlet.Proofs.Tree.Refines
import Scriptlet.Proofs.Tree.Call
import Scriptlet.Proofs.Tree.Expression
import Scriptlet.Proofs.Tree.Statement
import Scriptlet.Proofs.Tree.Refinement
import Scriptlet.Proofs.Budget
import Scriptlet.Proofs.Formula.Syntax
import Scriptlet.Proofs.Formula.Value
import Scriptlet.Proofs.Formula.Reading
import Scriptlet.Proofs.Formula.Climbing
import Scriptlet.Proofs.Formula.Printing
import Scriptlet.Proofs.Tandem.Steps
import Scriptlet.Proofs.Tandem.Calls
import Scriptlet.Proofs.Tandem.Statements
import Scriptlet.Proofs.Twin.Lexing
import Scriptlet.Proofs.Twin.Memories
import Scriptlet.Proofs.Twin.Machines
import Scriptlet.Proofs.Twin.Reading
import Scriptlet.Proofs.Twin.Outer
import Scriptlet.Proofs.Twin.Steps
import Scriptlet.Proofs.Twin.Calls
import Scriptlet.Proofs.Twin.Bodies
import Scriptlet.Proofs.Twin.Copying
import Scriptlet.Proofs.Twin.Seam
import Scriptlet.Proofs.Twin.Pieces
import Scriptlet.Proofs.Lexical.Grammar
import Scriptlet.Proofs.Lexical.Reading
import Scriptlet.Proofs.Lexical.Windows
import Scriptlet.Proofs.Lexical.Numerals
import Scriptlet.Proofs.Room.Scaling
import Scriptlet.Proofs.Room.Scripts
import Scriptlet.Proofs.Trace.Evaluation
import Scriptlet.Proofs.Trace.Grounded
import Scriptlet.Proofs.Trace.Quotes
import Scriptlet.Proofs.Trace.Lists
import Scriptlet.Proofs.Trace.Registry
import Scriptlet.Proofs.Trace.Knowing
import Scriptlet.Proofs.Trace.Account
import Scriptlet.Proofs.Trace.Calls
import Scriptlet.Proofs.Trace.Bodies
import Scriptlet.Proofs.Trace.Runs
import Scriptlet.Proofs.Roster
import Scriptlet.Proofs.Naming
import Scriptlet.Proofs.Reports
import Scriptlet.Proofs.Moved.Lexing
import Scriptlet.Proofs.Moved.Relocation
import Scriptlet.Proofs.Moved.Block
import Scriptlet.Proofs.Moved.Command
import Scriptlet.Proofs.Definitions
import Scriptlet.Proofs.Excerpts
import Scriptlet.Proofs.Arguments
import Scriptlet.Proofs.Prompt
import Scriptlet.Proofs.Finishing.Words
import Scriptlet.Proofs.Finishing.Total
import Scriptlet.Proofs.Finishing.Forward
import Scriptlet.Proofs.Finishing.Scripts
import Scriptlet.Proofs.Told.Telling
import Scriptlet.Proofs.Told.Concert
import Scriptlet.Proofs.Told.Errors
import Scriptlet.Proofs.Trace.Discipline
import Scriptlet.Proofs.Trace.Beside
import Scriptlet.Proofs.Durable.Spending
import Scriptlet.Proofs.Durable.Charges
import Scriptlet.Proofs.Durable.Runs
import Scriptlet.Proofs.Unknown.Reading
import Scriptlet.Proofs.Unknown.Blame
import Scriptlet.Proofs.Unknown.Evaluation
import Scriptlet.Proofs.Unknown.Places
import Scriptlet.Proofs.Characters.Encoding
import Scriptlet.Proofs.Characters.Boundaries
import Scriptlet.Proofs.Characters.Memory
import Scriptlet.Proofs.Characters.Verbatim
import Scriptlet.Proofs.Characters.Literals
import Scriptlet.Proofs.Written.Functions
import Scriptlet.Proofs.Written.Keeping
import Scriptlet.Proofs.Written.Parameters
import Scriptlet.Proofs.Written.Definitions

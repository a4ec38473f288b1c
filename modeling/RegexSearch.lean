import RegexSearch.Byte
import RegexSearch.ByteSet
import RegexSearch.Anchor
import RegexSearch.Error
import RegexSearch.Pattern.Tree
import RegexSearch.Pattern.Printer
import RegexSearch.Pattern.Escape
import RegexSearch.Pattern.Bracket
import RegexSearch.Pattern.Quantifier
import RegexSearch.Pattern.Reader
import RegexSearch.Pattern.Cost
import RegexSearch.Pattern.Construct
import RegexSearch.Program.Basic
import RegexSearch.Program.Lowering
import RegexSearch.Program.Layout
import RegexSearch.Program.Listing
import RegexSearch.Match
import RegexSearch.Machine.Basic
import RegexSearch.Machine.Run
import RegexSearch.Machine.Budget
import RegexSearch.Scan
import RegexSearch.Cache
import RegexSearch.Engine
import RegexSearch.Lines
import RegexSearch.CommandLine.Arguments
import RegexSearch.CommandLine.Directory
import RegexSearch.CommandLine.Report
import RegexSearch.Dialogue
import RegexSearch.Main
import RegexSearch.Proofs.Machine.Registers
import RegexSearch.Proofs.Machine.Branches
import RegexSearch.Proofs.Machine.Anchoring
import RegexSearch.Proofs.Machine.Passages
import RegexSearch.Proofs.Machine.Search
import RegexSearch.Proofs.Machine.Stages
import RegexSearch.Proofs.Pattern.Outcomes
import RegexSearch.Proofs.Machine.Reaches
import RegexSearch.Proofs.Program.Placement
import RegexSearch.Proofs.Machine.Implements
import RegexSearch.Proofs.Machine.Loops
import RegexSearch.Proofs.Pattern.Groups
import RegexSearch.Proofs.Program.Meaning
import RegexSearch.Proofs.Program.Attempt
import RegexSearch.Proofs.Pattern.Captures
import RegexSearch.Proofs.Program.Captures
import RegexSearch.Proofs.Scan
import RegexSearch.Proofs.Pattern.Derivation
import RegexSearch.Proofs.Program.Derivability
import RegexSearch.Proofs.Program.Extent
import RegexSearch.Proofs.Program.Framed
import RegexSearch.Proofs.Pattern.Nodes
import RegexSearch.Proofs.Pattern.FirstOutcomes
import RegexSearch.Proofs.Program.Unrolling
import RegexSearch.Proofs.ByteSet
import RegexSearch.Proofs.ByteSet.Complement
import RegexSearch.Proofs.ByteSet.Sweep
import RegexSearch.Proofs.Pattern.Grammar
import RegexSearch.Proofs.Pattern.Escape
import RegexSearch.Proofs.Pattern.Bracket
import RegexSearch.Proofs.Pattern.Quantifier
import RegexSearch.Proofs.Pattern.Errors
import RegexSearch.Proofs.Pattern.Steps
import RegexSearch.Proofs.Pattern.Completeness
import RegexSearch.Proofs.Pattern.Soundness
import RegexSearch.Proofs.Pattern.Unambiguity
import RegexSearch.Proofs.Pattern.Union
import RegexSearch.Proofs.Program.Compiled
import RegexSearch.Proofs.Program.Cost
import RegexSearch.Proofs.Program.SameLayout
import RegexSearch.Proofs.Program.WrittenOut
import RegexSearch.Proofs.Machine.Safety
import RegexSearch.Proofs.Machine.Copying
import RegexSearch.Proofs.Cache
import RegexSearch.Proofs.Engine.Calls
import RegexSearch.Proofs.Machine.Limit
import RegexSearch.Proofs.Machine.Slots
import RegexSearch.Proofs.Program.Slots
import RegexSearch.Proofs.Engine.Limits
import RegexSearch.Proofs.Program.Anchored
import RegexSearch.Proofs.Enumeration
import RegexSearch.Proofs.Shortcut
import RegexSearch.Proofs.Engine.Agreement
import RegexSearch.Proofs.Engine.WholeText
import RegexSearch.Proofs.Engine.Replacement
import RegexSearch.Proofs.Program.Reordering
import RegexSearch.Proofs.Program.Capturing
import RegexSearch.Proofs.Cache.History
import RegexSearch.Proofs.Cache.Linked
import RegexSearch.Proofs.Cache.Inclusion
import RegexSearch.Proofs.Engine.Once
import RegexSearch.Proofs.CommandLine.Printing
import RegexSearch.Proofs.CommandLine.Counting
import RegexSearch.Proofs.Pattern.WellFormed
import RegexSearch.Proofs.Program.Parentheses
import RegexSearch.Proofs.Descent.Basic
import RegexSearch.Proofs.Descent.Runs
import RegexSearch.Proofs.Descent.Brackets
import RegexSearch.Proofs.Descent.Quantifiers
import RegexSearch.Proofs.Descent.Operands
import RegexSearch.Proofs.Descent.Agreement
import RegexSearch.Proofs.Descent.Members
import RegexSearch.Proofs.Emission.Basic
import RegexSearch.Proofs.Emission.Agreement
import RegexSearch.Proofs.Descent.Compiling
import RegexSearch.Proofs.Machine.Locality
import RegexSearch.Proofs.Scan.Restart
import RegexSearch.Proofs.Pattern.Quoting
import RegexSearch.Proofs.Engine.Occurrences
import RegexSearch.Proofs.ByteSet.Shown
import RegexSearch.Proofs.Program.Entries
import RegexSearch.Proofs.Program.Listing
import RegexSearch.Proofs.Program.Parts
import RegexSearch.Proofs.Program.Stretches
import RegexSearch.Proofs.Program.Rounds
import RegexSearch.Proofs.Program.Returns
import RegexSearch.Proofs.Machine.Trail
import RegexSearch.Proofs.Program.Consuming
import RegexSearch.Proofs.Program.Marks

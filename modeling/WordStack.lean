import WordStack.Builder
import WordStack.Bytecode
import WordStack.Cli.Command
import WordStack.Cli.Directory
import WordStack.Cli.Options
import WordStack.Cli.Place
import WordStack.Cli.Report
import WordStack.Cli.Terminal
import WordStack.Error
import WordStack.Fault
import WordStack.Instruction
import WordStack.Listing
import WordStack.Log.Calendar
import WordStack.Log.Level
import WordStack.Log.Logger
import WordStack.Log.Timestamp
import WordStack.Machine.Basic
import WordStack.Machine.Call
import WordStack.Machine.Run
import WordStack.Machine.Trace
import WordStack.Main
import WordStack.Numeral
import WordStack.Opcode
import WordStack.Source.Diagnostic
import WordStack.Source.Literal
import WordStack.Source.Program
import WordStack.Source.Statement
import WordStack.Source.Token
import WordStack.Stack
import WordStack.Text.Blank
import WordStack.Text.Line
import WordStack.Word
import WordStack.Proofs.Text.Blank
import WordStack.Proofs.Text.Line
import WordStack.Proofs.Numeral
import WordStack.Proofs.Word
import WordStack.Proofs.Literal
import WordStack.Proofs.Decode
import WordStack.Proofs.Machine.Step
import WordStack.Proofs.Machine.Notice
import WordStack.Proofs.Stack
import WordStack.Proofs.Machine.History
import WordStack.Proofs.Machine.Fault
import WordStack.Proofs.Listing.Line
import WordStack.Proofs.Listing.Reassembly
import WordStack.Proofs.Listing.Trail
import WordStack.Proofs.Source.Scan
import WordStack.Proofs.Source.Meaning
import WordStack.Proofs.Source.Execution
import WordStack.Proofs.Machine.Stepping
import WordStack.Proofs.Machine.Limit
import WordStack.Proofs.Machine.Append
import WordStack.Proofs.Encoding
import WordStack.Proofs.Machine.Frame
import WordStack.Proofs.Machine.Control
import WordStack.Proofs.Listing.Assembled
import WordStack.Proofs.Source.Blame
import WordStack.Proofs.Source.Column
import WordStack.Proofs.Source.Failure
import WordStack.Proofs.Source.Reading
import WordStack.Proofs.Source.Joined
import WordStack.Proofs.Source.Caret
import WordStack.Proofs.Cli.Command
import WordStack.Proofs.Bytecode
import WordStack.Proofs.Cli.Group
import WordStack.Proofs.Cli.Observed
import WordStack.Proofs.Cli.Order
import WordStack.Proofs.Cli.Logging
import WordStack.Proofs.Source.Rebuilt
import WordStack.Proofs.Listing.Execution
import WordStack.Proofs.Listing.Span
import WordStack.Proofs.Machine.Termination
import WordStack.Proofs.Machine.Logged
import WordStack.Proofs.Machine.Decision
import WordStack.Proofs.Mnemonic
import WordStack.Proofs.Source.Layout
import WordStack.Proofs.Stack.History
import WordStack.Proofs.Source.Literal
import WordStack.Proofs.Source.Width
import WordStack.Proofs.Decoration
import WordStack.Proofs.Source.Run
import WordStack.Proofs.Digits
import WordStack.Proofs.Word.Bytes
import WordStack.Proofs.Log.Calendar
import WordStack.Proofs.Log.Overflow
import WordStack.Proofs.Log.Timestamp

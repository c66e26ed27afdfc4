import WordRam.Cli.Files
import WordRam.Cli.Options
import WordRam.Cli.Session
import WordRam.Config
import WordRam.Digest
import WordRam.Digest.Keccak
import WordRam.Event
import WordRam.Execution
import WordRam.Fault
import WordRam.Header
import WordRam.Instruction
import WordRam.Machine
import WordRam.Machine.Execute
import WordRam.Main
import WordRam.Memory
import WordRam.Memory.Cells
import WordRam.Opcode
import WordRam.Params
import WordRam.Power
import WordRam.Program
import WordRam.Record
import WordRam.Refusal
import WordRam.Source.Diagnostic
import WordRam.Source.Statement
import WordRam.Source.Term
import WordRam.Tape
import WordRam.Text.Blank
import WordRam.Text.Decimal
import WordRam.Text.Extending
import WordRam.Text.Line
import WordRam.Text.Numeral
import WordRam.Text.Quoted
import WordRam.Text.Ranges
import WordRam.Text.Unassigned
import WordRam.Transcript
import WordRam.Word
import WordRam.Proofs.Except
import WordRam.Proofs.Machine.Effect
import WordRam.Proofs.Machine.Valid
import WordRam.Proofs.Execution.Transition
import WordRam.Proofs.Execution.Calls
import WordRam.Proofs.Execution.Valid
import WordRam.Proofs.Assembly.Spelling
import WordRam.Proofs.Assembly.Draft
import WordRam.Proofs.Assembly.Listing
import WordRam.Proofs.Execution.InBounds
import WordRam.Proofs.Execution.Atomic
import WordRam.Proofs.Checked.Alu
import WordRam.Proofs.Checked.Machine
import WordRam.Proofs.Checked.Execution
import WordRam.Proofs.Checked.Assembly
import WordRam.Proofs.Checked.ClosedWorld
import WordRam.Proofs.Execution.Steps
import WordRam.Proofs.Execution.StepLimit
import WordRam.Proofs.Machine.Frame
import WordRam.Proofs.Execution.Protection
import WordRam.Proofs.Execution.Similar
import WordRam.Proofs.Memory.Bytes
import WordRam.Proofs.Memory.Dense
import WordRam.Proofs.Transcript.Bytes
import WordRam.Proofs.Transcript.Binding
import WordRam.Proofs.Execution.Trajectory
import WordRam.Proofs.Execution.Lockstep
import WordRam.Proofs.Execution.Consumed
import WordRam.Proofs.Machine.Extends
import WordRam.Proofs.Execution.Restriction
import WordRam.Proofs.Text.Numeral
import WordRam.Proofs.Text.Joined
import WordRam.Proofs.Assembly.HeaderLine
import WordRam.Proofs.Assembly.Disassembly
import WordRam.Proofs.Assembly.Operands
import WordRam.Proofs.Execution.LabelJump
import WordRam.Proofs.Execution.Restart
import WordRam.Proofs.Assembly.Faults
import WordRam.Proofs.Assembly.Defects
import WordRam.Proofs.Assembly.Errors
import WordRam.Proofs.Text.Start
import WordRam.Proofs.Assembly.Diagnosis
import WordRam.Proofs.Assembly.Dialect
import WordRam.Proofs.Execution.Dialect
import WordRam.Proofs.Execution.Containment
import WordRam.Proofs.Transcript.Absorbed
import WordRam.Proofs.Memory.ByteView
import WordRam.Proofs.Execution.FaultConditions
import WordRam.Proofs.Word.Arithmetic
import WordRam.Proofs.Word.Shifts
import WordRam.Proofs.Machine.Footprint
import WordRam.Proofs.Execution.Footprint
import WordRam.Proofs.Execution.FaultAddress
import WordRam.Proofs.Assembly.HeaderFields
import WordRam.Proofs.Assembly.HeaderReading
import WordRam.Proofs.Assembly.Tokens
import WordRam.Proofs.Word.Results
import WordRam.Proofs.Word.Signed
import WordRam.Proofs.Execution.Reads
import WordRam.Proofs.Execution.Congruent
import WordRam.Proofs.Assembly.Renumbering
import WordRam.Proofs.Text.Trimming
import WordRam.Proofs.Assembly.Rewording
import WordRam.Proofs.Assembly.Noise
import WordRam.Proofs.Cli.Overrides
import WordRam.Proofs.Transcript.Units
import WordRam.Proofs.Transcript.Printed
import WordRam.Proofs.Execution.Log
import WordRam.Proofs.Cli.Arguments
import WordRam.Proofs.Cli.Inputs
import WordRam.Proofs.Cli.Sessions

import IntCircuit.Bits.Add
import IntCircuit.Bits.Basic
import IntCircuit.Bits.Compare
import IntCircuit.Bits.Denote
import IntCircuit.Bits.Divide
import IntCircuit.Bits.Logic
import IntCircuit.Bits.Multiply
import IntCircuit.Bits.Shift
import IntCircuit.Circuit.Basic
import IntCircuit.Circuit.Gate
import IntCircuit.Circuit.Signature
import IntCircuit.Cnf.Basic
import IntCircuit.Cnf.Encoder
import IntCircuit.Fault
import IntCircuit.Junction
import IntCircuit.Label
import IntCircuit.Model
import IntCircuit.Node.Basic
import IntCircuit.Node.Eval
import IntCircuit.Node.Reach
import IntCircuit.Node.Text
import IntCircuit.Operator
import IntCircuit.Sat.BackEnd
import IntCircuit.Sat.Engine
import IntCircuit.Sat.Incremental
import IntCircuit.Sat.Scripted
import IntCircuit.Sat.Search
import IntCircuit.Solve
import IntCircuit.VariablePool
import IntCircuit.Word.Basic
import IntCircuit.Word.Operations
import IntCircuit.Word.Tree
import IntCircuit.Workspace
import IntCircuit.Proofs.Bits.Add
import IntCircuit.Proofs.Bits.Compare
import IntCircuit.Proofs.Bits.Constant
import IntCircuit.Proofs.Bits.Decode
import IntCircuit.Proofs.Bits.Denotes
import IntCircuit.Proofs.Bits.Divide
import IntCircuit.Proofs.Bits.Logic
import IntCircuit.Proofs.Bits.Multiply
import IntCircuit.Proofs.Bits.Quotient
import IntCircuit.Proofs.Bits.Shift
import IntCircuit.Proofs.Checked.Add
import IntCircuit.Proofs.Checked.Basic
import IntCircuit.Proofs.Checked.Construction
import IntCircuit.Proofs.Checked.Divide
import IntCircuit.Proofs.Checked.Literal
import IntCircuit.Proofs.Checked.Logic
import IntCircuit.Proofs.Checked.Remainder
import IntCircuit.Proofs.Checked.Ring
import IntCircuit.Proofs.Checked.Shift
import IntCircuit.Proofs.Checked.Word
import IntCircuit.Proofs.Circuit.Below
import IntCircuit.Proofs.Circuit.Constant
import IntCircuit.Proofs.Circuit.Ensures
import IntCircuit.Proofs.Circuit.Fold
import IntCircuit.Proofs.Circuit.Gates
import IntCircuit.Proofs.Circuit.Gathering
import IntCircuit.Proofs.Circuit.History
import IntCircuit.Proofs.Circuit.Junctions
import IntCircuit.Proofs.Circuit.NormalForm
import IntCircuit.Proofs.Circuit.Opposite
import IntCircuit.Proofs.Circuit.Sharing
import IntCircuit.Proofs.Circuit.Valid
import IntCircuit.Proofs.Cnf.Definition
import IntCircuit.Proofs.Cnf.Encoder
import IntCircuit.Proofs.Cnf.Groups
import IntCircuit.Proofs.Cnf.LabelSpace
import IntCircuit.Proofs.Cnf.Models
import IntCircuit.Proofs.Dialogue
import IntCircuit.Proofs.Inquiry
import IntCircuit.Proofs.Judgement
import IntCircuit.Proofs.Model
import IntCircuit.Proofs.Program.Basic
import IntCircuit.Proofs.Program.Constant
import IntCircuit.Proofs.Program.Replay
import IntCircuit.Proofs.Program.Run
import IntCircuit.Proofs.Program.Solve
import IntCircuit.Proofs.Runs
import IntCircuit.Proofs.Sat.BackEnd
import IntCircuit.Proofs.Sat.History
import IntCircuit.Proofs.Sat.Incremental
import IntCircuit.Proofs.Sat.Search
import IntCircuit.Proofs.Session
import IntCircuit.Proofs.Solve
import IntCircuit.Proofs.VariablePool
import IntCircuit.Proofs.Word.Arithmetic
import IntCircuit.Proofs.Word.Basic
import IntCircuit.Proofs.Word.Bitwise
import IntCircuit.Proofs.Word.Fold
import IntCircuit.Proofs.Word.Foreign
import IntCircuit.Proofs.Word.Itself
import IntCircuit.Proofs.Word.Literal
import IntCircuit.Proofs.Word.Operations
import IntCircuit.Proofs.Word.Outcome
import IntCircuit.Proofs.Word.Refusal

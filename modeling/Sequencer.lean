import Sequencer.Design.Assembly
import Sequencer.Design.Document
import Sequencer.Proofs.Design.Assembly
import Sequencer.Proofs.Manager.Run
import Sequencer.Proofs.Workflow.Program
import Sequencer.Register.Document
import Sequencer.Scan
import Sequencer.Step.Builtin
import Sequencer.Timer.Document
import Sequencer.Workflow.Registry
import Sequencer.Proofs.Instruction.Forest
import Sequencer.Proofs.Workflow.Structure
import Sequencer.Proofs.Workflow.Refusal
import Sequencer.Proofs.Budget
import Sequencer.Proofs.Workflow.Limit
import Sequencer.Proofs.Manager.Limit
import Sequencer.Proofs.Workflow.Moments
import Sequencer.Proofs.Workflow.Status
import Sequencer.Proofs.Instruction.Arming
import Sequencer.Proofs.Instruction.Handles
import Sequencer.Proofs.Instruction.Access
import Sequencer.Proofs.Workflow.Handles
import Sequencer.Proofs.Workflow.Access
import Sequencer.Proofs.Workflow.Observation
import Sequencer.Proofs.Timer
import Sequencer.Proofs.Workflow.Timing
import Sequencer.Proofs.Manager.Moments
import Sequencer.Proofs.Manager.Moves
import Sequencer.Proofs.Manager.Record
import Sequencer.Proofs.Manager.Signals
import Sequencer.Proofs.Context
import Sequencer.Proofs.Manager.Lifecycle
import Sequencer.Proofs.Manager.Resets
import Sequencer.Proofs.Manager.StepData
import Sequencer.Proofs.Manager.Generators
import Sequencer.Proofs.Manager.FreeKeys
import Sequencer.Proofs.Manager.Suspension
import Sequencer.Proofs.Workflow.Straight
import Sequencer.Proofs.Workflow.Onward
import Sequencer.Proofs.Workflow.Removal
import Sequencer.Proofs.Workflow.Fleet
import Sequencer.Proofs.Scan
import Sequencer.Proofs.Manager.Unread
import Sequencer.Proofs.Manager.Observation
import Sequencer.Proofs.Manager.Order
import Sequencer.Proofs.Manager.References
import Sequencer.Proofs.Timer.History
import Sequencer.Proofs.Workflow.Numbers
import Sequencer.Proofs.Workflow.Rejection
import Sequencer.Proofs.Design.Faults
import Sequencer.Proofs.Condition
import Sequencer.Proofs.Dictionary
import Sequencer.Proofs.Register
import Sequencer.Proofs.Workflow.Enclosing
import Sequencer.Proofs.Json.Reader
import Sequencer.Proofs.Design.Document
import Sequencer.Proofs.Json.Text
import Sequencer.Proofs.Workflow.Preorder
import Sequencer.Proofs.Manager.Access

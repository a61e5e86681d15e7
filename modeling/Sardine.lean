import Sardine.Input.QueueSession
import Sardine.Machine.Session
import Sardine.Command
import Sardine.Main
import Sardine.Proofs.LineScan
import Sardine.Proofs.Grammar
import Sardine.Proofs.Language
import Sardine.Proofs.RoundTrip
import Sardine.Proofs.Diagnosis
import Sardine.Proofs.Splicing
import Sardine.Proofs.Calls
import Sardine.Proofs.Calm
import Sardine.Proofs.Instructions
import Sardine.Proofs.Reception
import Sardine.Proofs.Safety
import Sardine.Proofs.Schedule
import Sardine.Proofs.LabelTable
import Sardine.Proofs.Ledger
import Sardine.Proofs.Lossless
import Sardine.Proofs.Shutting
import Sardine.Proofs.Attempts
import Sardine.Proofs.Failure
import Sardine.Proofs.Ending
import Sardine.Proofs.History
import Sardine.Proofs.Moments
import Sardine.Proofs.Registers
import Sardine.Proofs.Bounds
import Sardine.Proofs.Lockstep
import Sardine.Proofs.MemorySize
import Sardine.Proofs.Resumption
import Sardine.Proofs.Contents
import Sardine.Proofs.Visibility
import Sardine.Proofs.Mirroring
import Sardine.Proofs.Renaming
import Sardine.Proofs.Feeding
import Sardine.Proofs.Tracking
import Sardine.Proofs.Echo
import Sardine.Proofs.Remainder
import Sardine.Proofs.TankNumbers
import Sardine.Proofs.Invocation
import Sardine.Proofs.Report
import Sardine.Proofs.Expressible
import Sardine.Proofs.Supply
import Sardine.Proofs.NumberLines
import Sardine.Proofs.LineEnds
import Sardine.Proofs.Renumbering
import Sardine.Proofs.Guarding
import Sardine.Proofs.Legibility
import Sardine.Proofs.Readings
import Sardine.Proofs.Delivery
import Sardine.Proofs.Interchange
import Sardine.Proofs.Forward
import Sardine.Proofs.Snapshot
import Sardine.Proofs.Arguments
import Sardine.Proofs.Precedence

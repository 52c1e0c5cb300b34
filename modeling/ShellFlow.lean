import ShellFlow.Cluster.BlockListing
import ShellFlow.Cluster.Message
import ShellFlow.Cluster.Service
import ShellFlow.Compile.Document
import ShellFlow.Compile.Expansion
import ShellFlow.Main
import ShellFlow.Program.Configuration
import ShellFlow.Proofs.Cluster.Balancing
import ShellFlow.Proofs.Cluster.Blocks
import ShellFlow.Proofs.Cluster.Framing
import ShellFlow.Proofs.Compile.Listing
import ShellFlow.Proofs.Compile.Piping
import ShellFlow.Proofs.Graph.Aggregating
import ShellFlow.Proofs.Graph.Choosing
import ShellFlow.Proofs.Graph.Dataflow
import ShellFlow.Proofs.Graph.Optimization
import ShellFlow.Proofs.Graph.Quoting
import ShellFlow.Proofs.Graph.SharedFiles
import ShellFlow.Proofs.Preprocess.Accepting
import ShellFlow.Proofs.Preprocess.Calls
import ShellFlow.Proofs.Preprocess.Grouping
import ShellFlow.Proofs.Preprocess.Placing
import ShellFlow.Proofs.Preprocess.Roundtrip
import ShellFlow.Proofs.Scheduler.Widths
import ShellFlow.Proofs.Server.Connecting
import ShellFlow.Proofs.Shell.OptionChanges
import ShellFlow.Proofs.Stream.Batches
import ShellFlow.Proofs.Stream.Endings
import ShellFlow.Proofs.Stream.Programs
import ShellFlow.Proofs.Stream.Unwrapping
import ShellFlow.Proofs.Variables.Declarations
import ShellFlow.Scheduler.Document
import ShellFlow.Shell.Raw
import ShellFlow.Stream.Document
import ShellFlow.Text.CharacterName
import ShellFlow.Variables.Document
import ShellFlow.Proofs.Scheduler.Decoding
import ShellFlow.Proofs.Server.Delivering

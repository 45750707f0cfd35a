import Gauv.Lists
import Gauv.Digraph
import Gauv.Sharing
import Gauv.Peeling
import Gauv.Greedy
import Gauv.Fitting
import Gauv.Worklist
import Gauv.Backend.Operation
import Gauv.Backend.Graph
import Gauv.Backend.Transformer
import Gauv.Backend.Prover
import Gauv.Backend.Enumeration
import Gauv.Backend.Adjacency
import Gauv.Backend.Counters
import Gauv.Backend.Rewrite
import Gauv.Backend.Matches
import Gauv.Backend.Runs
import Gauv.Backend.Deletion
import Gauv.Backend.Tail
import Gauv.Backend.Parties
import Gauv.Backend.Acyclic
import Gauv.Backend.Valuations
import Gauv.Backend.Dealing
import Gauv.Backend.Opening
import Gauv.Backend.Verdict
import Gauv.Backend.Selection
import Gauv.Mpcgraph.Expression
import Gauv.Mpcgraph.Share
import Gauv.Mpcgraph.Calls
import Gauv.Mpcgraph.Evaluation
import Gauv.Bgwfrontend.Variable
import Gauv.Bgwfrontend.Calls
import Gauv.Bgwfrontend.Circuit
import Gauv.Bgwfrontend.Assign
import Gauv.Backend.GraphBuilder
import Gauv.Backend.Import
import Gauv.Backend.Build
import Gauv.Backend.Faithful
import Gauv.Backend.Memory
import Gauv.Backend.Independence
import Gauv.Backend.Locality
import Gauv.Backend.BuilderRuns
import Gauv.Backend.Assertions
import Gauv.Backend.AssertedRuns
import Gauv.Backend.Reordering
import Gauv.Backend.Replanning
import Gauv.Backend.Tracing
import Gauv.Backend.Termination
import Gauv.Backend.LeftOut
import Gauv.Backend.Deferral
import Gauv.Pairing
import Gauv.Backend.Renumbering
import Gauv.Backend.Provability
import Gauv.Backend.Numbering
import Gauv.Backend.Commuting
import Gauv.Backend.Reachability
import Gauv.Words
import Gauv.Reduction
import Gauv.Backend.Threads
import Gauv.Tables
import Gauv.Fifo
import Gauv.Deque
import Gauv.Mpclib.Field
import Gauv.Mpclib.Party
import Gauv.Mpclib.Share
import Gauv.Mpclib.Poly
import Gauv.Mpclib.Context
import Gauv.Mpclib.Channels
import Gauv.Registry
import Gauv.Bgwfrontend.Names
import Gauv.Backend.Precheck
import Gauv.Network
import Gauv.Simulation
import Gauv.Backend.Executions
import Gauv.Backend.Privacy
import Gauv.Backend.Evaluations
import Gauv.Backend.Soundness
import Gauv.Backend.Overall
import Gauv.Backend.Considered
import Gauv.Bgwfrontend.Programs
import Gauv.Bgwfrontend.Returns
import Gauv.Bgwfrontend.Statements
import Gauv.Bgwfrontend.Scalable
import Gauv.Sampling
import Gauv.Mpclib.Random
import Gauv.Mpclib.Protocol

import Sisop.AdmissionOrder
import Sisop.Assignments
import Sisop.AtRest
import Sisop.CString
import Sisop.CallChain
import Sisop.CarriedPrograms
import Sisop.Chains
import Sisop.CodeAccesses
import Sisop.CodeBounds
import Sisop.CodeSegment
import Sisop.CodeSplitting
import Sisop.Collections
import Sisop.ConfigFile
import Sisop.ConfigurationReader
import Sisop.ConfigurationWatch
import Sisop.Configure
import Sisop.ConnectionOwnership
import Sisop.DataReport
import Sisop.Declarations
import Sisop.DescriptorSearch
import Sisop.Dictionary
import Sisop.DictionaryRuns
import Sisop.DictionarySpecs
import Sisop.DispatchEndings
import Sisop.Dispatches
import Sisop.FifoRound
import Sisop.FrameOwnership
import Sisop.FrameTransport
import Sisop.Frames
import Sisop.GuardedRun
import Sisop.HostKeyChecking
import Sisop.HostileFrames
import Sisop.ImageLedger
import Sisop.Interleaving
import Sisop.Interpreter
import Sisop.InterpreterSteps
import Sisop.InterpretersAgree
import Sisop.LTS
import Sisop.Limits
import Sisop.LineExecution
import Sisop.LineOperations
import Sisop.LinkedListRuns
import Sisop.LinkedListSorting
import Sisop.LinkedListSpecs
import Sisop.LinkedLists
import Sisop.LockDiscipline
import Sisop.LockOrder
import Sisop.LogStreams
import Sisop.Memory
import Sisop.MessageOrder
import Sisop.Operations
import Sisop.PI
import Sisop.PP
import Sisop.PoolTest
import Sisop.PreemptionTransparency
import Sisop.Procer
import Sisop.ProcessConservation
import Sisop.ProcessData
import Sisop.ProcessIdentity
import Sisop.ProcessReferences
import Sisop.Programs
import Sisop.QueueTokens
import Sisop.ReadyOrder
import Sisop.ReadySorting
import Sisop.RequestFrames
import Sisop.Resumption
import Sisop.RunningImage
import Sisop.RunningProcess
import Sisop.STS
import Sisop.ScriptDispatches
import Sisop.ScriptExecution
import Sisop.ScriptLines
import Sisop.Scripts
import Sisop.Serialization
import Sisop.SharedState
import Sisop.ShellText
import Sisop.Shield
import Sisop.ShieldGate
import Sisop.ShieldModules
import Sisop.ShieldScripts
import Sisop.ShieldUsers
import Sisop.Shutdown
import Sisop.SortLoops
import Sisop.StackReport
import Sisop.StrayRequests
import Sisop.StreamReading
import Sisop.Substitution
import Sisop.ThreadAlone
import Sisop.ThreadOperations
import Sisop.ThreadSteps
import Sisop.TrafficLimiter
import Sisop.VariableStore
import Sisop.WakeUpCount
import Sisop.WireRoundTrip

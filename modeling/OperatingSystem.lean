import OperatingSystem.Machine
import OperatingSystem.LinkedLists
import OperatingSystem.Loops
import OperatingSystem.Outcomes
import OperatingSystem.Words
import OperatingSystem.Quotes
import OperatingSystem.CStrings
import OperatingSystem.Timetable
import OperatingSystem.Service
import OperatingSystem.Rotation
import OperatingSystem.Barriers
import OperatingSystem.Paging
import OperatingSystem.PagingSteps
import OperatingSystem.PagingFork
import OperatingSystem.PagingEffect
import OperatingSystem.PagingCounts
import OperatingSystem.PagingIsolation
import OperatingSystem.PagingPermissions
import OperatingSystem.PagingExhaustion
import OperatingSystem.PagingMalloc
import OperatingSystem.PagingProcesses
import OperatingSystem.PagingUndo
import OperatingSystem.PagingBounds
import OperatingSystem.Sched
import OperatingSystem.SchedPolicies
import OperatingSystem.SchedLawful
import OperatingSystem.SchedShape
import OperatingSystem.SchedPointers
import OperatingSystem.SchedMemory
import OperatingSystem.SchedCallbacks
import OperatingSystem.SchedEffect
import OperatingSystem.SchedQueues
import OperatingSystem.SchedHolding
import OperatingSystem.SchedAssertions
import OperatingSystem.SchedWaiters
import OperatingSystem.SchedTermination
import OperatingSystem.SchedWakeup
import OperatingSystem.SchedPresence
import OperatingSystem.SchedInheritance
import OperatingSystem.SchedInversion
import OperatingSystem.SchedCeiling
import OperatingSystem.SchedBlind
import OperatingSystem.SchedImplements
import OperatingSystem.SchedRefinement
import OperatingSystem.SchedPlain
import OperatingSystem.SchedMemorySafety
import OperatingSystem.SchedOrderly
import OperatingSystem.SchedShortest
import OperatingSystem.SchedTrace
import OperatingSystem.SchedRounds
import OperatingSystem.SchedConserving
import OperatingSystem.SchedReference
import OperatingSystem.SchedTies
import OperatingSystem.SchedOrder
import OperatingSystem.SchedBorrowing
import OperatingSystem.SchedPriority
import OperatingSystem.SchedRelease
import OperatingSystem.SchedRoundRobin
import OperatingSystem.SchedFairness
import OperatingSystem.Semaphore
import OperatingSystem.Mutex
import OperatingSystem.MutexEffect
import OperatingSystem.MutexPhase
import OperatingSystem.MutexSignals
import OperatingSystem.MutexOrder
import OperatingSystem.MutexProgress
import OperatingSystem.RingBuffer
import OperatingSystem.RingEffect
import OperatingSystem.RingCounts
import OperatingSystem.RingFifo
import OperatingSystem.RingProgress
import OperatingSystem.RingLoops
import OperatingSystem.RingProgram
import OperatingSystem.RingProgramCalls
import OperatingSystem.RingProgramMoves
import OperatingSystem.RingProgramPhases
import OperatingSystem.RingProgramInvariant
import OperatingSystem.RingProgramComparison
import OperatingSystem.RingProgramProgress
import OperatingSystem.Parser
import OperatingSystem.ParserArray
import OperatingSystem.ParserPa0
import OperatingSystem.ParserQuotes
import OperatingSystem.Numbers
import OperatingSystem.Loader
import OperatingSystem.LoaderCommands
import OperatingSystem.LoaderBlocks
import OperatingSystem.LoaderWriting
import OperatingSystem.LoaderSimulation
import OperatingSystem.PagingTrace
import OperatingSystem.PagingSession
import OperatingSystem.PagingTraceWriting
import OperatingSystem.Shell
import OperatingSystem.ShellTokens
import OperatingSystem.ShellRewriting
import OperatingSystem.ShellMissing
import OperatingSystem.ShellRepeat
import OperatingSystem.ShellCommands
import OperatingSystem.ShellSession

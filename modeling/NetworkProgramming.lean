import NetworkProgramming.Runs
import NetworkProgramming.Progress
import NetworkProgramming.Cells
import NetworkProgramming.CString
import NetworkProgramming.Malloc
import NetworkProgramming.Lineget
import NetworkProgramming.EndOfInput
import NetworkProgramming.Descriptors
import NetworkProgramming.LoadBalancer
import NetworkProgramming.RotorWalk
import NetworkProgramming.LoadBalancerRotor
import NetworkProgramming.Tee
import NetworkProgramming.Striping
import NetworkProgramming.NameTree
import NetworkProgramming.NameTreeListing
import NetworkProgramming.SparseFile
import NetworkProgramming.SelectServers
import NetworkProgramming.StopWaitSender
import NetworkProgramming.StopWaitServer
import NetworkProgramming.StopWaitProtocol
import NetworkProgramming.StopWaitInvariant
import NetworkProgramming.StopWaitDelivery
import NetworkProgramming.StopWaitOutput
import NetworkProgramming.StopWaitProgress
import NetworkProgramming.SelectiveRepeat
import NetworkProgramming.SelectiveRouting
import NetworkProgramming.SelectiveShutdown
import NetworkProgramming.SelectiveDelivery
import NetworkProgramming.ShellDispatch
import NetworkProgramming.ShellTokens
import NetworkProgramming.ShellHistory
import NetworkProgramming.ShellJobs
import NetworkProgramming.ShellJobTable
import NetworkProgramming.ShellJobExact
import NetworkProgramming.ShellJobHead
import NetworkProgramming.ShellReaping
import NetworkProgramming.ShellPrompt
import NetworkProgramming.ShellConfig
import NetworkProgramming.ShellRedirect
import NetworkProgramming.ShellTables
import NetworkProgramming.Trie
import NetworkProgramming.Autocomplete
import NetworkProgramming.Window
import NetworkProgramming.AutocompleteKeys
import NetworkProgramming.ShellSignals
import NetworkProgramming.ShellFork
import NetworkProgramming.ShellStages
import NetworkProgramming.ShellStageRun
import NetworkProgramming.ShellTransport
import NetworkProgramming.ShellDescriptors
import NetworkProgramming.ShellPipeline
import NetworkProgramming.ShellPipelineOutput
import NetworkProgramming.ShellFanOut
import NetworkProgramming.ShellFanOutEnd
import NetworkProgramming.ShellPipelineWiring
import NetworkProgramming.ShellTypedPipeline
import NetworkProgramming.ShellDaemon
import NetworkProgramming.ClusterShell
import NetworkProgramming.ClusterRelay
import NetworkProgramming.ClusterRequest
import NetworkProgramming.ClusterRegistry
import NetworkProgramming.ClusterRepl
import NetworkProgramming.Voting
import NetworkProgramming.MulticastChat
import NetworkProgramming.ChatSubjects
import NetworkProgramming.ChatSendto
import NetworkProgramming.ForkPerClient
import NetworkProgramming.ForkChild
import NetworkProgramming.SnifferDump
import NetworkProgramming.SnifferPacket
import NetworkProgramming.SnifferFrames
import NetworkProgramming.Mutex
import NetworkProgramming.SnifferThreads
import NetworkProgramming.ClusterArgs
import NetworkProgramming.ShellJobSpec
import NetworkProgramming.ByteOrder
import NetworkProgramming.StopWaitHeader
import NetworkProgramming.PathSplit
import NetworkProgramming.HttpPost
import NetworkProgramming.HttpGet
import NetworkProgramming.SelectiveServer
import NetworkProgramming.StopWaitRounds

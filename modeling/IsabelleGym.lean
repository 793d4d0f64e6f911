import IsabelleGym.EditScript
import IsabelleGym.LineCount
import IsabelleGym.Runs
import IsabelleGym.ThyStatus
import IsabelleGym.Pide
import IsabelleGym.OuterSyntax
import IsabelleGym.ThyInfo
import IsabelleGym.ReplSession
import IsabelleGym.Representation
import IsabelleGym.DocumentRuns
import IsabelleGym.ChunkReport
import IsabelleGym.PythonStr
import IsabelleGym.ReplOutput
import IsabelleGym.SuccessChecker
import IsabelleGym.Probes
import IsabelleGym.ChunkOps
import IsabelleGym.FileOps
import IsabelleGym.KeptDocument
import IsabelleGym.Toplevel
import IsabelleGym.EndFastPath
import IsabelleGym.ProvedVerdict
import IsabelleGym.ServerConcurrency
import IsabelleGym.Sessions
import IsabelleGym.ServerSteps
import IsabelleGym.Endpoints
import IsabelleGym.LeaseInvariant
import IsabelleGym.Leases
import IsabelleGym.BackendEffects
import IsabelleGym.SessionLog
import IsabelleGym.CleanReuse
import IsabelleGym.Checkpoints
import IsabelleGym.EditSteps
import IsabelleGym.PythonSession
import IsabelleGym.CheckpointApi
import IsabelleGym.TheoryParsing
import IsabelleGym.BigStep
import IsabelleGym.SessionManager
import IsabelleGym.LoadDocument
import IsabelleGym.ThreadedBackend
import IsabelleGym.WorkerShutdown
import IsabelleGym.MlChannels
import IsabelleGym.GatewayPool
import IsabelleGym.PoolChanges
import IsabelleGym.ManagerSteps
import IsabelleGym.SessionLoss
import IsabelleGym.LeaseLog
import IsabelleGym.ExclusiveLeases
import IsabelleGym.BackendConservation
import IsabelleGym.PoolBounds
import IsabelleGym.DeadGateways
import IsabelleGym.Reaper
import IsabelleGym.PosixPath
import IsabelleGym.FileTree
import IsabelleGym.FilePattern
import IsabelleGym.FileGlob
import IsabelleGym.Dict
import IsabelleGym.HeapPool
import IsabelleGym.HeapBuilds
import IsabelleGym.HeapManifests
import IsabelleGym.HeapImages
import IsabelleGym.Concatenation
import IsabelleGym.HeapGate
import IsabelleGym.HeapImageDeletion
import IsabelleGym.HeapDeletion
import IsabelleGym.TheoryHeader
import IsabelleGym.BuildVerify
import IsabelleGym.BuildCache
import IsabelleGym.OuterString
import IsabelleGym.DiagnosticGuard
import IsabelleGym.BuildSandbox
import IsabelleGym.ScratchPool
import IsabelleGym.StepwisePool
import IsabelleGym.FileBindings
import IsabelleGym.SharedCache
import IsabelleGym.VectorEnv
import IsabelleGym.PoolKeys
import IsabelleGym.CommentDepth
import IsabelleGym.AttemptPrefix
import IsabelleGym.HeaderName
import IsabelleGym.TheorySplitter
import IsabelleGym.WordSearch
import IsabelleGym.HeaderTokens
import IsabelleGym.HeaderImports
import IsabelleGym.HeaderRoundTrip
import IsabelleGym.HeaderText
import IsabelleGym.CompleteTheory
import IsabelleGym.HeaderStrip
import IsabelleGym.HeaderGrammar
import IsabelleGym.HeaderAgreement
import IsabelleGym.HeaderReading
import IsabelleGym.HeaderExact
import IsabelleGym.Arbiter
import IsabelleGym.SplitWords
import IsabelleGym.CleanTheory
import IsabelleGym.CleanBlocks
import IsabelleGym.CleanCommands
import IsabelleGym.CleanLayout
import IsabelleGym.NearestAncestor
import IsabelleGym.MctsAgent
import IsabelleGym.MctsScripts
import IsabelleGym.MctsDocument
import IsabelleGym.MctsSession
import IsabelleGym.GrowingTree
import IsabelleGym.MctsTree
import IsabelleGym.MctsSelect
import IsabelleGym.MctsTrials
import IsabelleGym.MctsExhausted
import IsabelleGym.Interleaving
import IsabelleGym.ServerTraces
import IsabelleGym.UnicodeNormaliser
import IsabelleGym.Cursors
import IsabelleGym.MctsRecommend
import IsabelleGym.LinearAgent
import IsabelleGym.LinearRuns
import IsabelleGym.LinearRecommend
import IsabelleGym.ThyInit
import IsabelleGym.ClientSessions
import IsabelleGym.ClientFiles
import IsabelleGym.ServerWrappers
import IsabelleGym.GatewayProcess
import IsabelleGym.LineQueries
import IsabelleGym.LocalPool
import IsabelleGym.TrainingData
import IsabelleGym.TrainingRuns

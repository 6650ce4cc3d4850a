import TinyBFT.Basic
import TinyBFT.Lib.Run
import TinyBFT.AckCounts
import TinyBFT.Acks
import TinyBFT.AgreementRegion
import TinyBFT.Certificate
import TinyBFT.ViewChange
import TinyBFT.CheckpointData
import TinyBFT.CheckpointRegion
import TinyBFT.Client
import TinyBFT.Completion
import TinyBFT.Execution
import TinyBFT.FullWidth
import TinyBFT.FetchCalls
import TinyBFT.KMax
import TinyBFT.KnownStable
import TinyBFT.MetaData
import TinyBFT.NVCalls
import TinyBFT.Numbering
import TinyBFT.Partition
import TinyBFT.PastRequests
import TinyBFT.PastViews
import TinyBFT.PrePrepare
import TinyBFT.ReqQueue
import TinyBFT.Selection
import TinyBFT.StateCheck
import TinyBFT.StaticCert
import TinyBFT.StaticMetaDataCert
import TinyBFT.Status
import TinyBFT.Summaries
import TinyBFT.Voting
import TinyBFT.LogWindow
import TinyBFT.StableEstimator
import TinyBFT.MarkStable
import TinyBFT.NewViewBytes
import TinyBFT.PrePrepareBytes
import TinyBFT.Request
import TinyBFT.KeyAgreement
import TinyBFT.Batching
import TinyBFT.RecoveryReplies
import TinyBFT.DSum
import TinyBFT.HeapQueue
import TinyBFT.LogAllocator
import TinyBFT.Persist
import TinyBFT.AboveWindow
import TinyBFT.HonestRuns
import TinyBFT.Lib.Quorum
import TinyBFT.Agreement

import Chainlog.Foundation.LengthPrefix
import Chainlog.Foundation.Lines
import Chainlog.Foundation.HashChain
import Chainlog.Foundation.DividedChain
import Chainlog.Foundation.HashTree
import Chainlog.Foundation.Base64
import Chainlog.Foundation.Retention
import Chainlog.Foundation.JsonText
import Chainlog.Foundation.Blake3
import Chainlog.Foundation.RequestReply
import Chainlog.Foundation.SharedStore
import Chainlog.Foundation.Chunks
import Chainlog.Foundation.UrlPath
import Chainlog.Foundation.Decimal
import Chainlog.Util
import Chainlog.Error
import Chainlog.Serde
import Chainlog.Entry
import Chainlog.Hash
import Chainlog.Reference
import Chainlog.Verify
import Chainlog.CanonicalEncoding
import Chainlog.ChainVerification
import Chainlog.Store
import Chainlog.Segment
import Chainlog.LogStore
import Chainlog.EntryLines
import Chainlog.Log
import Chainlog.ChainGrowth
import Chainlog.SegmentFiles
import Chainlog.Journal
import Chainlog.Contents
import Chainlog.Engine
import Chainlog.FaultFree
import Chainlog.Restart
import Chainlog.Durability
import Chainlog.CrashPoints
import Chainlog.Linearizability
import Chainlog.Checkpoint
import Chainlog.Merkle
import Chainlog.MerkleInclusion
import Chainlog.MerkleSplit
import Chainlog.Server
import Chainlog.Service
import Chainlog.Cli
import Chainlog.Agreement
import Chainlog.Nesting
import Chainlog.LostEntries
import Chainlog.ProofBundles
import Chainlog.Listing
import Chainlog.Prune
import Chainlog.RetainedFiles
import Chainlog.Upkeep
import Chainlog.PrunedLogs
import Chainlog.PrunedViolations
import Chainlog.Crypto
import Chainlog.Directory
import Chainlog.Keyring
import Chainlog.SharedKeyring
import Chainlog.CryptoShred
import Chainlog.KeyMaterial
import Chainlog.FailedShred
import Chainlog.ReadRecords
import Chainlog.Sealing
import Chainlog.Overflow
import Chainlog.VerificationCuts
import Chainlog.SignedArtefacts
import Chainlog.Api
import Chainlog.AppendOnly
import Chainlog.LastingAnchors
import Chainlog.Reloading
import Chainlog.PowerLoss
import Chainlog.Client
import Chainlog.NewestTail
import Chainlog.HeadCheckpoints
import Chainlog.WrittenLogs
import Chainlog.SegmentGeometry
import Chainlog.TimeRetention
import Chainlog.RetentionAge
import Chainlog.AppendedLines
import Chainlog.ExtendedReads
import Chainlog.KeyAddresses
import Chainlog.SegmentNames
import Chainlog.KeyringThreads
import Chainlog.RacingCalls
import Chainlog.WriterLifetime
import Chainlog.EditedStretches
import Chainlog.ProvableReceipts
import Chainlog.RestartedServer
import Chainlog.PiiLifetime
import Chainlog.OperatorTools
import Chainlog.OfflineShred
import Chainlog.GeneratedKeys

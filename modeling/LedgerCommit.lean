import LedgerCommit.Node.NodeError
import LedgerCommit.Proofs.Chain
import LedgerCommit.Proofs.Download
import LedgerCommit.Transport.Supply
import LedgerCommit.Wire.Node
import LedgerCommit.Wire.Voting
import LedgerCommit.Proofs.HonestPeer
import LedgerCommit.Proofs.NeutralKey
import LedgerCommit.Proofs.ForkAccountability
import LedgerCommit.Proofs.Session
import LedgerCommit.Proofs.SyncEvents
import LedgerCommit.Proofs.VotingRounds
import LedgerCommit.Proofs.HeldBlock
import LedgerCommit.Proofs.DecisionHeights
import LedgerCommit.Proofs.PipelineRun
import LedgerCommit.Proofs.HeldCertificate
import LedgerCommit.Proofs.Redelivery
import LedgerCommit.Proofs.AgreedBlock
import LedgerCommit.Proofs.PreparedPath
import LedgerCommit.Proofs.GivingUp
import LedgerCommit.Proofs.PipelineProgress
import LedgerCommit.Proofs.RequestedSuffix
import LedgerCommit.Proofs.RequestLine
import LedgerCommit.Proofs.TransportRun
import LedgerCommit.Proofs.TransportProgress
import LedgerCommit.Proofs.Delivery
import LedgerCommit.Proofs.Fetching
import LedgerCommit.Proofs.FirstFailure
import LedgerCommit.Proofs.DecisionTable
import LedgerCommit.Proofs.RequestGroups
import LedgerCommit.Proofs.VoteOrder
import LedgerCommit.Proofs.LongestFront
import LedgerCommit.Proofs.SealedChain
import LedgerCommit.Proofs.Headroom
import LedgerCommit.Proofs.ResultCache
import LedgerCommit.Proofs.SharedOrder
import LedgerCommit.Proofs.BlockContents
import LedgerCommit.Proofs.HexText
import LedgerCommit.Proofs.WireForms
import LedgerCommit.Proofs.OptimalQuorum
import LedgerCommit.Proofs.ConfigText

import GoQlc.Types.HashCommitment
import GoQlc.Ledger.RotationRace
import GoQlc.Ledger.UncheckedStore
import GoQlc.Ledger.PendingTotals
import GoQlc.Ledger.Iterator
import GoQlc.Process.Generate
import GoQlc.Properties.Signature
import GoQlc.Properties.Arithmetic
import GoQlc.Properties.ContractData
import GoQlc.Properties.ChainLinkage
import GoQlc.Properties.Conservation
import GoQlc.Properties.ContractPending
import GoQlc.Properties.Rebuild
import GoQlc.Properties.RepresentationRace
import GoQlc.Properties.PaidDays
import GoQlc.Properties.AccountHistory
import GoQlc.Properties.OracleCodes
import GoQlc.Settlement.Identities
import GoQlc.Rollback.Unconfirmed
import GoQlc.Consensus.Agreement
import GoQlc.Consensus.BatchVote
import GoQlc.Consensus.Delivery
import GoQlc.Consensus.Unchecked
import GoQlc.Consensus.FrontierVote
import GoQlc.Consensus.GapPov
import GoQlc.Consensus.Online
import GoQlc.Consensus.Parking
import GoQlc.Consensus.Cache
import GoQlc.Pov.TxLookup
import GoQlc.Pov.RepSums
import GoQlc.Pov.Retarget
import GoQlc.Pov.MinerStat
import GoQlc.Pov.DiffStat
import GoQlc.Pov.Commitment
import GoQlc.Pov.Inclusion
import GoQlc.Pov.Admins
import GoQlc.Pov.Stall
import GoQlc.Trie.Removed
import GoQlc.Miner.Templates
import GoQlc.Pov.SyncDelivery
import GoQlc.Pov.Release
import GoQlc.P2p.Outgoing
import GoQlc.P2p.Frontiers

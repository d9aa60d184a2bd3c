import LigoChain.Consensus.LockRule
import LigoChain.Consensus.Agreement
import LigoChain.State.Reset
import LigoChain.State.Copy
import LigoChain.State.Holdings
import LigoChain.State.Markers
import LigoChain.State.AddressSets
import LigoChain.State.Records
import LigoChain.Consensus.Draw
import LigoChain.Engine.CommittedBlocks
import LigoChain.Consensus.ArrivalOrder
import LigoChain.Consensus.AggregateComplete
import LigoChain.Consensus.ProposalCover
import LigoChain.Consensus.BlockIdentity
import LigoChain.Consensus.PeerState
import LigoChain.Staking.Election
import LigoChain.Staking.Estimate
import LigoChain.Staking.ForEachProxied
import LigoChain.Staking.DryRun
import LigoChain.Staking.Rewards
import LigoChain.CrossChain.Proposal
import LigoChain.Chain.PruneWindow
import LigoChain.Chain.Finality
import LigoChain.Types.LigoAddress
import LigoChain.CrossChain.EpochLookup
import LigoChain.CrossChain.SideEpochs
import LigoChain.CrossChain.SideChainLaunch
import LigoChain.Staking.NextVotes
import LigoChain.Staking.EqualSets
import LigoChain.Types.BlockKeys
import LigoChain.Consensus.VoteMemory
import LigoChain.Trie.Contents

import OneChain.System.Solvency
import OneChain.System.Locking
import OneChain.System.Governance
import OneChain.System.Membership
import OneChain.System.RateLookup
import OneChain.System.Reports
import OneChain.System.Subsidy
import OneChain.Codec.Mirror
import OneChain.Consensus.CommitAgreement
import OneChain.Consensus.FastPath
import OneChain.Consensus.BlockDelivery
import OneChain.Consensus.QuorumIndex
import OneChain.Consensus.CommitTimestamps
import OneChain.Consensus.BlockExistence
import OneChain.Consensus.LeaderSwap
import OneChain.Authority.ExecutionTimeEstimator
import OneChain.Authority.VersionAssignment
import OneChain.Checkpoints.ChainAccounting
import OneChain.Authority.SettlementRoots
import OneChain.Authority.Deferral
import OneChain.Checkpoints.BuilderTiming
import OneChain.Checkpoints.SignatureAggregator
import OneChain.Authority.ObjectLocks
import OneChain.Authority.CongestionBudget
import OneChain.Execution.WithdrawResults
import OneChain.Authority.Randomness
import OneChain.Network.IgnoredPeers
import OneChain.Framework.Config
import OneChain.Execution.Ownership
import OneChain.Move.Macros
import OneChain.Move.Random
import OneChain.Move.BorrowRegex

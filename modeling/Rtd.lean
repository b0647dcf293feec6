import Rtd.Weight
import Rtd.Committee
import Rtd.Block
import Rtd.DagView
import Rtd.BlockDag
import Rtd.BaseCommitter
import Rtd.UniversalCommitter
import Rtd.CommitRule
import Rtd.Aligned
import Rtd.CommitSafety
import Rtd.StakingPool
import Rtd.Register
import Rtd.SharedObjVerManager
import Rtd.CausalOrder
import Rtd.CheckpointBuilder
import Rtd.GasModel
import Rtd.GasCharger
import Rtd.CheckpointChunks
import Rtd.Linearizer
import Rtd.ThresholdClock
import Rtd.LeaderSchedule
import Rtd.LinkedTable
import Rtd.PriorityQueue
import Rtd.VotingPower
import Rtd.OrderedMap
import Rtd.TransactionCertifier
import Rtd.CommitFinalizer
import Rtd.CommitFinalizerFuel
import Rtd.CoinReservation
import Rtd.Multisig
import Rtd.MoveMacros
import Rtd.FundsWithdraw
import Rtd.FundsWithdrawInvariant
import Rtd.FundsWithdrawSafety
import Rtd.Hex
import Rtd.StreamCodec
import Rtd.Bcs
import Rtd.BcsFormat
import Rtd.VecMap
import Rtd.Balance

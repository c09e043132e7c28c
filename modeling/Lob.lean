import Lob.Lib.Ranked
import Lob.Lib.Linked
import Lob.Types
import Lob.PriceLadder
import Lob.PriceLadderRefine
import Lob.PriceLadderMap
import Lob.IdIndex
import Lob.SlotPool
import Lob.IdIndexRefine
import Lob.IdIndexMap
import Lob.TradeRing
import Lob.LevelQueue
import Lob.OrderBook
import Lob.EditRule
import Lob.PriorityBook
import Lob.OrderBookRefine
import Lob.InsertRefine
import Lob.MatchRefine
import Lob.CallRefine
import Lob.PrioritySound
import Lob.QueryRefine
import Lob.RunRefine
import Lob.PriceTime
import Lob.FailedInsert
import Lob.OutsideOpens
import Lob.WalkTally
import Lob.TradeStream
import Lob.FailedGrowth
import Lob.SlotPoolRun
import Lob.Lib.ProbeFlow
import Lob.IdIndexChurn
import Lob.PriceWindow
import Lob.Lib.Carving
import Lob.NodeArena
import Lob.MarketSplit
import Lob.Ledger
import Lob.SelfTrade
import Lob.Untouched
import Lob.Uses
import Lob.LoopUses
import Lob.Contracts
import Lob.Lib.Doubling
import Lob.Provision
import Lob.NodeUses
import Lob.NodeProvision
import Lob.Lib.Scan
import Lob.ReferenceBook
import Lob.ReferenceRefine
import Lob.ReferenceRun
import Lob.WithinProvision
import Lob.SizingLoops
import Lob.RingRoom
import Lob.Lib.Draws
import Lob.Flow
import Lob.FlowIntent
import Lob.FlowGenerator
import Lob.FlowLabels
import Lob.FlowRing
import Lob.Lib.BoundedQueue
import Lob.Exchange
import Lob.Amortised
import Lob.Returns
import Lob.Lib.Shrink
import Lob.DiffHarness
import Lob.DiffFuzz
import Lob.Lib.Turns
import Lob.HandOff
import Lob.Snapshot
import Lob.Lib.Paged
import Lob.HugePages
import Lob.Lib.Quantile
import Lob.FlowTrace
import Lob.FlowStats
import Lob.Gauges
import Lob.Bench

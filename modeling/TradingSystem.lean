import TradingSystem.Conservation
import TradingSystem.ReferenceEngine
import TradingSystem.PriceTimePriority
import TradingSystem.Timestamps
import TradingSystem.TradeCount
import TradingSystem.NoTrace
import TradingSystem.NaNCancels
import TradingSystem.NaNPrices
import TradingSystem.CollarBand
import TradingSystem.CancelIndex
import TradingSystem.PriceAggression
import TradingSystem.OrderSplitting
import TradingSystem.BestExecution
import TradingSystem.Relabelling
import TradingSystem.EngineMain
import TradingSystem.Sharding
import TradingSystem.ShardMismatch
import TradingSystem.Replication
import TradingSystem.Failover
import TradingSystem.Tenures
import TradingSystem.Recovery
import TradingSystem.CatchUp
import TradingSystem.CheckpointCrash
import TradingSystem.LogReader
import TradingSystem.DrainPromise
import TradingSystem.TornAppend
import TradingSystem.ShardFiles
import TradingSystem.TradeTopic
import TradingSystem.Delivery
import TradingSystem.FeedHandler
import TradingSystem.StreamFraming
import TradingSystem.WireRoundTrip
import TradingSystem.EventLoop
import TradingSystem.MutexQueue
import TradingSystem.LockFreeQueue
import TradingSystem.ThreadedRunner
import TradingSystem.RingWrap
import TradingSystem.RingProgress
import TradingSystem.OrderPool
import TradingSystem.ServerMain
import TradingSystem.ServerShutdown
import TradingSystem.GatewayMain
import TradingSystem.Exchange

import P2Streaming.UrdpSendWindow
import P2Streaming.UrdpOriginIndependence
import P2Streaming.UrdpConnectionResets
import P2Streaming.UrdpGracefulClose
import P2Streaming.PacketBufferMap
import P2Streaming.DistributedBlocks
import P2Streaming.VodContinuity
import P2Streaming.RequestDemultiplexing
import P2Streaming.RefusedConnections
import P2Streaming.UrdpClosedFlows
import P2Streaming.SmallestAbsent
import P2Streaming.NeededPackets
import P2Streaming.TrdpConversation
import P2Streaming.HttpReception
import P2Streaming.EvictionNotices
import P2Streaming.SequenceStore
import P2Streaming.SeedPeers
import P2Streaming.MemberService
import P2Streaming.OverlayNeighbors
import P2Streaming.HttpResumption
import P2Streaming.TimeshiftFiles
import P2Streaming.ControlCommands
import P2Streaming.SmootherOrder
import P2Streaming.PlayingQuality
import P2Streaming.BuffermapStart
import P2Streaming.OwnerSelection
import P2Streaming.SubscriberLists
import P2Streaming.SubscriptionCounts
import P2Streaming.TimestampGuess
import P2Streaming.SpeedMeter
import P2Streaming.PieceMaps
import P2Streaming.FluidReceiver
import P2Streaming.DotSegments
import P2Streaming.Utility
import P2Streaming.TrdpRoundTrip
import P2Streaming.NeighborLocalIds
import P2Streaming.UrdpLostRate
import P2Streaming.PeriodicTimer
import P2Streaming.UrdpAgreement

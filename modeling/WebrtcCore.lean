import WebrtcCore.Ports.IsacAgreement
import WebrtcCore.Ports.IsacfixEncoder
import WebrtcCore.Ports.RingBufferOverwrite
import WebrtcCore.Ports.RingBufferExpansion
import WebrtcCore.Ports.UVarint
import WebrtcCore.Ports.BitBufferFailures
import WebrtcCore.Ports.StunIntegrityStatus
import WebrtcCore.Ports.StunLength
import WebrtcCore.Ports.AsyncTcpLimits
import WebrtcCore.Ports.SwapQueue
import WebrtcCore.Ports.FifoBuffer
import WebrtcCore.Ports.CopyOnWriteBuffer
import WebrtcCore.Ports.BlockFraming
import WebrtcCore.Ports.RenderDelayBuffer
import WebrtcCore.Ports.ThreadQueue
import WebrtcCore.Ports.TaskQueue
import WebrtcCore.Ports.OperationsChain
import WebrtcCore.Ports.CallSessionLog
import WebrtcCore.Ports.SocksHandshake
import WebrtcCore.Ports.FieldTrial
import WebrtcCore.Ports.BinaryDelayEstimator
import WebrtcCore.Ports.RtpToNtpEstimator
import WebrtcCore.Ports.WavHeader
import WebrtcCore.Ports.FineAudioBuffer
import WebrtcCore.Ports.ZeroOnFreeBuffer
import WebrtcCore.Ports.HistogramRank
import WebrtcCore.Ports.MovingMedian
import WebrtcCore.Ports.MovingMax
import WebrtcCore.Ports.WindowAverage
import WebrtcCore.Ports.SampleVariance
import WebrtcCore.Ports.RollingExtrema
import WebrtcCore.Ports.TimestampWrapAround
import WebrtcCore.Ports.SequenceNumbers
import WebrtcCore.Ports.RateLimit
import WebrtcCore.Ports.UnitRounding
import WebrtcCore.Ports.MarkedTokens
import WebrtcCore.Ports.SocketAddressText
import WebrtcCore.Ports.SplCorrelation
import WebrtcCore.Ports.AudioMixer
import WebrtcCore.Ports.DivisionOperations
import WebrtcCore.Ports.HttpAttributes
import WebrtcCore.Ports.BlockDelay
import WebrtcCore.Ports.NetworkOrder
import WebrtcCore.Ports.IsacLogisticReturns

import RobotCode.IpcLib.Layout
import RobotCode.IpcLib.Deaths
import RobotCode.IpcLib.GotBeat
import RobotCode.Uuid
import RobotCode.Network.UpperLine
import RobotCode.Network.Popping
import RobotCode.Network.LiveGraph
import RobotCode.Network.ProxyDelivery
import RobotCode.Network.RoundTrip
import RobotCode.Logging.OrderCheck
import RobotCode.Logging.Merging
import RobotCode.Logging.MatchingPaths
import RobotCode.Logging.LogWriter
import RobotCode.Logging.Snappy
import RobotCode.Logging.ReadBack
import RobotCode.Logging.BootOrder
import RobotCode.Logging.LzmaDecoder
import RobotCode.Events.RunFor
import RobotCode.Events.PhasedLoop
import RobotCode.Events.WatcherDelivery
import RobotCode.Events.NetworkBridge
import RobotCode.Jevois.Bitpacking
import RobotCode.Jevois.Uart
import RobotCode.Starter.PidReuse
import RobotCode.Events.BridgeTimestamps
import RobotCode.Flatbuffers.MergeLaws
import RobotCode.Json.RoundTrip
import RobotCode.Usb.Queue
import RobotCode.Vision.Codec
import RobotCode.Vision.LineFit

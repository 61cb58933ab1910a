import LinuxPractice.CppString
import LinuxPractice.Framing
import LinuxPractice.NetProtocol
import LinuxPractice.NetFraming
import LinuxPractice.NetServer
import LinuxPractice.NetSession
import LinuxPractice.NetDelivery
import LinuxPractice.NetFaults
import LinuxPractice.Ring
import LinuxPractice.RingQueue
import LinuxPractice.RingQueueSafety
import LinuxPractice.RingQueueFifo
import LinuxPractice.BlockQueue
import LinuxPractice.BlockQueueSafety
import LinuxPractice.BlockQueueProgress
import LinuxPractice.BlockQueueDeadlock
import LinuxPractice.ThreadPool
import LinuxPractice.ThreadPoolSafety
import LinuxPractice.ThreadPoolProgress
import LinuxPractice.GetInstance
import LinuxPractice.GoBang
import LinuxPractice.Runs
import LinuxPractice.GoBangGame
import LinuxPractice.Descriptors
import LinuxPractice.ProcessPool
import LinuxPractice.ProcessPoolFiles
import LinuxPractice.ProcessPoolQuit
import LinuxPractice.Passes
import LinuxPractice.Slots
import LinuxPractice.SelectServer
import LinuxPractice.SelectServerDispatch
import LinuxPractice.Dispatch
import LinuxPractice.PollServer
import LinuxPractice.PollServerDispatch
import LinuxPractice.ServerTables
import LinuxPractice.EpollServer
import LinuxPractice.EpollServerBatch
import LinuxPractice.RingQueueProgress
import LinuxPractice.Ticket
import LinuxPractice.Buffering
import LinuxPractice.Mystdio
import LinuxPractice.MystdioBounds
import LinuxPractice.NetBytes
import LinuxPractice.SelectServerRange
import LinuxPractice.FirstSeen
import LinuxPractice.UdpServer
import LinuxPractice.Paths
import LinuxPractice.HttpServer
import LinuxPractice.HttpServerPaths
import LinuxPractice.HttpServerContent
import LinuxPractice.HttpServerLines
import LinuxPractice.HttpServerFraming
import LinuxPractice.NetCodec
import LinuxPractice.IntGuards
import LinuxPractice.NetReplies
import LinuxPractice.NetJson
import LinuxPractice.NetPairing
import LinuxPractice.NetJsonFlat
import LinuxPractice.NetJsonCalculator
import LinuxPractice.HttpServerTypes
import LinuxPractice.Loops
import LinuxPractice.Reactor
import LinuxPractice.ReactorDispatch
import LinuxPractice.GoBangInput
import LinuxPractice.GoBangPlayerMove
import LinuxPractice.CBuffer
import LinuxPractice.Shell
import LinuxPractice.ShellWords
import LinuxPractice.ShellRedir
import LinuxPractice.ShellInput
import LinuxPractice.ShellCommands
import LinuxPractice.ProcessPoolSchedule
import LinuxPractice.Dictionary
import LinuxPractice.GoBangCount
import LinuxPractice.ProcessPoolDelivery
import LinuxPractice.ThreadPoolTasks
import LinuxPractice.TcpServer
import LinuxPractice.TcpServerReplies
import LinuxPractice.TcpServerDrain
import LinuxPractice.NetForks
import LinuxPractice.ReactorLoop
import LinuxPractice.BlockQueueTasks
import LinuxPractice.MyCond
import LinuxPractice.Pipes
import LinuxPractice.TestPipe
import LinuxPractice.HttpServerThreads
import LinuxPractice.LogFiles
import LinuxPractice.Getline
import LinuxPractice.Fifo
import LinuxPractice.FifoEnd
import LinuxPractice.UdpClient
import LinuxPractice.TcpClient
import LinuxPractice.GoBangMain
import LinuxPractice.Environ
import LinuxPractice.ReadAhead
import LinuxPractice.ShellLines
import LinuxPractice.ShellEnviron

import LinuxServer.Framework.ForLoop
import LinuxServer.Framework.TerminatedText
import LinuxServer.Framework.Reachability
import LinuxServer.Framework.LinkedHeap
import LinuxServer.Framework.Threads
import LinuxServer.Framework.Files
import LinuxServer.Framework.Decimal
import LinuxServer.Framework.CInt
import LinuxServer.Sort.IntArray
import LinuxServer.Sort.Sorts
import LinuxServer.FileNum.FileTree
import LinuxServer.FileNum.Paths
import LinuxServer.FileNum.ReadFileNum
import LinuxServer.FileNum.Walk
import LinuxServer.FileNum.Failures
import LinuxServer.Reap.Processes
import LinuxServer.Reap.Ledger
import LinuxServer.Reap.Reaping
import LinuxServer.Reap.Sigchld
import LinuxServer.Reap.SigchldLedger
import LinuxServer.Reap.SigchldReap
import LinuxServer.Tcp.RecvLoop
import LinuxServer.Tcp.Connection
import LinuxServer.Tcp.Sockets
import LinuxServer.Tcp.SelectServer
import LinuxServer.Tcp.PollServer
import LinuxServer.Tcp.EpollServer
import LinuxServer.Tcp.EpollService
import LinuxServer.Tcp.ThreadServer
import LinuxServer.Udp.Echo
import LinuxServer.Chat.Fifos
import LinuxServer.Chat.Talk
import LinuxServer.FileIO.Copy
import LinuxServer.Pipe.PsAux
import LinuxServer.FileInfo.LsL
import LinuxServer.Daemon.Daemon
import LinuxServer.Threads.Nodes
import LinuxServer.Threads.NodeList
import LinuxServer.Threads.NodesRun
import LinuxServer.Threads.NodesTurn
import LinuxServer.Threads.ProducerCustomer
import LinuxServer.Threads.Tickets
import LinuxServer.Threads.Deadlock
import LinuxServer.Threads.ReadWrite

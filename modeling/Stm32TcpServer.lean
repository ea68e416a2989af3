import Stm32TcpServer.Delay.DelayMs
import Stm32TcpServer.Eth.Desc
import Stm32TcpServer.Eth.RoundTrip
import Stm32TcpServer.Eth.RxFrames
import Stm32TcpServer.Eth.RxHandler
import Stm32TcpServer.Eth.RxInput
import Stm32TcpServer.Eth.RxIrq
import Stm32TcpServer.Eth.RxRing
import Stm32TcpServer.Eth.RxSlots
import Stm32TcpServer.Eth.TxOutput
import Stm32TcpServer.Eth.TxRing
import Stm32TcpServer.Lib.Blocks
import Stm32TcpServer.Lib.FreeList
import Stm32TcpServer.Lib.Prefix
import Stm32TcpServer.Lib.Refcount
import Stm32TcpServer.Lib.Ring
import Stm32TcpServer.Lib.Runs
import Stm32TcpServer.Lib.Schedule
import Stm32TcpServer.Lib.SeqNo
import Stm32TcpServer.Lib.Steps
import Stm32TcpServer.Lib.Window
import Stm32TcpServer.Lwip.Etharp
import Stm32TcpServer.Lwip.EtharpCache
import Stm32TcpServer.Lwip.EtharpRuns
import Stm32TcpServer.Lwip.IpAddr
import Stm32TcpServer.Lwip.Mem
import Stm32TcpServer.Lwip.MemOps
import Stm32TcpServer.Lwip.MemRuns
import Stm32TcpServer.Lwip.Memp
import Stm32TcpServer.Lwip.MempPreempt
import Stm32TcpServer.Lwip.NextHop
import Stm32TcpServer.Lwip.Pbuf
import Stm32TcpServer.Lwip.PbufChains
import Stm32TcpServer.Lwip.PbufRefs
import Stm32TcpServer.Lwip.PbufRuns
import Stm32TcpServer.Lwip.Periodic
import Stm32TcpServer.Lwip.TcpAcks
import Stm32TcpServer.Lwip.TcpConn
import Stm32TcpServer.Lwip.TcpIn
import Stm32TcpServer.Lwip.TcpLink
import Stm32TcpServer.Lwip.TcpOut
import Stm32TcpServer.Lwip.TcpOutOps
import Stm32TcpServer.Lwip.TcpOutRuns
import Stm32TcpServer.Lwip.TcpPcb
import Stm32TcpServer.Lwip.TcpResend
import Stm32TcpServer.Lwip.TcpWindow
import Stm32TcpServer.Lwip.TcpWrite
import Stm32TcpServer.Tcp.AbortDiscipline
import Stm32TcpServer.Tcp.CheckClient
import Stm32TcpServer.Tcp.CloseWait
import Stm32TcpServer.Tcp.ConnFlag
import Stm32TcpServer.Tcp.Credit
import Stm32TcpServer.Tcp.Linked
import Stm32TcpServer.Tcp.PbufChain
import Stm32TcpServer.Tcp.PeerStream
import Stm32TcpServer.Tcp.Receive
import Stm32TcpServer.Tcp.Replies
import Stm32TcpServer.Tcp.TcpServer
import Stm32TcpServer.Uart.Com2Rx
import Stm32TcpServer.Uart.Com2Tx
import Stm32TcpServer.Uart.Dma
import Stm32TcpServer.Uart.Forward
import Stm32TcpServer.Uart.MainLoop
import Stm32TcpServer.Uart.RxFraming
import Stm32TcpServer.Uart.RxStream
import Stm32TcpServer.Uart.SendUart
import Stm32TcpServer.Uart.TxCall
import Stm32TcpServer.Uart.TxNested
import Stm32TcpServer.Uart.TxQueue
import Stm32TcpServer.Uart.TxStream

import YlsFirmware.Lib.Run
import YlsFirmware.Lib.Overflow
import YlsFirmware.Lib.Transfer
import YlsFirmware.Lib.ShiftRegister
import YlsFirmware.Lib.Remainder
import YlsFirmware.Lib.Ring
import YlsFirmware.Lib.Pieces
import YlsFirmware.Lib.OnesComplement
import YlsFirmware.Protocol
import YlsFirmware.Crc
import YlsFirmware.Globals
import YlsFirmware.Uart
import YlsFirmware.Ethernet
import YlsFirmware.Firmware
import YlsFirmware.Device
import YlsFirmware.Theorems.Schedule
import YlsFirmware.Theorems.Switches
import YlsFirmware.Interrupts
import YlsFirmware.Preemption
import YlsFirmware.Clock
import YlsFirmware.Enet
import YlsFirmware.Pbuf
import YlsFirmware.Inet
import YlsFirmware.Ip4
import YlsFirmware.Ip4Frag
import YlsFirmware.Ip4Input
import YlsFirmware.Udp
import YlsFirmware.Etharp
import YlsFirmware.Theorems.ArpTable
import YlsFirmware.Theorems.ArpRuns
import YlsFirmware.Theorems.ArpPackets
import YlsFirmware.Theorems.BitOrder
import YlsFirmware.Theorems.Bounds
import YlsFirmware.Theorems.Bursts
import YlsFirmware.Theorems.Chains
import YlsFirmware.Theorems.Checksum
import YlsFirmware.Theorems.Command
import YlsFirmware.Theorems.Credit
import YlsFirmware.Theorems.Datagram
import YlsFirmware.Theorems.DatagramInput
import YlsFirmware.Theorems.Delivery
import YlsFirmware.Theorems.ArpExchange
import YlsFirmware.Theorems.Fields
import YlsFirmware.Theorems.Filter
import YlsFirmware.Theorems.Frames
import YlsFirmware.Theorems.FramesSent
import YlsFirmware.Theorems.Fresh
import YlsFirmware.Theorems.Health
import YlsFirmware.Theorems.InetChecksum
import YlsFirmware.Theorems.Isolation
import YlsFirmware.Theorems.Ownership
import YlsFirmware.Theorems.Payloads
import YlsFirmware.Theorems.Pcbs
import YlsFirmware.Theorems.Polling
import YlsFirmware.Theorems.Reception
import YlsFirmware.Theorems.Routing
import YlsFirmware.Theorems.Segments
import YlsFirmware.Theorems.Snapshot
import YlsFirmware.Theorems.Timers
import YlsFirmware.Theorems.Fragments
import YlsFirmware.Theorems.Reassembly
import YlsFirmware.Theorems.ReassemblyRuns
import YlsFirmware.Theorems.Datagrams

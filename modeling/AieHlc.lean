import AieHlc.Cache.Dsync
import AieHlc.Hw.PktIds
import AieHlc.Hw.Reserve
import AieHlc.Hw.Routing
import AieHlc.Packet.Capacity
import AieHlc.Packet.ReadFraming
import AieHlc.Packet.Txn
import AieHlc.Control.Return
import AieHlc.Control.ReturnSplit
import AieHlc.Elf.Containment
import AieHlc.Elf.BlockRule
import AieHlc.Elf.Reload
import AieHlc.Elf.Room
import AieHlc.Shim.Ack
import AieHlc.Shim.Rollback
import AieHlc.Lower.BdPool
import AieHlc.Lower.CoreMem
import AieHlc.Gemm.Fill
import AieHlc.Gemm.Input
import AieHlc.Gemm.Output
import AieHlc.Gemm.RowOutput
import AieHlc.Conv.Output
import AieHlc.Autotile.Accept
import AieHlc.Autotile.Stage
import AieHlc.Front.Exact
import AieHlc.Front.GemmTiling
import AieHlc.Front.Includes
import AieHlc.Resmap.Pick
import AieHlc.Route.Create
import AieHlc.Netboot.KillReply
import AieHlc.Netboot.Staging
import AieHlc.Netboot.Framing
import AieHlc.Front.Transform
import AieHlc.Graph.ConvGeometry
import AieHlc.Graph.Partition

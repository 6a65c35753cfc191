import PacketSerial.Lib.Buffer
import PacketSerial.Lib.Machine
import PacketSerial.Lib.Reassembly
import PacketSerial.Lib.Varint
import PacketSerial.Lib.Stuffing
import PacketSerial.Lib.Delimited
import PacketSerial.Lib.CyclicCode
import PacketSerial.Lib.SlotMap
import PacketSerial.Lib.Memory
import PacketSerial.Lib.Steps
import PacketSerial.Lib.Ring
import PacketSerial.Nanopb.Istream
import PacketSerial.Nanopb.Grammar
import PacketSerial.Nanopb.Ostream
import PacketSerial.Nanopb.Fields
import PacketSerial.Nanopb.Ltypes
import PacketSerial.Nanopb.Codec
import PacketSerial.Nanopb.BufStream
import PacketSerial.Crc8
import PacketSerial.Cobs
import PacketSerial.Messages
import PacketSerial.MessageCodec
import PacketSerial.ProtoBuff
import PacketSerial.UnionScan
import PacketSerial.UnionLoop
import PacketSerial.Handlers
import PacketSerial.Receiver
import PacketSerial.Staging
import PacketSerial.Deframing
import PacketSerial.Reset
import PacketSerial.Frame
import PacketSerial.CrcDetection
import PacketSerial.Delivery
import PacketSerial.History
import PacketSerial.Sender
import PacketSerial.Hexhelper
import PacketSerial.HexDumps
import PacketSerial.SendProtocol
import PacketSerial.Clearing
import PacketSerial.Cutting
import PacketSerial.Recovery
import PacketSerial.LostTail
import PacketSerial.EndToEnd
import PacketSerial.Reading
import PacketSerial.Duplex
import PacketSerial.Messaging
import PacketSerial.Nanopb.Required
import PacketSerial.Nanopb.Semantics
import PacketSerial.Nanopb.FieldIter
import PacketSerial.Nanopb.BufDecode
import PacketSerial.Nanopb.BufEncode
import PacketSerial.Nanopb.BufFields
import PacketSerial.MessageTables
import PacketSerial.Starving
import PacketSerial.Restart
import PacketSerial.MessageFields
import PacketSerial.Inbound
import PacketSerial.Unwritten
import PacketSerial.CobsBuffers
import PacketSerial.Library
import PacketSerial.Marshalling
import PacketSerial.InMemory
import PacketSerial.PacketDAO

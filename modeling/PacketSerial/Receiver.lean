/-
  The receiving side of `PacketSerial.c`: `process`, `packet_parser`, and the static
  variables they share.

  A call of `process` is a step of a machine (`Receiver.step`).  It returns what the C
  function returns, and the list of what it did that can be seen from outside or can
  go wrong inside: copies, with their offsets and lengths, handlers called, and the
  packet decoded (`Event`).

  The log texts are left out; their hex dumps are in `HexDumps`.  A handler does
  not call back into the library.  A copy past the end of `packet_buffer` is recorded,
  and what it would write outside is dropped, where the source writes it over the variables
  behind the buffer: from there on the model follows a program in which these were spared.
-/
import PacketSerial.Cobs
import PacketSerial.ProtoBuff

namespace PacketSerial

/-- `PACKET_BUFFER_SIZE` -/
def packetBufferSize : ℕ := 300

/-- The size of `rx_buffer`. -/
def rxBufferSize : ℕ := Packet.size + 1

/-- What a call of `process` does. -/
inductive Event where
  /-- `strncpy` into `rx_buffer`, at an offset -/
  | strncpy (offset size : ℕ)
  /-- `strlen(rx_buffer)` -/
  | strlen (length : ℕ)
  /-- `cobs_decode` of `msg_size` bytes into an array of that size -/
  | cobsDecode (msgSize : ℕ) (result : CobsDecodeResult)
  /-- `packet_parser` has decoded a packet -/
  | packet (packet : Packet)
  /-- `memcpy` into `packet_buffer`, at an offset -/
  | memcpy (offset size : ℕ)
  /-- `packet_buffer` handed to `rx_handler` -/
  | rxHandler (handler : FnPtr) (buffer : Buffer packetBufferSize)
  /-- `packet_buffer` handed to `ProtoBuff.unmarshal` -/
  | unmarshal (buffer : Buffer packetBufferSize)
  /-- a call that `ProtoBuff.unmarshal` makes -/
  | call (call : Call)
deriving DecidableEq, Repr

/-- The static variables behind `packet_parser`, with those of `ProtoBuff.c`.  The
    pointer `packet_buffer_offset` is an offset into its array. -/
structure PacketStore where
  packetBuffer : Buffer packetBufferSize
  packetBufferOffset : ℕ
  rxHandler : Option FnPtr
  registry : Registry

/-- The static variables of the receiver: before them come the staging variables, with
    `p_rx_buffer` as an offset. -/
structure Receiver extends PacketStore where
  rxBuffer : Buffer rxBufferSize
  pRxBuffer : ℕ
  rxBufferRemaining : ℤ

/-! ## Packets -/

/-- `packet.flag == Packet_Flag_LAST || packet.flag == Packet_Flag_FIRSTLAST` -/
def Packet.isLast (packet : Packet) : Bool :=
  packet.flag = PacketFlag.last.code || packet.flag = PacketFlag.firstLast.code

namespace PacketStore

/-- `reset_packet_buffer` -/
def resetPacketBuffer (st : PacketStore) : PacketStore :=
  { st with packetBufferOffset := 0, packetBuffer := .zero packetBufferSize }

/-- The data of a packet is copied to `packet_buffer_offset`. -/
def append (st : PacketStore) (packet : Packet) : PacketStore :=
  { st with
    packetBuffer := st.packetBuffer.memcpy st.packetBufferOffset packet.data.bytes
    packetBufferOffset := st.packetBufferOffset + packet.data.size }

/-- What `packet_parser` does with a packet: the value returned and the events, and
    the state it leaves. -/
def storePacket (st : PacketStore) (packet : Packet) : (Bool × List Event) × PacketStore :=
  let copied : List Event :=
    [.packet packet, .memcpy st.packetBufferOffset packet.data.size]
  let st := st.append packet
  if packet.isLast then
    match st.rxHandler with
    | some handler =>
      ((true, copied ++ [.rxHandler handler st.packetBuffer]), st.resetPacketBuffer)
    | none =>
      let r := PacketSerial.unmarshal st.registry st.packetBuffer.bytes packetBufferSize true
      ((r.1, copied ++ .unmarshal st.packetBuffer :: r.2.map .call), st.resetPacketBuffer)
  else ((true, copied), st)

/-- `packet_parser`; its local `packet` is set to its defaults before it is decoded. -/
def packetParser (st : PacketStore) (stream : PbIstream) : (Bool × List Event) × PacketStore :=
  match pbDecode Packet.fields stream Packet.initZero with
  | some packet => st.storePacket packet
  | none => ((false, []), st)

end PacketStore

/-! ## What is done with a packet -/

theorem storePacket_notLast (st : PacketStore) {packet : Packet} (h : packet.isLast = false) :
    st.storePacket packet =
      ((true, [.packet packet, .memcpy st.packetBufferOffset packet.data.size]),
        st.append packet) := by
  simp [PacketStore.storePacket, h]

theorem storePacket_rx {st : PacketStore} {packet : Packet} (h : packet.isLast = true)
    {handler : FnPtr} (hh : st.rxHandler = some handler) :
    st.storePacket packet =
      ((true, [.packet packet, .memcpy st.packetBufferOffset packet.data.size,
        .rxHandler handler (st.append packet).packetBuffer]),
        (st.append packet).resetPacketBuffer) := by
  have ha : (st.append packet).rxHandler = some handler := hh
  simp [PacketStore.storePacket, h, ha]

theorem storePacket_union {st : PacketStore} {packet : Packet} (h : packet.isLast = true)
    (hh : st.rxHandler = none) :
    st.storePacket packet =
      let r := PacketSerial.unmarshal st.registry (st.append packet).packetBuffer.bytes
        packetBufferSize true
      ((r.1, .packet packet :: .memcpy st.packetBufferOffset packet.data.size ::
        .unmarshal (st.append packet).packetBuffer :: r.2.map .call),
        (st.append packet).resetPacketBuffer) := by
  have ha : (st.append packet).rxHandler = none := hh
  have hr : (st.append packet).registry = st.registry := rfl
  simp [PacketStore.storePacket, h, ha, hr]

/-- **What is done with a packet**: its data is kept; if it is a last one, the buffer is
    handed to `rx_handler`, or to `unmarshal`. -/
theorem storePacket_cases (st : PacketStore) (packet : Packet) :
    (packet.isLast = false ∧ st.storePacket packet =
      ((true, [.packet packet, .memcpy st.packetBufferOffset packet.data.size]),
        st.append packet)) ∨
    (packet.isLast = true ∧ ∃ handler, st.rxHandler = some handler ∧ st.storePacket packet =
      ((true, [.packet packet, .memcpy st.packetBufferOffset packet.data.size,
        .rxHandler handler (st.append packet).packetBuffer]),
        (st.append packet).resetPacketBuffer)) ∨
    (packet.isLast = true ∧ st.rxHandler = none ∧ ∃ r : Bool × List Call, st.storePacket packet =
      ((r.1, .packet packet :: .memcpy st.packetBufferOffset packet.data.size ::
        .unmarshal (st.append packet).packetBuffer :: r.2.map .call),
        (st.append packet).resetPacketBuffer)) := by
  cases hl : packet.isLast with
  | false => exact Or.inl ⟨rfl, storePacket_notLast st hl⟩
  | true =>
    cases hh : st.rxHandler with
    | some handler => exact Or.inr (Or.inl ⟨rfl, handler, rfl, storePacket_rx hl hh⟩)
    | none => exact Or.inr (Or.inr ⟨rfl, rfl, _, storePacket_union hl hh⟩)

/-! ## Bytes -/

namespace Receiver

/-- The state at the start of the program, with an `rx_handler` and message handlers
    registered. -/
def init (rxHandler : Option FnPtr) (registry : Registry) : Receiver where
  packetBuffer := .zero packetBufferSize
  packetBufferOffset := 0
  rxHandler := rxHandler
  registry := registry
  rxBuffer := .zero rxBufferSize
  pRxBuffer := 0
  rxBufferRemaining := rxBufferSize

/-- `reset_rx_buffer` -/
def resetRxBuffer (st : Receiver) : Receiver :=
  { st with rxBufferRemaining := rxBufferSize, rxBuffer := .zero rxBufferSize }

/-- `decoded_data_array`, not initialized: `stack` are the bytes it is made of. -/
def decodedDataArray (stack : ℕ → UInt8) (msgSize : ℕ) : List UInt8 :=
  (List.range msgSize).map stack

/-- `cobs_decode(decoded_data_array, msg_size, rx_buffer, msg_size)` -/
def decodeStaged (st : Receiver) (stack : ℕ → UInt8) : CobsDecodeResult :=
  cobsDecode (decodedDataArray stack st.rxBuffer.strlen)
    (st.rxBuffer.bytes.take st.rxBuffer.strlen)

/-- `explicit_unmarshal(decoded_data_array, msg_size, true, packet_parser)` -/
def parseStaged (st : Receiver) (stack : ℕ → UInt8) : (Bool × List Event) × PacketStore :=
  unmarshalWith (st.decodeStaged stack).dst st.rxBuffer.strlen true ((false, []), st.toPacketStore)
    st.packetParser

/-- `process`, from the delimiter on. -/
def receiveMessage (st : Receiver) (stack : ℕ → UInt8) : (Bool × List Event) × Receiver :=
  let r := st.parseStaged stack
  let st' := { st with toPacketStore := r.2 }
  let st' := if r.1.1 then st'.resetRxBuffer else st'
  ((r.1.1, .strlen st.rxBuffer.strlen ::
      .cobsDecode st.rxBuffer.strlen (st.decodeStaged stack) :: r.1.2),
    { st' with pRxBuffer := 0 })

/-- `(size_t)rx_buffer_remaining` -/
def remainingSize (st : Receiver) : ℕ := (st.rxBufferRemaining % 2 ^ 64).toNat

/-- The bytes of the call are staged in `rx_buffer`. -/
def stage (st : Receiver) (buffer : List UInt8) : Receiver :=
  { st with
    rxBuffer := st.rxBuffer.strncpy st.pRxBuffer buffer buffer.length
    pRxBuffer := st.pRxBuffer + buffer.length
    rxBufferRemaining := st.rxBufferRemaining - buffer.length }

/-- `process`: the value returned and the events, and the state it leaves. -/
def process (st : Receiver) (stack : ℕ → UInt8) (buffer : List UInt8) :
    (Bool × List Event) × Receiver :=
  if buffer.length > st.remainingSize then ((false, []), st)
  else
    let copied := Event.strncpy st.pRxBuffer buffer.length
    let st := st.stage buffer
    if buffer.getLast? = some 0 then
      let r := st.receiveMessage stack
      ((r.1.1, copied :: r.1.2), r.2)
    else ((true, [copied]), st)

end Receiver

/-- A call of `process`: it has at least one byte.  `stack` is what its local array
    happens to hold. -/
structure ProcessCall where
  buffer : List UInt8
  nonempty : buffer ≠ []
  stack : ℕ → UInt8

namespace ProcessCall

/-- One call for each byte, as in the usage example of the library. -/
def byteAtATime (bytes : List UInt8) : List ProcessCall :=
  bytes.map fun b => ⟨[b], List.cons_ne_nil _ _, fun _ => 0⟩

/-- One call for all bytes, if there are any. -/
def whole (bytes : List UInt8) : List ProcessCall :=
  if h : bytes ≠ [] then [⟨bytes, h, fun _ => 0⟩] else []

@[simp] theorem flatMap_byteAtATime (bytes : List UInt8) :
    (byteAtATime bytes).flatMap (·.buffer) = bytes := by
  induction bytes with
  | nil => rfl
  | cons b bytes ih => rw [byteAtATime, List.map_cons, List.flatMap_cons]; exact congrArg _ ih

@[simp] theorem flatMap_whole (bytes : List UInt8) :
    (whole bytes).flatMap (·.buffer) = bytes := by
  unfold whole
  split_ifs with h
  · simp
  · simpa using h

end ProcessCall

/-- One call of `process`, as a step of the receiver. -/
def Receiver.step (st : Receiver) (c : ProcessCall) : (Bool × List Event) × Receiver :=
  st.process c.stack c.buffer

/-- The local `packet` of `packet_parser` may hold anything before. -/
theorem pbDecode_packet (stream : PbIstream) (packet : Packet) :
    pbDecode Packet.fields stream packet = pbDecode Packet.fields stream Packet.initZero := rfl

end PacketSerial

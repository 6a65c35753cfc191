/-
  What `tx_handler` sees of a `send`, and the sizes that `send` is made for.

  * `TxHandler.recorded`: a handler with its calls written down;
  * `send_protocol`: for payloads below 2 GiB, the calls of any handler: how many, with
    which packets, and what `send` makes of the answers;
  * `send_size_iff`: the sizes, among all of `size_t`, that are cut into as many packets
    as they need: not those of which the sum wraps or the quotient does not fit.
    The size that `marshal` returns for a failure is one of the others, and `send`
    returns true for it without a call.

  For a payload that large the loop variable, an `int`, may come to its limit, where it is
  taken to wrap; nothing is said there beyond the number of packets and the first turn.
-/
import Mathlib.Algebra.Order.Floor.Div
import PacketSerial.Sender

namespace PacketSerial

/-! ## Calls -/

/-- A call of `tx_handler`: the frame, and what the handler returned. -/
structure TxCall where
  frame : List UInt8
  result : Bool
deriving DecidableEq, Repr

/-- The handler, with its calls written down. -/
def TxHandler.recorded {σ : Type} (handler : TxHandler σ) : TxHandler (σ × List TxCall) :=
  fun frame world =>
    let tx := handler frame world.1
    (tx.1, (tx.2, world.2 ++ [⟨frame, tx.1⟩]))

section
variable {σ : Type} {handler : TxHandler σ} {buffer : List UInt8} {size : ℕ}

theorem recorded_run (packets : List Packet) : ∀ (world : σ) (calls : List TxCall),
    let tx := Machine.run (fun world packet => handler.recorded (encodePacket packet) world)
      (world, calls) packets
    tx.2.2.map (·.frame) = calls.map (·.frame) ++ packets.map encodePacket ∧
      tx.2.2.map (·.result) = calls.map (·.result) ++ tx.1 := by
  induction packets with
  | nil => intro world calls; simp
  | cons packet packets ih =>
    intro world calls
    let tx := handler (encodePacket packet) world
    obtain ⟨hframes, hresults⟩ := ih tx.2 (calls ++ [⟨encodePacket packet, tx.1⟩])
    rw [Machine.run_cons]
    refine ⟨hframes.trans ?_, hresults.trans ?_⟩
    · rw [List.map_append, List.append_assoc]; rfl
    · rw [List.map_append, List.append_assoc]; rfl

/-- The calls of a handler are the frames of the packets built, and `send` returns
    true if they all do. -/
theorem send_calls (world : σ) :
    let r := send (some handler.recorded) buffer size (world, [])
    r.world.2.map (·.frame) = r.packets.map encodePacket ∧
      r.returnStatus = r.world.2.all (·.result) := by
  obtain ⟨hret, hworld⟩ := @send_tx _ handler.recorded buffer size (world, [])
  obtain ⟨hframes, hresults⟩ := @recorded_run σ handler
    (send (some handler.recorded) buffer size (world, [])).packets world []
  rw [← hworld] at hframes hresults
  rw [List.map_nil, List.nil_append] at hframes hresults
  refine ⟨hframes, hret.trans ?_⟩
  rw [← hresults, List.all_map]
  rfl

/-! ## The protocol -/

/-- The flags of a message of `n` packets. -/
def messageFlags : ℕ → List PacketFlag
  | 0 => []
  | 1 => [.firstLast]
  | n + 2 => .first :: (List.replicate n .cont ++ [.last])

theorem OneMessage.flags_eq {run : List Packet} (h : OneMessage run) :
    run.map (·.flag) = (messageFlags run.length).map PacketFlag.code := by
  have hlen : run.length = (run.map (·.flag)).length := (List.length_map _).symm
  rcases h.flags with hf | ⟨n, hf⟩
  · rw [hlen, hf]; rfl
  · rw [hlen, hf]
    simp [messageFlags]

/-- The check byte is that of the data in the packet. -/
theorem sentPacket_crc {i : ℕ} (h0 : 0 < size) (h : size < 2 ^ 31)
    (hi : i < totalChunks size) : (sentPacket buffer size i).crc =
      calculateCrc (sentPacket buffer size i).bytes (sentPacket buffer size i).data.size := by
  have hchunk := packetChunk_le h0 h hi
  have hle : (sentPacket buffer size i).bytes.length ≤ (packetChunk size i).2 := by
    rw [sentPacket_bytes h0 h hi]
    exact List.length_take_le _ _
  have hdata : (sentPacket buffer size i).data.size = (sentPacket buffer size i).bytes.length := rfl
  rw [dataChunkSize_eq] at hchunk
  rw [hdata, calculateCrc_of_le (by omega), List.take_length]
  show calculateCrc (sentPacket buffer size i).bytes (packetChunk size i).2 = _
  rw [calculateCrc_of_le (by omega), List.take_of_length_le hle]

theorem send_none (h : 0 < totalChunks size) (world : σ) :
    (send none buffer size world).returnStatus = false ∧
      (send none buffer size world).world = world := by
  obtain ⟨n, hn⟩ := Nat.exists_eq_add_one_of_ne_zero h.ne'
  rw [send, hn, sendLoop]
  exact ⟨rfl, rfl⟩

/-- **The sender's protocol**: any handler is called once for each packet that the payload
    needs, with its frame; the packets are numbered, flagged and checked, whatever the
    handler returns; and `send` returns true if all calls did. -/
theorem send_protocol (h0 : 1 ≤ size) (h : size ≤ 2 ^ 31 - 1) (handler : TxHandler σ)
    (world : σ) :
    let r := send (some handler.recorded) buffer size (world, [])
    let calls := r.world.2
    calls.length = size ⌈/⌉ 15 ∧ calls.map (·.frame) = r.packets.map encodePacket ∧
      (∀ i, ∀ packet, r.packets[i]? = some packet → packet.sequenceNumber.toNat = i % 256 ∧
        packet.crc = calculateCrc packet.bytes packet.data.size) ∧
      r.packets.map (·.flag) = (messageFlags (size ⌈/⌉ 15)).map PacketFlag.code ∧
      (∀ (τ : Type) (handler' : TxHandler τ) (world' : τ),
        (send (some handler'.recorded) buffer size (world', [])).world.2.map (·.frame) =
          calls.map (·.frame)) ∧
      r.returnStatus = calls.all (·.result) ∧
      (send none buffer size world).returnStatus = false ∧
      (send none buffer size world).world = world := by
  have hlt : size < 2 ^ 31 := by omega
  have hpos := totalChunks_pos h0 hlt
  have htotal : totalChunks size = size ⌈/⌉ 15 := totalChunks_eq hlt
  obtain ⟨hframes, hret⟩ := @send_calls σ handler buffer size world
  have hpackets := @send_packets _ handler.recorded buffer size hlt (world, [])
  have hlen : (send (some handler.recorded) buffer size (world, [])).packets.length =
      size ⌈/⌉ 15 := by
    rw [hpackets, List.length_map, List.length_range, htotal]
  refine ⟨?_, hframes, ?_, ?_, ?_, hret, send_none hpos world⟩
  · rw [← hlen, ← List.length_map (f := encodePacket), ← hframes, List.length_map]
  · intro i packet hi
    rw [hpackets, List.getElem?_map, Option.map_eq_some_iff] at hi
    obtain ⟨k, hk, rfl⟩ := hi
    obtain ⟨hlt', rfl⟩ : i < totalChunks size ∧ i = k := by
      rw [List.getElem?_eq_some_iff] at hk
      obtain ⟨hlt', rfl⟩ := hk
      rw [List.length_range] at hlt'
      exact ⟨hlt', by simp⟩
    exact ⟨by simp [sentPacket, buildPacket], sentPacket_crc h0 hlt hlt'⟩
  · rw [(send_oneMessage h0 hlt (world, [])).flags_eq, hlen]
  · intro τ handler' world'
    rw [(@send_calls τ handler' buffer size world').1, hframes, send_packets hlt, send_packets hlt]

end

theorem send_protocol_fullPayload :
    let r := send (some (TxHandler.recorded fun _ (n : ℕ) => (decide (n ≠ 1), n + 1)))
      fullPayload 20 (0, [])
    r.world.2.map (·.result) = [true, false] ∧ r.returnStatus = false ∧
      r.packets.map (·.flag) = [PacketFlag.first.code, PacketFlag.last.code] :=
  let h := @send_protocol ℕ fullPayload 20 (by decide) (by decide)
    (fun _ n => (decide (n ≠ 1), n + 1)) 0
  ⟨by decide +kernel, h.2.2.2.2.2.1.trans (by decide +kernel), h.2.2.2.1⟩

/-! ## Sizes -/

/-- What `send` is to do with a payload of `size` bytes: it is cut into as many packets as
    it needs, and `send` does not return true without a call of the handler. -/
structure SizeHandled (size : ℕ) : Prop where
  chunks : totalChunks size = size ⌈/⌉ 15
  called : ∀ {σ : Type} (handler : TxHandler σ) (buffer : List UInt8) (world : σ),
    (send (some handler.recorded) buffer size (world, [])).returnStatus = true →
      (send (some handler.recorded) buffer size (world, [])).world.2 ≠ []
  no_handler : ∀ {σ : Type} (buffer : List UInt8) (world : σ),
    (send none buffer size world).returnStatus = false

theorem sizeHandled_of_pos {size : ℕ} (hpos : 0 < totalChunks size)
    (hchunks : totalChunks size = size ⌈/⌉ 15) : SizeHandled size where
  chunks := hchunks
  called handler buffer world _ := by
    obtain ⟨hframes, -⟩ := @send_calls _ handler buffer size world
    intro hnil
    rw [hnil, List.map_nil, eq_comm, List.map_eq_nil_iff] at hframes
    exact send_packets_ne_nil hpos (world, []) hframes
  no_handler buffer world := (send_none hpos world).1

/-- Where no chunk is counted, `send` returns true and does nothing. -/
theorem send_of_no_chunks {σ : Type} {txHandler : Option (TxHandler σ)} {buffer : List UInt8}
    {size : ℕ} (h : totalChunks size = 0) (world : σ) :
    send txHandler buffer size world = ⟨true, [], world⟩ := by
  rw [send, h]; rfl

theorem sizeThroughInt_sizeMax : sizeThroughInt sizeMax = sizeMax := by decide

theorem totalChunks_sizeMax : totalChunks sizeMax = 0 := by decide

/-- `send_msg`: what its call of `send` does. -/
def sendMsg {σ : Type} (txHandler : Option (TxHandler σ)) (message : UnionMessage) (world : σ) :
    SendResult σ :=
  let m := marshal message UnionMessage.fields 300 true
  let myBuffer := (Buffer.zero 300).memcpy 0 m.2
  send txHandler myBuffer.bytes (sizeThroughInt m.1) world

/-- **The sizes that `send` handles**, among those of a `size_t`; and the size that
    `marshal` returns for a failure, which is never one of them, whether it is passed
    on directly or through an `int`. -/
theorem send_size_iff {size : ℕ} (h0 : 0 < size) (h : size < 2 ^ 64) :
    (SizeHandled size ↔ size ≤ 15 * (2 ^ 32 - 1)) ∧
    (∀ {τ σ : Type} (src : τ) (fields : List (PbField FieldsPtr τ)) (bufsize : ℕ)
      (delimited : Bool), (marshal src fields bufsize delimited).1 = sizeMax →
      ∀ (txHandler : Option (TxHandler σ)) (buffer : List UInt8) (world : σ),
        send txHandler buffer (marshal src fields bufsize delimited).1 world = ⟨true, [], world⟩ ∧
        send txHandler buffer (sizeThroughInt (marshal src fields bufsize delimited).1) world =
          ⟨true, [], world⟩) ∧
    (∀ {σ : Type} (message : UnionMessage),
      (marshal message UnionMessage.fields 300 true).1 = sizeMax →
      ∀ (txHandler : Option (TxHandler σ)) (world : σ),
        sendMsg txHandler message world = ⟨true, [], world⟩) := by
  refine ⟨⟨fun hs => ?_, fun hle => ?_⟩, ?_, ?_⟩
  · have hchunks := hs.chunks
    rw [Nat.ceilDiv_eq_add_pred_div, totalChunks, dataChunkSize_eq] at hchunks
    omega
  · have hchunks : totalChunks size = size ⌈/⌉ 15 := by
      rw [Nat.ceilDiv_eq_add_pred_div, totalChunks, dataChunkSize_eq]
      omega
    refine sizeHandled_of_pos ?_ hchunks
    rw [hchunks, Nat.ceilDiv_eq_add_pred_div]
    omega
  · intro τ σ src fields bufsize delimited hm txHandler buffer world
    rw [hm, sizeThroughInt_sizeMax]
    exact ⟨send_of_no_chunks totalChunks_sizeMax world, send_of_no_chunks totalChunks_sizeMax world⟩
  · intro σ message hm txHandler world
    rw [sendMsg, hm, sizeThroughInt_sizeMax]
    exact send_of_no_chunks totalChunks_sizeMax world

theorem send_size_iff_limit : SizeHandled (15 * (2 ^ 32 - 1)) :=
  (@send_size_iff (15 * (2 ^ 32 - 1)) (by decide) (by decide)).1.2 le_rfl

/-- A message that does not fit into its buffer, and is reported as sent. -/
theorem failedMarshal_sent :
    let m := marshal timeMessage UnionMessage.fields 3 true
    m.1 = 2 ^ 64 - 1 ∧ totalChunks m.1 ≠ m.1 ⌈/⌉ 15 ∧
      ∀ size ∈ [m.1, sizeThroughInt m.1],
        (send (some recordFrames) m.2 size []).returnStatus = true ∧
          (send (some recordFrames) m.2 size []).world = [] := by
  decide +kernel

end PacketSerial

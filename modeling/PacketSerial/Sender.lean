/-
  The sending side of `PacketSerial.c`: `send` cuts a payload into packets, and
  hands the frame of each to `tx_handler`.

  `packet_data_chunk_size` and the loop variable are of type `int`.  For payloads below 2 GiB
  no conversion loses anything, and what the packets are is stated for these.

  * `send_tx`: `tx_handler` gets the frames of the packets built, in order;
  * `send_packets`: what the packets are;
  * `sentSize`, `send_bytes`: how much of the payload they carry;
  * `send_loses_nothing_iff`: all of it, unless the payload is longer than one
    packet and fills its last packet.
-/
import PacketSerial.History
import PacketSerial.Integers

namespace PacketSerial

/-- `data_chunk_size` -/
def dataChunkSize : ℕ := 16 - 1

theorem dataChunkSize_eq : dataChunkSize = 15 := rfl

/-- `total_chunks`: the sum is a `size_t`, the quotient an `unsigned int`. -/
def totalChunks (size : ℕ) : ℕ := (size + dataChunkSize - 1) % 2 ^ 64 / dataChunkSize % 2 ^ 32

/-- `flag` and `packet_data_chunk_size` of the `i`-th turn, as they are passed on.  The loop
    variable is of type `int`: with `total_chunks` it is compared as an `unsigned int`, with
    zero as it is. -/
def packetChunk (size i : ℕ) : PacketFlag × ℕ :=
  if i = 0 ∧ totalChunks size = 1 then (.firstLast, sizeThroughInt size)
  else if i = 0 ∧ totalChunks size > 1 then (.first, dataChunkSize)
  else if toInt32 i > 0 ∧ i < totalChunks size - 1 then (.cont, dataChunkSize)
  else (.last, size % dataChunkSize)

/-- A `tx_handler`, which may change the world around it. -/
abbrev TxHandler (σ : Type) := List UInt8 → σ → Bool × σ

/-- What `send` returns, with the packets it has built and the world after it. -/
structure SendResult (σ : Type) where
  returnStatus : Bool
  packets : List Packet
  world : σ

section
variable {σ : Type} (txHandler : Option (TxHandler σ)) (buffer : List UInt8) (size : ℕ)

/-- The loop of `send`, from turn `i` on: `turns` are left, `offset` is where
    `buffer_offset` points to. -/
def sendLoop (turns i offset : ℕ) (returnStatus : Bool) (world : σ) : SendResult σ :=
  match turns with
  | 0 => ⟨returnStatus, [], world⟩
  | turns + 1 =>
    let chunk := packetChunk size i
    let packet := buildPacket (buffer.drop offset) chunk.2 (UInt8.ofNat i) chunk.1
    match txHandler with
    | none => ⟨false, [packet], world⟩
    | some handler =>
      let tx := handler (encodePacket packet) world
      let r := sendLoop turns (i + 1) (offset + chunk.2) (returnStatus && tx.1) tx.2
      { r with packets := packet :: r.packets }

/-- `send` -/
def send (world : σ) : SendResult σ :=
  sendLoop txHandler buffer size (totalChunks size) 0 0 true world

end

/-- The packet of turn `i`, when the turns before took `dataChunkSize` bytes each. -/
def sentPacket (buffer : List UInt8) (size i : ℕ) : Packet :=
  buildPacket (buffer.drop (i * dataChunkSize)) (packetChunk size i).2 (UInt8.ofNat i)
    (packetChunk size i).1

/-- How many bytes of the payload the packets carry. -/
def sentSize (size : ℕ) : ℕ :=
  if size % dataChunkSize = 0 ∧ dataChunkSize < size then size - dataChunkSize else size

theorem sentSize_eq (size : ℕ) :
    sentSize size = if size % 15 = 0 ∧ 15 < size then size - 15 else size := rfl

/-! ## The handler -/

section
variable {σ : Type} {handler : TxHandler σ} {buffer : List UInt8} {size : ℕ}

/-- The handler gets the frames of the packets, one after the other. -/
theorem sendLoop_tx (turns : ℕ) : ∀ (i offset : ℕ) (returnStatus : Bool) (world : σ),
    let r := sendLoop (some handler) buffer size turns i offset returnStatus world
    let tx := Machine.run (fun world packet => handler (encodePacket packet) world) world r.packets
    r.returnStatus = (returnStatus && tx.1.all id) ∧ r.world = tx.2 := by
  induction turns with
  | zero => intro i offset returnStatus world; simp [sendLoop]
  | succ turns ih =>
    intro i offset returnStatus world
    let chunk := packetChunk size i
    let tx := handler (encodePacket (buildPacket (buffer.drop offset) chunk.2 (UInt8.ofNat i)
      chunk.1)) world
    obtain ⟨hret, hworld⟩ := ih (i + 1) (offset + chunk.2) (returnStatus && tx.1) tx.2
    refine ⟨?_, hworld⟩
    rw [sendLoop]
    simp only [Machine.run_cons, List.all_cons, id]
    rw [hret, Bool.and_assoc]

/-- **`tx_handler` gets the frames of the packets built**, and `send` returns true if
    it always does. -/
theorem send_tx (world : σ) :
    let r := send (some handler) buffer size world
    let tx := Machine.run (fun world packet => handler (encodePacket packet) world) world r.packets
    r.returnStatus = tx.1.all id ∧ r.world = tx.2 := by
  obtain ⟨hret, hworld⟩ := @sendLoop_tx σ handler buffer size (totalChunks size) 0 0 true world
  exact ⟨hret, hworld⟩

/-! ## The packets -/

theorem totalChunks_eq (h : size < 2 ^ 31) :
    totalChunks size = (size + dataChunkSize - 1) / dataChunkSize := by
  simp only [totalChunks, dataChunkSize_eq]; omega

theorem totalChunks_lt (h : size < 2 ^ 31) : totalChunks size < 2 ^ 31 := by
  rw [totalChunks_eq h, dataChunkSize_eq]; omega

theorem totalChunks_pos (h0 : 0 < size) (h : size < 2 ^ 31) : 0 < totalChunks size := by
  rw [totalChunks_eq h, dataChunkSize_eq]; omega

/-- Every turn but the last takes `dataChunkSize` bytes. -/
theorem packetChunk_size {i : ℕ} (hsize : size < 2 ^ 31) (h : i + 1 < totalChunks size) :
    (packetChunk size i).2 = dataChunkSize := by
  have htotal := totalChunks_lt hsize
  unfold packetChunk
  rw [toInt32_of_lt (by omega)]
  split_ifs with h1 h2 h3
  · omega
  · rfl
  · rfl
  · omega

/-- The last turn takes the rest, as far as it is less than a whole chunk. -/
theorem packetChunk_last {i : ℕ} (hsize : size < 2 ^ 31) (h : i + 1 = totalChunks size) :
    (packetChunk size i).2 = if i = 0 then size else size % dataChunkSize := by
  unfold packetChunk
  rw [sizeThroughInt_of_lt hsize]
  split_ifs with h1 h2 h3 <;> first | rfl | omega

/-- However large the payload is, the first turn builds a packet. -/
theorem send_packets_ne_nil (h : 0 < totalChunks size) (world : σ) :
    (send (some handler) buffer size world).packets ≠ [] := by
  obtain ⟨n, hn⟩ := Nat.exists_eq_add_one_of_ne_zero h.ne'
  rw [send, hn, sendLoop]
  exact List.cons_ne_nil _ _

theorem sendLoop_packets (hsize : size < 2 ^ 31) (turns : ℕ) : ∀ (i : ℕ) (returnStatus : Bool) (world : σ),
    i + turns = totalChunks size →
    (sendLoop (some handler) buffer size turns i (i * dataChunkSize) returnStatus world).packets =
      (List.range' i turns).map (sentPacket buffer size) := by
  induction turns with
  | zero => intro i returnStatus world _; rfl
  | succ turns ih =>
    intro i returnStatus world hi
    rw [sendLoop, List.range'_succ, List.map_cons]
    refine congrArg (sentPacket buffer size i :: ·) ?_
    rcases Nat.eq_zero_or_pos turns with rfl | hpos
    · rfl
    · rw [packetChunk_size hsize (by omega), ← Nat.succ_mul]
      exact ih (i + 1) _ _ (by omega)

/-- **The packets of `send`**: one for each chunk of the payload. -/
theorem send_packets (h : size < 2 ^ 31) (world : σ) :
    (send (some handler) buffer size world).packets =
      (List.range (totalChunks size)).map (sentPacket buffer size) := by
  have hloop := @sendLoop_packets σ handler buffer size h (totalChunks size) 0 true world
    (zero_add _)
  rw [zero_mul] at hloop
  rw [send, hloop, List.range_eq_range']

theorem sentPacket_wf (i : ℕ) : (sentPacket buffer size i).WF := buildPacket_wf _ _ _ _

theorem map_sentPacket_wf (chunks : List ℕ) :
    ∀ packet ∈ chunks.map (sentPacket buffer size), packet.WF := by
  intro packet hm
  obtain ⟨i, -, rfl⟩ := List.mem_map.1 hm
  exact sentPacket_wf i

theorem packetChunk_le {i : ℕ} (h0 : 0 < size) (h : size < 2 ^ 31) (hi : i < totalChunks size) :
    (packetChunk size i).2 ≤ dataChunkSize := by
  rcases Nat.lt_or_ge (i + 1) (totalChunks size) with hlt | hge
  · exact (packetChunk_size h hlt).le
  · rw [packetChunk_last h (by omega)]
    have htotal := totalChunks_eq h
    simp only [dataChunkSize_eq] at htotal ⊢
    split_ifs <;> omega

theorem sentPacket_bytes {i : ℕ} (h0 : 0 < size) (h : size < 2 ^ 31) (hi : i < totalChunks size) :
    (sentPacket buffer size i).bytes =
      (buffer.drop (i * dataChunkSize)).take (packetChunk size i).2 := by
  have hle := packetChunk_le h0 h hi
  refine BytesArray.bytes_ofList ?_
  rw [dataChunkSize_eq] at hle
  rw [List.length_take]; omega

/-- Where a chunk starts and how long it is. -/
theorem packetChunk_within {i : ℕ} (h : size < 2 ^ 31) (hi : i < totalChunks size) :
    i * dataChunkSize + (packetChunk size i).2 ≤ size := by
  have htotal := totalChunks_eq h
  rcases Nat.lt_or_ge (i + 1) (totalChunks size) with hlt | hge
  · rw [packetChunk_size h hlt]
    simp only [dataChunkSize_eq] at htotal ⊢
    omega
  · rw [packetChunk_last h (by omega)]
    simp only [dataChunkSize_eq] at htotal ⊢
    split_ifs <;> omega

/-- What stands behind the payload gets into no packet. -/
theorem sentPacket_take {i : ℕ} (h : size < 2 ^ 31) (hi : i < totalChunks size) :
    sentPacket (buffer.take size) size i = sentPacket buffer size i := by
  have hle := packetChunk_within h hi
  have htake : ((buffer.take size).drop (i * dataChunkSize)).take (packetChunk size i).2 =
      (buffer.drop (i * dataChunkSize)).take (packetChunk size i).2 := by
    rw [List.drop_take, List.take_take, min_eq_left (by omega)]
  rw [sentPacket, sentPacket, buildPacket, buildPacket, htake]

theorem sentPacket_flag (i : ℕ) :
    (sentPacket buffer size i).flag = (packetChunk size i).1.code := rfl

theorem packetChunk_flag_first (h : 1 < totalChunks size) : (packetChunk size 0).1 = .first := by
  rw [packetChunk, if_neg (by omega), if_pos ⟨rfl, h⟩]

theorem packetChunk_flag_cont {i : ℕ} (hsize : size < 2 ^ 31) (hi : 0 < i)
    (h : i + 1 < totalChunks size) : (packetChunk size i).1 = .cont := by
  have htotal := totalChunks_lt hsize
  rw [packetChunk, if_neg (by omega), if_neg (by omega), toInt32_of_lt (by omega),
    if_pos (by omega)]

theorem packetChunk_flag_last {i : ℕ} (h : i + 1 = totalChunks size) :
    (packetChunk size i).1 = if i = 0 then .firstLast else .last := by
  unfold packetChunk
  split_ifs <;> first | rfl | omega

theorem sentPacket_notLast {i : ℕ} (hsize : size < 2 ^ 31) (h : i + 1 < totalChunks size) :
    (sentPacket buffer size i).isLast = false := by
  rw [Packet.isLast, sentPacket_flag]
  rcases Nat.eq_zero_or_pos i with rfl | hi
  · rw [packetChunk_flag_first (by omega)]; rfl
  · rw [packetChunk_flag_cont hsize hi h]; rfl

theorem sentPacket_last {i : ℕ} (h : i + 1 = totalChunks size) :
    (sentPacket buffer size i).isLast = true := by
  rw [Packet.isLast, sentPacket_flag, packetChunk_flag_last h]
  split_ifs <;> rfl

/-- **The packets of one payload are one message**: their flags say where it starts and
    ends, and their numbers follow each other. -/
theorem send_oneMessage (h0 : 0 < size) (h : size < 2 ^ 31) (world : σ) :
    OneMessage (send (some handler) buffer size world).packets := by
  obtain ⟨n, hn⟩ := Nat.exists_eq_add_one_of_ne_zero (totalChunks_pos h0 h).ne'
  have hflags : ((List.range (n + 1)).map (sentPacket buffer size)).map (·.flag) =
      (List.range (n + 1)).map fun i => (packetChunk size i).1.code := by
    rw [List.map_map]
    exact List.map_congr_left fun i _ => sentPacket_flag i
  rw [send_packets h, hn]
  refine ⟨?_, ?_⟩
  · rw [hflags]
    rcases n with _ | n
    · left
      have hlast := packetChunk_flag_last hn.symm
      rw [List.range_one, List.map_singleton, hlast, if_pos rfl]
    · right
      refine ⟨n, ?_⟩
      have hfirst := @packetChunk_flag_first size (by omega)
      have hlast := packetChunk_flag_last hn.symm
      have hcont : ((List.range n).map ((fun i => (packetChunk size i).1.code) ∘ Nat.succ)) =
          List.replicate n PacketFlag.cont.code := by
        rw [List.eq_replicate_iff, List.length_map, List.length_range]
        refine ⟨rfl, fun b hb => ?_⟩
        obtain ⟨i, hi, rfl⟩ := List.mem_map.1 hb
        rw [List.mem_range] at hi
        rw [Function.comp_apply, packetChunk_flag_cont h i.succ_pos (by omega)]
      rw [List.range_succ, List.map_append, List.range_succ_eq_map, List.map_cons, List.map_map,
        hcont, hfirst, List.map_singleton, hlast, if_neg (Nat.succ_ne_zero n)]
  · rw [List.isChain_map, List.isChain_range_succ]
    intro i _
    exact UInt8.ofNat_add i 1

/-- Whole chunks, one after the other. -/
theorem flatMap_chunks (l : List UInt8) (n k : ℕ) :
    ((List.range n).flatMap fun i => (l.drop (i * k)).take k) = l.take (n * k) := by
  induction n with
  | zero => simp
  | succ n ih =>
    rw [List.range_succ, List.flatMap_append, ih, Nat.succ_mul, List.take_add]
    simp

/-- **What the packets carry.** -/
theorem send_bytes (h0 : 0 < size) (h : size < 2 ^ 31) (world : σ) :
    (send (some handler) buffer size world).packets.flatMap Packet.bytes =
      buffer.take (sentSize size) := by
  obtain ⟨n, hn⟩ := Nat.exists_eq_add_one_of_ne_zero (totalChunks_pos h0 h).ne'
  have hfull : ∀ i ∈ List.range n, (sentPacket buffer size i).bytes =
      (buffer.drop (i * dataChunkSize)).take dataChunkSize := by
    intro i hi
    rw [List.mem_range] at hi
    rw [sentPacket_bytes h0 h (by omega), packetChunk_size h (by omega)]
  have hsum : n * dataChunkSize + (if n = 0 then size else size % dataChunkSize) =
      sentSize size := by
    have htotal := totalChunks_eq h
    simp only [hn, dataChunkSize_eq] at htotal
    rw [sentSize_eq, dataChunkSize_eq]
    split_ifs <;> omega
  rw [send_packets h, hn, List.flatMap_map, List.range_succ, List.flatMap_append,
    List.flatMap_congr hfull, flatMap_chunks, List.flatMap_singleton,
    sentPacket_bytes h0 h (by omega), packetChunk_last h hn.symm, ← List.take_add,
    hsum]

/-- **The sender loses no byte**, for all payloads but those that are longer than one
    packet and end with a full one: of these the last packet is empty. -/
theorem send_loses_nothing_iff (h0 : 0 < size) (h : size ≤ 2 ^ 31 - 1)
    (hbuffer : size ≤ buffer.length) (world : σ) :
    ((send (some handler) buffer size world).packets.flatMap Packet.bytes = buffer.take size ∧
      ∀ packet ∈ (send (some handler) buffer size world).packets, packet.data.size ≤ 15) ↔
    (size % 15 ≠ 0 ∨ size = 15) := by
  have hlt : size < 2 ^ 31 := by omega
  have hsize : ∀ packet ∈ (send (some handler) buffer size world).packets,
      packet.data.size ≤ 15 := by
    rw [send_packets hlt]
    intro packet hm
    obtain ⟨i, hi, rfl⟩ := List.mem_map.1 hm
    rw [List.mem_range] at hi
    have hle := packetChunk_le h0 hlt hi
    show (sentPacket buffer size i).bytes.length ≤ 15
    rw [sentPacket_bytes h0 hlt hi, List.length_take]
    exact (min_le_left _ _).trans hle
  rw [and_iff_left hsize, send_bytes h0 hlt]
  constructor
  · intro heq
    have hlen := congrArg List.length heq
    rw [List.length_take, List.length_take, sentSize_eq] at hlen
    split_ifs at hlen <;> omega
  · intro hcond
    rw [sentSize_eq, if_neg (by omega)]

end

/-- A handler that sends every frame. -/
def recordFrames : TxHandler (List (List UInt8)) := fun frame frames => (true, frames ++ [frame])

/-- A payload of two full packets. -/
def fullPayload : List UInt8 := (List.range 30).map fun i => UInt8.ofNat (i + 1)

/-- 20 bytes of it go into two packets. -/
theorem send_loses_nothing_iff_fullPayload :
    let r := send (some recordFrames) fullPayload 20 []
    r.packets.length = 2 ∧ r.packets.flatMap Packet.bytes = fullPayload.take 20 ∧
      ∀ packet ∈ r.packets, packet.data.size ≤ 15 :=
  ⟨by decide +kernel,
    (send_loses_nothing_iff (by decide) (by decide) (by decide) []).2 (by decide)⟩

/-- The second half of that payload is not sent, and `send` returns true. -/
theorem fullPayload_lost :
    let r := send (some recordFrames) fullPayload fullPayload.length []
    r.returnStatus = true ∧ r.packets.flatMap Packet.bytes = fullPayload.take 15 ∧
      r.packets.flatMap Packet.bytes ≠ fullPayload := by
  decide +kernel

end PacketSerial

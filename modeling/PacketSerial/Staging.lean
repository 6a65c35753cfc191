/-
  The staging buffer of the receiver: `rx_buffer`, `p_rx_buffer` and
  `rx_buffer_remaining`.

  * `StagingInv`: the remaining count never promises more than is left behind the
    write pointer;
  * `step_inv`, `staging_inBounds`: every call of `process` keeps that, and every
    access to the staging buffer is inside it, whatever bytes arrive;
  * `Staged st a`: the bytes `a`, without a zero, have arrived since the pointer was
    last at the start.  `step_stage` and `step_finish` say what a call does to
    that: a chunk without zeros is added, one that ends in its only zero completes
    the message.
-/
import PacketSerial.Lib.Machine
import PacketSerial.Receiver

namespace PacketSerial

open Receiver

/-! ## Bounds -/

/-- The invariant of the staging variables. -/
structure StagingInv (st : Receiver) : Prop where
  remaining_nonneg : 0 ≤ st.rxBufferRemaining
  room : st.pRxBuffer + st.rxBufferRemaining ≤ rxBufferSize

/-- The event stays inside the staging buffer, or inside the array that `cobs_decode`
    writes to. -/
def Event.InBounds : Event → Prop
  | .strncpy offset size => offset + size ≤ rxBufferSize
  | .strlen length => length < rxBufferSize
  | .cobsDecode msgSize result =>
    result.outBufferOverflow = false ∧ result.outLen ≤ msgSize - 1
  | _ => True

theorem stagingInv_init (rxHandler : Option FnPtr) (registry : Registry) :
    StagingInv (.init rxHandler registry) :=
  ⟨by simp [init], by simp [init]⟩

/-- The store does not touch the staging variables. -/
theorem storePacket_inBounds (st : PacketStore) (packet : Packet) :
    ∀ e ∈ (st.storePacket packet).1.2, e.InBounds := by
  rcases storePacket_cases st packet with ⟨-, h⟩ | ⟨-, handler, -, h⟩ | ⟨-, -, r, h⟩ <;> rw [h]
  · simp [Event.InBounds]
  · simp [Event.InBounds]
  · intro e he
    simp only [List.mem_cons, List.mem_map] at he
    rcases he with rfl | rfl | rfl | ⟨c, -, rfl⟩ <;> trivial

/-- `packet_parser` under `explicit_unmarshal`: it stores a packet, or does nothing. -/
theorem parseStaged_cases (st : Receiver) (stack : ℕ → UInt8) :
    st.parseStaged stack = ((false, []), st.toPacketStore) ∨
      ∃ packet, st.parseStaged stack = st.storePacket packet := by
  rw [parseStaged, unmarshalWith_eq]
  rcases messageOf (st.decodeStaged stack).dst st.rxBuffer.strlen true with _ | substream
  · exact Or.inl rfl
  · rw [Option.elim_some, PacketStore.packetParser]
    rcases pbDecode Packet.fields substream Packet.initZero with _ | packet
    · exact Or.inl rfl
    · exact Or.inr ⟨packet, rfl⟩

theorem receiveMessage_inv {st : Receiver} (stack : ℕ → UInt8) (h : StagingInv st) :
    StagingInv (st.receiveMessage stack).2 := by
  have hroom := h.room
  have h0 := h.remaining_nonneg
  unfold receiveMessage
  dsimp only
  cases (st.parseStaged stack).1.1
  · refine ⟨h0, ?_⟩
    simp only [Bool.false_eq_true, if_false]; omega
  · exact ⟨by simp [resetRxBuffer], by simp [resetRxBuffer]⟩

theorem receiveMessage_inBounds {st : Receiver} (stack : ℕ → UInt8)
    (h : st.rxBuffer.strlen < rxBufferSize) : ∀ e ∈ (st.receiveMessage stack).1.2, e.InBounds := by
  have hlen : (decodedDataArray stack st.rxBuffer.strlen).length =
      (st.rxBuffer.bytes.take st.rxBuffer.strlen).length := by
    rw [decodedDataArray, List.length_map, List.length_range, List.length_take,
      Buffer.length_bytes]
    omega
  have hdec := cobsDecode_bounds hlen
  rw [List.length_take, Buffer.length_bytes, min_eq_left (by omega)] at hdec
  intro e he
  simp only [receiveMessage, List.mem_cons] at he
  rcases he with rfl | rfl | he
  · exact h
  · exact ⟨hdec.1, hdec.2.2⟩
  · rcases parseStaged_cases st stack with hp | ⟨packet, hp⟩
    · rw [hp] at he; simp at he
    · rw [hp] at he
      exact storePacket_inBounds _ packet e he

theorem remainingSize_eq {st : Receiver} (h : StagingInv st) :
    (st.remainingSize : ℤ) = st.rxBufferRemaining := by
  have h0 := h.remaining_nonneg
  have hroom := h.room
  simp only [rxBufferSize, Packet.size] at hroom
  rw [remainingSize, Int.emod_eq_of_lt h0 (by omega)]; omega

/-- A zero at the end of what was copied in ends the string in the buffer. -/
theorem strlen_stage {st : Receiver} {buffer : List UInt8} (hz : 0 ∈ buffer)
    (hroom : st.pRxBuffer + buffer.length ≤ rxBufferSize) :
    (st.stage buffer).rxBuffer.strlen < rxBufferSize := by
  have htake := st.rxBuffer.take_memcpy st.pRxBuffer (strncpyBytes buffer buffer.length)
    (by simpa using hroom)
  refine (Buffer.strlen_lt (k := st.pRxBuffer + buffer.length) ?_).2
  rw [strncpyBytes_length] at htake
  rw [stage, Buffer.strncpy, htake]
  exact List.mem_append_right _ (zero_mem_strncpyBytes hz)

/-- **One call keeps the invariant and stays inside its buffers.** -/
theorem step_inv {st : Receiver} (h : StagingInv st) (c : ProcessCall) :
    StagingInv (st.step c).2 ∧ ∀ e ∈ (st.step c).1.2, e.InBounds := by
  have hrem := remainingSize_eq h
  have hroom := h.room
  unfold step process
  split_ifs with hover hlast
  · exact ⟨h, by simp⟩
  all_goals
    have hcopy : st.pRxBuffer + c.buffer.length ≤ rxBufferSize := by omega
    have hstage : StagingInv (st.stage c.buffer) :=
      ⟨by simp only [stage]; omega, by simp only [stage]; push_cast; omega⟩
  · have hz : 0 ∈ c.buffer := List.mem_of_getLast? hlast
    refine ⟨receiveMessage_inv c.stack hstage, fun e he => ?_⟩
    rcases List.mem_cons.1 he with rfl | he
    · exact hcopy
    · exact receiveMessage_inBounds c.stack (strlen_stage hz hcopy) e he
  · exact ⟨hstage, fun e he => by rw [List.mem_singleton.1 he]; exact hcopy⟩

/-- So does a run, from any state with the invariant. -/
theorem run_inBounds {st : Receiver} (h : StagingInv st) (cs : List ProcessCall) :
    StagingInv (Machine.run step st cs).2 ∧
      ∀ o ∈ (Machine.run step st cs).1, ∀ e ∈ o.2, e.InBounds := by
  have hinv : ∀ st c, StagingInv st → StagingInv (step st c).2 := fun _ c h => (step_inv h c).1
  have hout : ∀ st c, StagingInv st → ∀ e ∈ (step st c).1.2, e.InBounds :=
    fun _ c h => (step_inv h c).2
  exact ⟨Machine.run_invariant hinv h, Machine.run_outputs hinv hout h⟩

/-- **Staging accesses are in bounds**, after any calls on any bytes. -/
theorem staging_inBounds (rxHandler : Option FnPtr) (registry : Registry) (cs : List ProcessCall) :
    StagingInv (Machine.run step (.init rxHandler registry) cs).2 ∧
      ∀ o ∈ (Machine.run step (.init rxHandler registry) cs).1, ∀ e ∈ o.2, e.InBounds :=
  run_inBounds (stagingInv_init _ _) cs

/-! ## Contents -/

/-- The bytes `a` have arrived since the pointer was last at the start of the buffer. -/
structure Staged (st : Receiver) (a : List UInt8) : Prop where
  pointer : st.pRxBuffer = a.length
  bytes : st.rxBuffer.bytes.take a.length = a

theorem Staged.nil {st : Receiver} (h : st.pRxBuffer = 0) : Staged st [] := ⟨h, rfl⟩

/-- A call for which there is room. -/
theorem process_accept {st : Receiver} (h : StagingInv st) {buffer : List UInt8}
    (hlen : (buffer.length : ℤ) ≤ st.rxBufferRemaining) (stack : ℕ → UInt8) :
    st.process stack buffer =
      if buffer.getLast? = some 0 then
        ((((st.stage buffer).receiveMessage stack).1.1,
          .strncpy st.pRxBuffer buffer.length :: ((st.stage buffer).receiveMessage stack).1.2),
          ((st.stage buffer).receiveMessage stack).2)
      else ((true, [.strncpy st.pRxBuffer buffer.length]), st.stage buffer) := by
  have hrem := remainingSize_eq h
  rw [process, if_neg (by omega)]

theorem stage_inv {st : Receiver} (h : StagingInv st) {buffer : List UInt8}
    (hlen : (buffer.length : ℤ) ≤ st.rxBufferRemaining) : StagingInv (st.stage buffer) := by
  have hroom := h.room
  exact ⟨by simp only [stage]; omega, by simp only [stage]; push_cast; omega⟩

/-- Bytes that `strncpy` copies as they are come behind those that are staged. -/
theorem stage_staged {st : Receiver} (h : StagingInv st) {a buffer : List UInt8} (hs : Staged st a)
    (hcopy : strncpyBytes buffer buffer.length = buffer)
    (hlen : (buffer.length : ℤ) ≤ st.rxBufferRemaining) :
    Staged (st.stage buffer) (a ++ buffer) := by
  have hroom := h.room
  have hp := hs.pointer
  have htake := st.rxBuffer.take_memcpy st.pRxBuffer buffer (by omega)
  refine ⟨by simp only [stage, List.length_append]; omega, ?_⟩
  rw [List.length_append, ← hp, stage, Buffer.strncpy, hcopy, htake, hp, hs.bytes]

/-- A chunk without zeros is added to what is staged. -/
theorem step_stage {st : Receiver} (h : StagingInv st) {a : List UInt8} {c : ProcessCall}
    (hs : Staged st a) (h0 : 0 ∉ c.buffer)
    (hlen : (c.buffer.length : ℤ) ≤ st.rxBufferRemaining) :
    st.step c = ((true, [.strncpy a.length c.buffer.length]), st.stage c.buffer) ∧
      Staged (st.stage c.buffer) (a ++ c.buffer) := by
  have hlast : c.buffer.getLast? ≠ some 0 := fun hl => h0 (List.mem_of_getLast? hl)
  refine ⟨?_, stage_staged h hs (strncpyBytes_eq_self h0) hlen⟩
  rw [step, process_accept h hlen, if_neg hlast, hs.pointer]

/-- A chunk that ends in its only zero completes the message that is staged. -/
theorem step_finish {st : Receiver} (h : StagingInv st) {a b : List UInt8} {c : ProcessCall}
    (hs : Staged st a) (ha : 0 ∉ a) (hb : 0 ∉ b) (hc : c.buffer = b ++ [0])
    (hlen : (b.length + 1 : ℤ) ≤ st.rxBufferRemaining) :
    cstr (st.stage c.buffer).rxBuffer.bytes = a ++ b ∧
    st.step c =
      ((((st.stage c.buffer).receiveMessage c.stack).1.1,
        .strncpy a.length c.buffer.length :: ((st.stage c.buffer).receiveMessage c.stack).1.2),
        ((st.stage c.buffer).receiveMessage c.stack).2) := by
  rw [step, hc]
  have hlen' : ((b ++ [0]).length : ℤ) ≤ st.rxBufferRemaining := by
    rw [List.length_append, List.length_singleton]; omega
  have hst := (stage_staged h hs (strncpyBytes_append_zero hb) hlen').bytes
  refine ⟨?_, ?_⟩
  · have hab : 0 ∉ a ++ b := by simp [ha, hb]
    rw [← List.take_append_drop (a ++ (b ++ [0])).length (st.stage (b ++ [0])).rxBuffer.bytes, hst,
      ← List.append_assoc a, List.append_assoc (a ++ b)]
    exact cstr_append_zero hab _
  · rw [process_accept h hlen', if_pos (by simp), hs.pointer]

end PacketSerial

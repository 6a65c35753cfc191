/-
  Frames: one packet on the line.

  A frame is a packet, marshalled with its length in front, stuffed, and ended by a
  zero.

  * `encodePacket_eq`: `send` makes the frame of a packet;
  * `parseStaged_frame`: with a frame in the staging buffer, `process` stores exactly
    that packet;
  * `feed_frame`: so it does however the frame is cut into chunks, and the staging
    variables end as they were, unless the packet is rejected;
  * `frame_codec`: the two halves together, with the bounds of their buffers.
-/
import PacketSerial.Crc8
import PacketSerial.Deframing

namespace PacketSerial

/-- The flag is one of the four. -/
def Packet.WF (packet : Packet) : Prop := ∃ flag : PacketFlag, packet.flag = flag.code

/-- The bytes of a packet on the line. -/
def Packet.frame (packet : Packet) : List UInt8 := Stuffing.stuff (delimit packet.wire) ++ [0]

namespace Packet
variable {packet : Packet}

theorem WF.flag_lt (h : packet.WF) : packet.flag.toNat < 128 := by
  obtain ⟨flag, hf⟩ := h
  rw [hf]; cases flag <;> decide

theorem WF.length_delimit (h : packet.WF) :
    packet.data.size + 9 ≤ (delimit packet.wire).length ∧
      (delimit packet.wire).length ≤ packet.data.size + 11 := by
  have hw := packet.length_wire h.flag_lt
  have hd := packet.data.size_le
  rw [length_delimit_of_lt (by simp only [BytesArray.size] at hw; omega)]; omega

theorem zero_notMem_stuff : 0 ∉ Stuffing.stuff (delimit packet.wire) :=
  Stuffing.zero_notMem_stuff _

theorem WF.length_frame (h : packet.WF) :
    packet.data.size + 11 ≤ packet.frame.length ∧ packet.frame.length ≤ packet.data.size + 13 := by
  have hd := h.length_delimit
  have hs : packet.data.size ≤ 16 := packet.data.size_le
  have hl := @Stuffing.length_stuff (delimit packet.wire) (by omega)
  rw [frame, List.length_append, List.length_singleton]; omega

theorem length_frame_le (h : packet.WF) : packet.frame.length ≤ 29 := by
  have := h.length_frame
  have hs : packet.data.size ≤ 16 := packet.data.size_le
  omega

end Packet

/-! ## Sending -/

/-- `build_packet` -/
def buildPacket (buffer : List UInt8) (size : ℕ) (sequenceNumber : UInt8) (flag : PacketFlag) :
    Packet :=
  let data : BytesArray 16 := .ofList (buffer.take size)
  { data := data
    sequenceNumber := sequenceNumber
    crc := calculateCrc data.bytes size
    flag := flag.code }

theorem buildPacket_wf (buffer : List UInt8) (size : ℕ) (sequenceNumber : UInt8)
    (flag : PacketFlag) : (buildPacket buffer size sequenceNumber flag).WF := ⟨flag, rfl⟩

/-- The part of `send` that marshals and encodes a packet: the bytes it hands to
    `tx_handler`. -/
def encodePacket (packet : Packet) : List UInt8 :=
  let m := marshal packet Packet.fields Packet.size true
  let unencodedBuffer := (Buffer.zero Packet.size).memcpy 0 m.2
  let result := cobsEncode (Buffer.zero (Packet.size + 1)).bytes (unencodedBuffer.bytes.take m.1)
  let encodedSize := result.outLen + 1
  (result.dst.set (encodedSize - 1) 0).take encodedSize

theorem marshal_packet {packet : Packet} (h : packet.WF) :
    marshal packet Packet.fields Packet.size true =
      ((delimit packet.wire).length, delimit packet.wire) := by
  obtain ⟨u, hu, -⟩ := packet.coded
  have hd := h.length_delimit
  have hs : packet.data.size ≤ 16 := packet.data.size_le
  have hle : (delimit packet.wire).length ≤ Packet.size := by rw [Packet.size]; omega
  have hwl := packet.length_wire h.flag_lt
  have hw := (writes_pbEncodeSubmessage (hu.writes Packet.fields_wf.tag_lt)
    (by omega)).fromBuffer Packet.size
  change if (delimit packet.wire).length ≤ Packet.size then
    pbEncodeSubmessage (pbEncode packet Packet.fields) (pbOstreamFromBuffer Packet.size) =
      (true, ⟨true, delimit packet.wire, Packet.size, (delimit packet.wire).length⟩) else _ at hw
  rw [if_pos hle] at hw
  simp [marshal, hw]

theorem Packet.WF.length_stuff {packet : Packet} (h : packet.WF) :
    (Stuffing.stuff (delimit packet.wire)).length = (delimit packet.wire).length + 1 ∧
      (Stuffing.stuff (delimit packet.wire)).length < Packet.size := by
  have hd := h.length_delimit
  have hs : packet.data.size ≤ 16 := packet.data.size_le
  have hl := @Stuffing.length_stuff (delimit packet.wire) (by omega)
  exact ⟨hl, by rw [Packet.size]; omega⟩

/-- What `send` gets from `cobs_encode`: a zero follows in the buffer. -/
theorem cobsEncode_packet {packet : Packet} (h : packet.WF) :
    let m := marshal packet Packet.fields Packet.size true
    let unencodedBuffer := (Buffer.zero Packet.size).memcpy 0 m.2
    ∃ rest, cobsEncode (Buffer.zero (Packet.size + 1)).bytes (unencodedBuffer.bytes.take m.1) =
        ⟨(Stuffing.stuff (delimit packet.wire)).length, false,
          Stuffing.stuff (delimit packet.wire) ++ 0 :: rest⟩ ∧
      (Stuffing.stuff (delimit packet.wire) ++ 0 :: rest).length = Packet.size + 1 := by
  intro m unencodedBuffer
  obtain ⟨hl, hlt⟩ := h.length_stuff
  have htake : unencodedBuffer.bytes.take m.1 = delimit packet.wire := by
    simp only [unencodedBuffer, m, marshal_packet h]
    have := (Buffer.zero Packet.size).take_memcpy 0 (delimit packet.wire) (by omega)
    simpa using this
  have henc := @cobsEncode_eq (Buffer.zero (Packet.size + 1)).bytes (delimit packet.wire)
    (by rw [Buffer.length_bytes]; omega)
  have hdrop : (Buffer.zero (Packet.size + 1)).bytes.drop
      (Stuffing.stuff (delimit packet.wire)).length =
        0 :: List.replicate (Packet.size - (Stuffing.stuff (delimit packet.wire)).length) 0 := by
    rw [Buffer.bytes_zero, List.drop_replicate, ← List.replicate_succ]
    congr 1
    omega
  rw [hdrop] at henc
  refine ⟨_, by rw [htake, henc], ?_⟩
  rw [List.length_append, List.length_cons, List.length_replicate]
  omega

/-- **`send` hands the frame of the packet to `tx_handler`.** -/
theorem encodePacket_eq {packet : Packet} (h : packet.WF) : encodePacket packet = packet.frame := by
  obtain ⟨rest, henc, -⟩ := cobsEncode_packet h
  simp only [encodePacket, henc, Nat.add_sub_cancel, set_append_cons]
  rw [Packet.frame, List.take_append, List.take_of_length_le (by omega)]
  simp

/-! ## Receiving -/

theorem pbDecode_wire (packet : Packet) :
    pbDecode Packet.fields packet.wire Packet.initZero = some packet := by
  obtain ⟨u, hu, hs⟩ := packet.coded
  rw [pbDecode, hu.reads Packet.fields_wf, hs]

theorem packetOf_delimit {packet : Packet} (h : packet.WF) (rest : PbIstream) :
    packetOf (delimit packet.wire ++ rest) = some packet := by
  have hwl := packet.length_wire h.flag_lt
  have hs : packet.data.size ≤ 16 := packet.data.size_le
  rw [packetOf, delimit, List.append_assoc, pbMakeStringSubstream_encode (by omega),
    Option.bind_some, pbDecode_wire]

open Receiver

/-- **A frame in the staging buffer is parsed as its packet.** -/
theorem parseStaged_frame {st : Receiver} {packet : Packet} (h : packet.WF)
    (hst : cstr st.rxBuffer.bytes = Stuffing.stuff (delimit packet.wire)) (stack : ℕ → UInt8) :
    st.parseStaged stack = st.storePacket packet := by
  have hdec : st.decoded = delimit packet.wire := by
    rw [decoded, staged, hst, Stuffing.unstuff_stuff]
  rw [parseStaged_eq, parsedPacket_eq, hdec, packetOf_delimit h]
  rfl

/-- The events of a run that are not about the staging buffer. -/
def Event.isStore : Event → Bool
  | .strncpy .. | .strlen .. | .cobsDecode .. => false
  | _ => true

def storeEvents (outs : List (Bool × List Event)) : List Event :=
  (outs.flatMap (·.2)).filter (·.isStore)

/-- What is picked out of the events of the store is picked out of all events. -/
theorem filterMap_storeEvents {α : Type} {f : Event → Option α}
    (h : ∀ e : Event, e.isStore = false → f e = none) (outs : List (Bool × List Event)) :
    (storeEvents outs).filterMap f = (outs.flatMap (·.2)).filterMap f := by
  rw [storeEvents, List.filterMap_filter]
  congr 1
  funext e
  cases he : e.isStore with
  | true => rfl
  | false => exact (h e he).symm

theorem storePacket_isStore (st : PacketStore) (packet : Packet) :
    (st.storePacket packet).1.2.filter (·.isStore) = (st.storePacket packet).1.2 := by
  rw [List.filter_eq_self]
  rcases storePacket_cases st packet with ⟨-, h⟩ | ⟨-, handler, -, h⟩ | ⟨-, -, r, h⟩ <;> rw [h]
  · simp [Event.isStore]
  · simp [Event.isStore]
  · intro e he
    simp only [List.mem_cons, List.mem_map] at he
    rcases he with rfl | rfl | rfl | ⟨c, -, rfl⟩ <;> rfl

/-- A frame of `n` bytes has been fed in some chunks, with the outputs `outs`. -/
structure FrameFed (st : Receiver) (packet : Packet) (n chunks : ℕ)
    (outs : List (Bool × List Event)) (st' : Receiver) : Prop where
  returns : outs.map (·.1) = List.replicate (chunks - 1) true ++ [(st.storePacket packet).1.1]
  events : storeEvents outs = (st.storePacket packet).1.2
  store : st'.toPacketStore = (st.storePacket packet).2
  pointer : st'.pRxBuffer = 0
  remaining : st'.rxBufferRemaining =
    if (st.storePacket packet).1.1 then (rxBufferSize : ℤ) else st.rxBufferRemaining - n
  buffer : (st.storePacket packet).1.1 = true → st'.rxBuffer = .zero rxBufferSize

/-- The calls all return true if the packet is accepted. -/
theorem FrameFed.all_returns {st st' : Receiver} {packet : Packet} {n chunks : ℕ}
    {outs : List (Bool × List Event)} (h : FrameFed st packet n chunks outs st') :
    outs.all (·.1) = (st.storePacket packet).1.1 := by
  have hall : outs.all (·.1) = (outs.map (·.1)).all id := by simp
  rw [hall, h.returns, List.all_append]
  simp

theorem storeEvents_cons (o : Bool × List Event) (outs : List (Bool × List Event)) :
    storeEvents (o :: outs) = o.2.filter (·.isStore) ++ storeEvents outs := by
  simp [storeEvents]

theorem storeEvents_append (outs outs' : List (Bool × List Event)) :
    storeEvents (outs ++ outs') = storeEvents outs ++ storeEvents outs' := by
  simp [storeEvents]

theorem storeEvents_flatten (outss : List (List (Bool × List Event))) :
    storeEvents outss.flatten = outss.flatMap storeEvents := by
  induction outss with
  | nil => rfl
  | cons outs outss ih =>
    rw [List.flatten_cons, List.flatMap_cons, ← ih, storeEvents_append]

/-- A message in the staging buffer that is a frame: what is left of the call. -/
theorem receiveMessage_frame {st : Receiver} {packet : Packet} (h : packet.WF)
    (hst : cstr st.rxBuffer.bytes = Stuffing.stuff (delimit packet.wire)) (stack : ℕ → UInt8) :
    let r := st.receiveMessage stack
    r.1.1 = (st.storePacket packet).1.1 ∧
      r.1.2.filter (·.isStore) = (st.storePacket packet).1.2 ∧
      r.2.toPacketStore = (st.storePacket packet).2 ∧ r.2.pRxBuffer = 0 ∧
      r.2.rxBufferRemaining =
        (if (st.storePacket packet).1.1 then (rxBufferSize : ℤ) else st.rxBufferRemaining) ∧
      ((st.storePacket packet).1.1 = true → r.2.rxBuffer = .zero rxBufferSize) := by
  have hp := parseStaged_frame h hst stack
  have hes := storePacket_isStore st.toPacketStore packet
  simp only [receiveMessage, hp, List.filter_cons, Event.isStore, Bool.false_eq_true, if_false]
  refine ⟨trivial, hes, ?_⟩
  cases (st.storePacket packet).1.1 <;> simp [resetRxBuffer]

/-- A chunk that is staged in front adds a call that returns true and stores nothing. -/
theorem FrameFed.cons {st st' : Receiver} {packet : Packet} {n chunks : ℕ}
    {outs : List (Bool × List Event)} {buffer : List UInt8}
    (h : FrameFed (st.stage buffer) packet n chunks outs st') (hpos : 0 < chunks)
    (offset size : ℕ) :
    FrameFed st packet (buffer.length + n) (chunks + 1)
      ((true, [.strncpy offset size]) :: outs) st' := by
  obtain ⟨k, rfl⟩ := Nat.exists_eq_add_one_of_ne_zero hpos.ne'
  refine ⟨?_, ?_, h.store, h.pointer, ?_, h.buffer⟩
  · rw [List.map_cons, h.returns]
    simp only [Nat.add_sub_cancel, List.replicate_succ, List.cons_append]
    rfl
  · rw [storeEvents_cons, List.filter_cons_of_neg (by simp [Event.isStore])]
    exact h.events
  · rw [h.remaining]
    refine if_congr Iff.rfl rfl ?_
    simp only [stage]
    omega

/-- **A frame is received however it is cut**: `a` is staged, and the chunks bring the
    rest of the frame, `b` and the zero. -/
theorem feed_frame_from {packet : Packet} (hp : packet.WF) {cs : List ProcessCall} :
    ∀ {st : Receiver} {a b : List UInt8}, StagingInv st → Staged st a →
    a ++ b = Stuffing.stuff (delimit packet.wire) → (b.length + 1 : ℤ) ≤ st.rxBufferRemaining →
    cs.flatMap (·.buffer) = b ++ [0] →
    FrameFed st packet (b.length + 1) cs.length (Machine.run step st cs).1
      (Machine.run step st cs).2 := by
  induction cs with
  | nil => intro st a b _ _ _ _ hcs; simp at hcs
  | cons c cs ih =>
    intro st a b hinv hs hab hlen hcs
    have h0 : 0 ∉ a ++ b := hab ▸ Packet.zero_notMem_stuff
    rw [List.mem_append, not_or] at h0
    rw [List.flatMap_cons] at hcs
    rcases List.eq_nil_or_concat' (cs.flatMap (·.buffer)) with hrest | ⟨rest, z, hrest⟩
    · -- the chunk ends the frame
      have hcs' : cs = [] := by
        rcases cs with _ | ⟨c', cs⟩
        · rfl
        · rw [List.flatMap_cons, List.append_eq_nil_iff] at hrest
          exact absurd hrest.1 c'.nonempty
      rw [hrest, List.append_nil] at hcs
      obtain ⟨hstr, hstep⟩ := step_finish hinv hs h0.1 h0.2 hcs hlen
      obtain ⟨hret, hev, hstore, hptr, hrem, hbuf⟩ :=
        receiveMessage_frame hp (hstr.trans hab) c.stack
      subst hcs'
      rw [Machine.run_cons, Machine.run_nil, hstep]
      refine ⟨congrArg (fun r => [r]) hret, ?_, hstore, hptr, ?_, hbuf⟩
      · rw [storeEvents_cons, List.filter_cons_of_neg (by simp [Event.isStore]), hev]
        simp [storeEvents, stage]
      · rw [hrem, hcs]
        refine if_congr Iff.rfl rfl ?_
        simp [stage]
    · -- the chunk is a part of the frame
      rw [hrest, ← List.append_assoc] at hcs
      obtain ⟨rfl, hz⟩ := List.append_inj' hcs rfl
      rw [List.singleton_inj] at hz
      subst hz
      rw [List.mem_append, not_or] at h0
      rw [List.length_append] at hlen
      push_cast at hlen
      obtain ⟨hstep, hs'⟩ := step_stage (c := c) hinv hs h0.2.1 (by omega)
      have hfed := ih (stage_inv hinv (by omega)) hs' (by rw [List.append_assoc, hab])
        (by simp only [stage]; omega) hrest
      have hpos : 0 < cs.length := by
        refine List.length_pos_iff.2 ?_
        rintro rfl
        simp at hrest
      rw [Machine.run_cons, hstep, List.length_append, add_assoc, List.length_cons]
      exact hfed.cons hpos _ _

/-- The same, from the start of the staging buffer. -/
theorem feed_frame {packet : Packet} (hp : packet.WF) {cs : List ProcessCall} {st : Receiver}
    (hinv : StagingInv st) (hptr : st.pRxBuffer = 0)
    (hlen : (packet.frame.length : ℤ) ≤ st.rxBufferRemaining)
    (hcs : cs.flatMap (·.buffer) = packet.frame) :
    FrameFed st packet packet.frame.length cs.length (Machine.run step st cs).1
      (Machine.run step st cs).2 := by
  have hl : packet.frame.length = (Stuffing.stuff (delimit packet.wire)).length + 1 := by
    rw [Packet.frame, List.length_append, List.length_singleton]
  rw [hl] at hlen ⊢
  push_cast at hlen
  exact feed_frame_from hp hinv (.nil hptr) rfl hlen hcs

/-! ## The codec -/

theorem count_zero_frame (packet : Packet) :
    packet.frame.count 0 = 1 ∧ packet.frame.getLast? = some 0 := by
  refine ⟨?_, by simp [Packet.frame]⟩
  rw [Packet.frame, List.count_append, List.count_eq_zero_of_not_mem Packet.zero_notMem_stuff]
  rfl

/-- One call of `process` with a whole frame. -/
theorem process_frame {packet : Packet} (hp : packet.WF) {st : Receiver} (hinv : StagingInv st)
    (hptr : st.pRxBuffer = 0) (hlen : (packet.frame.length : ℤ) ≤ st.rxBufferRemaining)
    (stack : ℕ → UInt8) :
    ∃ result, result.outLen = (delimit packet.wire).length ∧
      result.dst.take result.outLen = delimit packet.wire ∧
      (st.process stack packet.frame).1.2 = .strncpy 0 packet.frame.length ::
        .strlen (packet.frame.length - 1) :: .cobsDecode (packet.frame.length - 1) result ::
          (st.storePacket packet).1.2 := by
  have hlast : packet.frame = Stuffing.stuff (delimit packet.wire) ++ [0] := rfl
  let c : ProcessCall := ⟨packet.frame, by simp [hlast], stack⟩
  have hroom : ((Stuffing.stuff (delimit packet.wire)).length + 1 : ℤ) ≤ st.rxBufferRemaining := by
    rw [hlast, List.length_append] at hlen
    simpa using hlen
  obtain ⟨hstr, hstep⟩ := step_finish (c := c) hinv (.nil hptr) (by simp)
    (@Packet.zero_notMem_stuff packet) hlast hroom
  rw [List.nil_append] at hstr
  have hstrlen : (st.stage packet.frame).rxBuffer.strlen = packet.frame.length - 1 := by
    rw [Buffer.strlen, hstr, hlast, List.length_append, List.length_singleton, Nat.add_sub_cancel]
  have hev : (st.process stack packet.frame).1.2 = .strncpy 0 packet.frame.length ::
      ((st.stage packet.frame).receiveMessage stack).1.2 :=
    congrArg (fun r => r.1.2) hstep
  have hparse := parseStaged_frame hp hstr stack
  have hsrc : (st.stage packet.frame).rxBuffer.bytes.take
      (st.stage packet.frame).rxBuffer.strlen = Stuffing.stuff (delimit packet.wire) := by
    rw [Buffer.strlen, take_cstr_length, hstr]
  refine ⟨(st.stage packet.frame).decodeStaged stack, ?_⟩
  obtain ⟨hout, hdst, -⟩ := @cobsDecode_eq
    (decodedDataArray stack (st.stage packet.frame).rxBuffer.strlen) _
    (by rw [decodedDataArray, List.length_map, List.length_range, Buffer.strlen, hstr])
    (@Packet.zero_notMem_stuff packet)
  rw [Stuffing.unstuff_stuff] at hout hdst
  rw [decodeStaged, hsrc]
  refine ⟨hout, by rw [hout, hdst, List.take_left], ?_⟩
  rw [hev, receiveMessage, hparse, decodeStaged, hsrc, hstrlen]
  rfl

/-- **The frame codec**: every packet with one of the four flags is marshalled, encoded and
    ended inside the buffers of `send`, its frame has one zero, and `process` has the same
    packet again when the frame has come in. -/
theorem frame_codec {packet : Packet} (hp : packet.WF) :
    let m := marshal packet Packet.fields Packet.size true
    let unencodedBuffer := (Buffer.zero Packet.size).memcpy 0 m.2
    let result := cobsEncode (Buffer.zero (Packet.size + 1)).bytes (unencodedBuffer.bytes.take m.1)
    let frame := encodePacket packet
    (m.1 ≠ sizeMax ∧ m.1 = m.2.length ∧ m.1 ≤ Packet.size) ∧
      (result.outBufferOverflow = false ∧ result.outLen < Packet.size + 1 ∧
        result.dst.length = Packet.size + 1 ∧ frame.length = result.outLen + 1) ∧
      (frame.count 0 = 1 ∧ frame.getLast? = some 0) ∧
      ∀ (st : Receiver) (stack : ℕ → UInt8), StagingInv st → st.pRxBuffer = 0 →
        (frame.length : ℤ) ≤ st.rxBufferRemaining →
        ∃ (decoded : CobsDecodeResult) (packet' : Packet),
          (st.process stack frame).1.2 = .strncpy 0 frame.length :: .strlen (frame.length - 1) ::
            .cobsDecode (frame.length - 1) decoded :: (st.storePacket packet').1.2 ∧
          decoded.dst.take decoded.outLen = m.2 ∧
          packet'.data.bytes = packet.data.bytes ∧ packet'.data.size = packet.data.size ∧
          packet'.sequenceNumber = packet.sequenceNumber ∧ packet'.crc = packet.crc ∧
          packet'.flag = packet.flag := by
  intro m unencodedBuffer result frame
  have hm : m = ((delimit packet.wire).length, delimit packet.wire) := marshal_packet hp
  obtain ⟨hl, hlt⟩ := hp.length_stuff
  obtain ⟨rest, henc, hdst⟩ := cobsEncode_packet hp
  have hresult : result = _ := henc
  have hframe : frame = packet.frame := encodePacket_eq hp
  have hflen : frame.length = (Stuffing.stuff (delimit packet.wire)).length + 1 := by
    rw [hframe, Packet.frame, List.length_append, List.length_singleton]
  have hsize : Packet.size = 32 := rfl
  refine ⟨⟨?_, by rw [hm], by rw [hm]; dsimp only; omega⟩, ⟨by rw [hresult], ?_, ?_, ?_⟩, ?_, ?_⟩
  · rw [hm, sizeMax]; dsimp only; omega
  · rw [hresult]; dsimp only; omega
  · rw [hresult]; exact hdst
  · rw [hresult]; exact hflen
  · rw [hframe]; exact count_zero_frame packet
  · intro st stack hinv hptr hroom
    rw [hframe] at hroom ⊢
    obtain ⟨decoded, -, hdec, hev⟩ := process_frame hp hinv hptr hroom stack
    exact ⟨decoded, packet, hev, by rw [hm, hdec], rfl, rfl, rfl, rfl, rfl⟩

/-- A packet with zeros in its data and a number of two bytes. -/
theorem frame_codec_zeros :
    let packet : Packet := ⟨.ofList [0, 255, 0], 200, 0, PacketFlag.cont.code⟩
    (encodePacket packet).count 0 = 1 ∧
      ∃ decoded packet',
        ((Receiver.init none .empty).process (fun _ => 7) (encodePacket packet)).1.2 =
          .strncpy 0 (encodePacket packet).length :: .strlen ((encodePacket packet).length - 1) ::
            .cobsDecode ((encodePacket packet).length - 1) decoded ::
              ((Receiver.init none .empty).storePacket packet').1.2 ∧
        packet'.data.bytes = [0, 255, 0] := by
  intro packet
  have hp : packet.WF := ⟨.cont, rfl⟩
  obtain ⟨-, -, hzero, hreceive⟩ := frame_codec hp
  obtain ⟨decoded, packet', hev, -, hbytes, -⟩ := hreceive (.init none .empty) (fun _ => 7)
    (stagingInv_init none .empty) rfl (by decide +kernel)
  exact ⟨hzero.1, decoded, packet', hev, hbytes⟩

end PacketSerial

/-
  How much space the receiver needs to receive anything at all.

  Frames that are not parsed take their bytes from `rx_buffer_remaining` for good
  (`run_starves`).

  * `packetOf_length`, `parsedPacket_length`: a packet has nine bytes at the least, so that
    as many must be staged;
  * `starved_step`, `run_starved`: with no more space than that left, no call decodes a
    packet, and none gives space back;
  * `receives_iff`: between frames, the receiver can still receive a packet if and only if
    ten bytes are left.
-/
import PacketSerial.Recovery
import PacketSerial.History
import PacketSerial.Nanopb.Required

namespace PacketSerial

open Receiver

/-! ## The shortest packets -/

theorem Packet.fields_consume : ∀ f ∈ Packet.fields, f.Consumes := by
  simp only [Packet.fields, List.mem_cons, List.not_mem_nil, or_false, forall_eq_or_imp, forall_eq]
  exact ⟨(bytesLtype_consumes 16).required _ _, uint8Ltype_consumes.required _ _,
    uint8Ltype_consumes.required _ _, uint32Ltype_consumes.required _ _⟩

/-- Four required fields. -/
theorem pbDecode_packet_length {stream : PbIstream} {packet : Packet}
    (h : pbDecode Packet.fields stream Packet.initZero = some packet) : 8 ≤ stream.length := by
  have hfields := pbDecodeNoinit_length Packet.fields_wf.count Packet.fields_consume h
  have hfour : reqFieldCount Packet.fields = 4 := by decide
  rw [hfour] at hfields
  omega

/-- Four required fields, and the length in front. -/
theorem packetOf_length {stream : PbIstream} {packet : Packet} (h : packetOf stream = some packet) :
    9 ≤ stream.length := by
  obtain ⟨substream, hsub, hdec⟩ := Option.bind_eq_some_iff.1 h
  have hfields := pbDecode_packet_length hdec
  rw [pbMakeStringSubstream] at hsub
  rcases hv : pbDecodeVarint32 stream with ⟨_ | size, rest⟩ <;> rw [hv] at hsub
  · cases hsub
  · have hlt := pbDecodeVarint32_length hv
    dsimp only at hsub
    rw [pbRead] at hsub
    split_ifs at hsub with hsize
    cases hsub
    rw [List.length_take] at hfields
    omega

namespace Receiver

/-- So many bytes are staged where a packet is parsed. -/
theorem parsedPacket_length {st : Receiver} {stack : ℕ → UInt8} {packet : Packet}
    (h : st.parsedPacket stack = some packet) : 9 ≤ st.staged.length := by
  rw [parsedPacket_eq] at h
  have hlen := packetOf_length h
  have hd := st.length_decoded_le
  rw [List.length_append, List.length_singleton] at hlen
  omega

/-- The staged message ends before the zero that the call brings. -/
theorem length_staged_stage {st : Receiver} {buffer : List UInt8} (hz : 0 ∈ buffer)
    (hroom : st.pRxBuffer + buffer.length ≤ rxBufferSize) :
    (st.stage buffer).staged.length < st.pRxBuffer + buffer.length := by
  have htake := st.rxBuffer.take_memcpy st.pRxBuffer (strncpyBytes buffer buffer.length)
    (by simpa using hroom)
  rw [strncpyBytes_length] at htake
  refine (Buffer.strlen_lt (k := st.pRxBuffer + buffer.length) ?_).1
  rw [stage, Buffer.strncpy, htake]
  exact List.mem_append_right _ (zero_mem_strncpyBytes hz)

end Receiver

/-! ## Too little space -/

/-- No more than nine bytes fit into the staging buffer, those staged included. -/
structure Starved (st : Receiver) : Prop where
  inv : StagingInv st
  room : st.pRxBuffer + st.rxBufferRemaining ≤ 9

section
variable {st : Receiver}

theorem Starved.not_decodes (h : Starved st) (c : ProcessCall) (packet : Packet) :
    ¬ st.Decodes c packet := by
  intro hd
  have hrem := remainingSize_eq h.inv
  have hlen := hd.room
  have hroom := h.room
  have hbound := h.inv.room
  have hstaged := parsedPacket_length hd.parsed
  have hlt := @length_staged_stage st c.buffer (List.mem_of_getLast? hd.delimiter) (by omega)
  omega

/-- A message that is not parsed: `process` returns false. -/
theorem step_unparsed {c : ProcessCall} (hlast : c.buffer.getLast? = some 0)
    (hnot : ∀ packet, ¬ st.Decodes c packet) : (st.step c).1.1 = false := by
  rw [step, process]
  split_ifs with hover
  · rfl
  · have hnone : (st.stage c.buffer).parsedPacket c.stack = none := by
      by_contra hne
      obtain ⟨packet, hp⟩ := Option.ne_none_iff_exists'.1 hne
      exact hnot packet ⟨not_lt.1 hover, hlast, hp⟩
    have hparse := parseStaged_eq (st.stage c.buffer) c.stack
    rw [hnone] at hparse
    exact congrArg (·.1.1) hparse

/-- **One call with too little space**: it decodes nothing, and leaves too little space. -/
theorem Starved.step (h : Starved st) (c : ProcessCall) :
    Starved (st.step c).2 ∧ storeEvents [(st.step c).1] = [] ∧
      (st.step c).2.toPacketStore = st.toPacketStore := by
  have hroom := h.room
  refine ⟨⟨(step_inv h.inv c).1, ?_⟩, step_not_decodes (h.not_decodes c)⟩
  rcases step_cases h.inv c with ⟨-, hstep⟩ | ⟨-, -, hstep⟩ | ⟨hlen, hlast, hptr, hrem⟩
  · rw [hstep]
    exact hroom
  · rw [hstep]
    simp only [stage]
    push_cast
    omega
  · rw [step_unparsed hlast (h.not_decodes c), if_neg Bool.false_ne_true] at hrem
    omega

/-- **Too little space stays too little**: whatever comes in, no packet is decoded any more. -/
theorem run_starved : ∀ {cs : List ProcessCall} {st : Receiver}, Starved st →
    Starved (Machine.run Receiver.step st cs).2 ∧
      storeEvents (Machine.run Receiver.step st cs).1 = [] ∧
      (Machine.run Receiver.step st cs).2.toPacketStore = st.toPacketStore
  | [], _, h => ⟨h, rfl, rfl⟩
  | c :: cs, st, h => by
    obtain ⟨hnext, hev, hstore⟩ := h.step c
    obtain ⟨hlast, hevs, hstores⟩ := @run_starved cs _ hnext
    rw [Machine.run_cons]
    refine ⟨hlast, ?_, hstores.trans hstore⟩
    rw [← List.singleton_append, storeEvents_append, hev, hevs]
    rfl

end

/-! ## Just enough space -/

/-- Ten bytes that bring a packet without data, whose flag is read from the byte that
    `decoded_data_array` has left. -/
def shortestFrame : ProcessCall :=
  ⟨[3, 8, 10, 6, 16, 1, 24, 1, 32, 0], List.cons_ne_nil _ _, fun _ => 1⟩

/-- Any state between frames with space for them takes these ten bytes as a packet. -/
theorem decodes_shortestFrame {st : Receiver} (h : StagingInv st) (hptr : st.pRxBuffer = 0)
    (hrem : 10 ≤ st.rxBufferRemaining) : ∃ packet, st.Decodes shortestFrame packet := by
  have hsize := remainingSize_eq h
  have hlen : shortestFrame.buffer.length = 10 := rfl
  have hstaged : (st.stage shortestFrame.buffer).staged = [3, 8, 10, 6, 16, 1, 24, 1, 32] :=
    (step_finish (b := [3, 8, 10, 6, 16, 1, 24, 1, 32]) (c := shortestFrame) h (.nil hptr)
      (by decide) (by decide) rfl (by simp; omega)).1
  have hparsed : (st.stage shortestFrame.buffer).parsedPacket shortestFrame.stack =
      some ⟨.empty, 1, 1, 1⟩ := by
    rw [parsedPacket_eq, decoded, hstaged]
    decide +kernel
  exact ⟨_, by omega, rfl, hparsed⟩

/-- **When the receiver can still receive.**  After any calls on any bytes, between frames, there
    are calls that bring a packet if and only if ten bytes are left in `rx_buffer`; with fewer,
    no call of any run decodes a packet or hands anything on. -/
theorem receives_iff (rxHandler : Option FnPtr) (registry : Registry) (cs : List ProcessCall) :
    let st := (Machine.run Receiver.step (.init rxHandler registry) cs).2
    st.pRxBuffer = 0 →
      (10 ≤ st.rxBufferRemaining ↔ ∃ cs', packetsDecoded st cs' ≠ []) ∧
      (st.rxBufferRemaining < 10 → ∀ cs',
        storeEvents (Machine.run Receiver.step st cs').1 = [] ∧
        (Machine.run Receiver.step st cs').2.rxBufferRemaining < 10) := by
  intro st hptr
  have hinv : StagingInv st := (staging_inBounds rxHandler registry cs).1
  have hstarved : st.rxBufferRemaining < 10 → Starved st := fun hlt => ⟨hinv, by omega⟩
  refine ⟨⟨fun hrem => ?_, fun ⟨cs', hcs⟩ => ?_⟩, fun hlt cs' => ?_⟩
  · obtain ⟨packet, hd⟩ := decodes_shortestFrame hinv hptr hrem
    refine ⟨[shortestFrame], ?_⟩
    obtain ⟨-, hev, -⟩ := step_decodes hd
    have hone := packetsDecoded_concat st [] shortestFrame
    rw [List.nil_append] at hone
    rw [hone]
    show packetsDecoded st [] ++ packetsOf (storeEvents [(st.step shortestFrame).1]) ≠ []
    rw [hev, packetsOf_storePacket]
    simp
  · by_contra hlt
    obtain ⟨-, hev, -⟩ := @run_starved cs' _ (hstarved (by omega))
    refine hcs ?_
    rw [packetsDecoded, ← packetsOf_storeEvents, hev]
    rfl
  · obtain ⟨hst, hev, -⟩ := @run_starved cs' _ (hstarved hlt)
    have hroom := hst.room
    exact ⟨hev, by omega⟩

/-- Twenty-three empty frames leave ten bytes. -/
theorem receives_iff_emptyFrames :
    let st := (Machine.run Receiver.step (.init (some 5) .empty)
      (ProcessCall.byteAtATime (List.replicate 23 0))).2
    ∃ cs', packetsDecoded st cs' ≠ [] :=
  (receives_iff (some 5) .empty (ProcessCall.byteAtATime (List.replicate 23 0))
    (by decide +kernel)).1.1 (by decide +kernel)

end PacketSerial

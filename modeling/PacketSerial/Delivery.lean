/-
  From frames to messages: what `process` makes of a sequence of frames.

  * `run_frames`: fed frame by frame, in whatever chunks, the receiver runs like the
    machine that stores one packet at a time (`PacketStore.storePacket`), as long as
    every packet is accepted;
  * `HeldBy`, `storePacket_holds`: the packet buffer is the list of bytes that the
    assembler of `Reassembly` holds, followed by zeros;
  * `receiver_refines_reassembly`: with an `rx_handler`, the receiver delivers what the
    assembler delivers;
  * `copies_inBounds_iff`: the packet buffer overflows just when a run of packets
    carries more than it has room for.
-/
import PacketSerial.Lib.Reassembly
import PacketSerial.Frame

namespace PacketSerial

open Receiver

/-! ## Frames and packets -/

/-- The staging variables are those of the start. -/
structure StagingInitial (st : Receiver) : Prop where
  buffer : st.rxBuffer = .zero rxBufferSize
  pointer : st.pRxBuffer = 0
  remaining : st.rxBufferRemaining = rxBufferSize

theorem StagingInitial.inv {st : Receiver} (h : StagingInitial st) : StagingInv st :=
  ⟨by rw [h.remaining]; decide, by rw [h.remaining, h.pointer]; decide⟩

theorem stagingInitial_init (rxHandler : Option FnPtr) (registry : Registry) :
    StagingInitial (.init rxHandler registry) := ⟨rfl, rfl, rfl⟩

/-- The chunks `cs` are a division of the frame of `packet`. -/
def Divides (cs : List ProcessCall) (packet : Packet) : Prop :=
  packet.WF ∧ cs.flatMap (·.buffer) = packet.frame

/-- The packet is accepted: unless it ends a message that nobody takes. -/
def Accepts (st : PacketStore) (packet : Packet) : Prop := (st.storePacket packet).1.1 = true

/-- One frame, from the initial staging state. -/
theorem feed_frame_initial {st : Receiver} (h : StagingInitial st) {cs : List ProcessCall}
    {packet : Packet} (hd : Divides cs packet) :
    FrameFed st packet packet.frame.length cs.length (Machine.run step st cs).1
      (Machine.run step st cs).2 := by
  have hl := Packet.length_frame_le hd.1
  refine feed_frame hd.1 h.inv h.pointer ?_ hd.2
  rw [h.remaining, rxBufferSize, Packet.size]; omega

theorem FrameFed.initial {st st' : Receiver} {packet : Packet} {n chunks : ℕ}
    {outs : List (Bool × List Event)} (h : FrameFed st packet n chunks outs st')
    (ha : Accepts st.toPacketStore packet) : StagingInitial st' :=
  ⟨h.buffer ha, h.pointer, h.remaining.trans (if_pos ha)⟩

theorem FrameFed.returns_true {st st' : Receiver} {packet : Packet} {n chunks : ℕ}
    {outs : List (Bool × List Event)} (h : FrameFed st packet n chunks outs st')
    (ha : Accepts st.toPacketStore packet) : ∀ o ∈ outs, o.1 = true :=
  List.all_eq_true.1 (h.all_returns.trans ha)

/-- **Fed frame by frame, the receiver stores packet by packet.** -/
theorem run_frames {css : List (List ProcessCall)} {ps : List Packet}
    (hd : List.Forall₂ Divides css ps) {st : Receiver} (h : StagingInitial st)
    (ha : Machine.Along PacketStore.storePacket Accepts st.toPacketStore ps) :
    List.Forall₂ (fun outs o => (∀ x ∈ outs, x.1 = true) ∧ storeEvents outs = o.2)
        (Machine.run (Machine.run step) st css).1
        (Machine.run PacketStore.storePacket st.toPacketStore ps).1 ∧
      StagingInitial (Machine.run (Machine.run step) st css).2 ∧
      (Machine.run (Machine.run step) st css).2.toPacketStore =
        (Machine.run PacketStore.storePacket st.toPacketStore ps).2 := by
  have hstep : ∀ (st : Receiver) (s : PacketStore) cs packet,
      (StagingInitial st ∧ st.toPacketStore = s) → Divides cs packet → Accepts s packet →
      ((∀ x ∈ (Machine.run step st cs).1, x.1 = true) ∧
        storeEvents (Machine.run step st cs).1 = (s.storePacket packet).1.2) ∧
      (StagingInitial (Machine.run step st cs).2 ∧
        (Machine.run step st cs).2.toPacketStore = (s.storePacket packet).2) := by
    rintro st s cs packet ⟨hst, rfl⟩ hd ha
    have hf := feed_frame_initial hst hd
    exact ⟨⟨hf.returns_true ha, hf.events⟩, hf.initial ha, hf.store⟩
  exact Machine.run_simulates (R := fun st s => StagingInitial st ∧ st.toPacketStore = s)
    (O := fun outs o => (∀ x ∈ outs, x.1 = true) ∧ storeEvents outs = o.2) hstep hd ⟨h, rfl⟩ ha

/-! ## Packets and messages -/

/-- The bytes `data`, and zeros up to the size of `packet_buffer`. -/
def padded (data : List UInt8) : List UInt8 :=
  data ++ List.replicate (packetBufferSize - data.length) 0

/-- `packet_buffer` holds the bytes `held`, and zeros after them. -/
structure HeldBy (st : PacketStore) (held : List UInt8) : Prop where
  offset : st.packetBufferOffset = held.length
  bytes : st.packetBuffer.bytes = padded held

theorem heldBy_init (rxHandler : Option FnPtr) (registry : Registry) :
    HeldBy (Receiver.init rxHandler registry).toPacketStore [] := ⟨rfl, rfl⟩

/-- The data of a packet. -/
def Packet.bytes (packet : Packet) : List UInt8 := packet.data.bytes

/-- The assembler that the packet buffer implements. -/
def assemble : List UInt8 → Packet → Option (List UInt8) × List UInt8 :=
  Reassembly.step Packet.isLast Packet.bytes

theorem append_holds {st : PacketStore} {held : List UInt8} (h : HeldBy st held) {packet : Packet}
    (hroom : (held ++ packet.bytes).length ≤ packetBufferSize) :
    HeldBy (st.append packet) (held ++ packet.bytes) := by
  have hl : held.length + packet.bytes.length ≤ packetBufferSize := by
    rwa [List.length_append] at hroom
  refine ⟨by simp [PacketStore.append, h.offset, BytesArray.size, Packet.bytes], ?_⟩
  have hb := st.packetBuffer.bytes_memcpy st.packetBufferOffset packet.bytes
    (by rw [h.offset]; omega)
  refine hb.trans ?_
  rw [h.bytes, h.offset, padded, padded, List.take_left, List.drop_append,
    List.drop_of_length_le (by omega), List.drop_replicate, List.nil_append]
  simp only [List.length_append]
  congr 2
  omega

theorem reset_holds (st : PacketStore) : HeldBy st.resetPacketBuffer [] := ⟨rfl, rfl⟩

/-- **The store holds what the assembler holds.** -/
theorem storePacket_holds {st : PacketStore} {held : List UInt8} (h : HeldBy st held)
    {packet : Packet} (hroom : (held ++ packet.bytes).length ≤ packetBufferSize) :
    HeldBy (st.storePacket packet).2 (assemble held packet).2 := by
  rw [assemble, Reassembly.step]
  rcases storePacket_cases st packet with ⟨hl, hs⟩ | ⟨hl, handler, -, hs⟩ | ⟨hl, -, r, hs⟩ <;>
    rw [hs, hl]
  · exact append_holds h hroom
  · exact reset_holds _
  · exact reset_holds _

theorem storePacket_rxHandler (st : PacketStore) (packet : Packet) :
    (st.storePacket packet).2.rxHandler = st.rxHandler := by
  rcases storePacket_cases st packet with ⟨-, h⟩ | ⟨-, handler, -, h⟩ | ⟨-, -, r, h⟩
  all_goals rw [h]; rfl

/-- The calls of `rx_handler` among some events. -/
def rxHandlerCalls (events : List Event) : List (FnPtr × List UInt8) :=
  events.filterMap fun
    | .rxHandler handler buffer => some (handler, buffer.bytes)
    | _ => none

theorem rxHandlerCalls_storePacket {st : PacketStore} {handler : FnPtr}
    (h : st.rxHandler = some handler) (packet : Packet) :
    Accepts st packet ∧ rxHandlerCalls (st.storePacket packet).1.2 =
      if packet.isLast then [(handler, (st.append packet).packetBuffer.bytes)] else [] := by
  rw [Accepts]
  cases hl : packet.isLast with
  | false => rw [storePacket_notLast st hl]; exact ⟨rfl, rfl⟩
  | true => rw [storePacket_rx hl h]; exact ⟨rfl, rfl⟩

/-- A store with an `rx_handler` accepts every packet. -/
theorem along_accepts {handler : FnPtr} (ps : List Packet) : ∀ {st : PacketStore},
    st.rxHandler = some handler → Machine.Along PacketStore.storePacket Accepts st ps := by
  induction ps with
  | nil => intro st _; trivial
  | cons packet ps ih =>
    intro st h
    exact ⟨(rxHandlerCalls_storePacket h packet).1, ih (by rw [storePacket_rxHandler, h])⟩

/-- **With an `rx_handler`, the store delivers what the assembler delivers.** -/
theorem run_storePacket {handler : FnPtr} {ps : List Packet}
    (hfits : Reassembly.Fits Packet.isLast Packet.bytes packetBufferSize ps) {st : PacketStore}
    (hh : st.rxHandler = some handler) (h : HeldBy st []) :
    List.Forall₂ (fun (o : Bool × List Event) d =>
        rxHandlerCalls o.2 = d.toList.map fun data => (handler, padded data))
      (Machine.run PacketStore.storePacket st ps).1 (Machine.run assemble [] ps).1 := by
  have hstep : ∀ (st : PacketStore) held packet (packet' : Packet),
      (HeldBy st held ∧ st.rxHandler = some handler) → packet = packet' →
      (held ++ packet'.bytes).length ≤ packetBufferSize →
      (rxHandlerCalls (st.storePacket packet).1.2 =
        (assemble held packet').1.toList.map fun data => (handler, padded data)) ∧
      (HeldBy (st.storePacket packet).2 (assemble held packet').2 ∧
        (st.storePacket packet).2.rxHandler = some handler) := by
    rintro st held packet _ ⟨hst, hh⟩ rfl hroom
    refine ⟨?_, storePacket_holds hst hroom, by rw [storePacket_rxHandler, hh]⟩
    rw [(rxHandlerCalls_storePacket hh packet).2, (append_holds hst hroom).bytes, assemble,
      Reassembly.step]
    split_ifs <;> rfl
  have hsame : List.Forall₂ Eq ps ps := List.forall₂_refl ps
  exact (Machine.run_simulates (R := fun st held => HeldBy st held ∧ st.rxHandler = some handler)
    (O := fun (o : Bool × List Event) d => rxHandlerCalls o.2 =
      d.toList.map fun data => (handler, padded data))
    hstep hsame ⟨h, hh⟩ ((Reassembly.fits_iff_along _ _ ps).1 hfits)).1

theorem rxHandlerCalls_storeEvents (outs : List (Bool × List Event)) :
    rxHandlerCalls (storeEvents outs) = rxHandlerCalls (outs.flatMap (·.2)) :=
  filterMap_storeEvents (fun e he => by cases e <;> first | rfl | cases he) outs

/-- The chunks `cs` are a division of what `send` hands over for `packet`. -/
def Framed (cs : List ProcessCall) (packet : Packet) : Prop :=
  cs.flatMap (·.buffer) = encodePacket packet

theorem divides_of_framed {css : List (List ProcessCall)} {ps : List Packet}
    (h : List.Forall₂ Framed css ps) (hps : ∀ packet ∈ ps, packet.WF) :
    List.Forall₂ Divides css ps := by
  induction h with
  | nil => exact .nil
  | @cons cs packet css ps hf _ ih =>
    have hp := hps packet List.mem_cons_self
    exact .cons ⟨hp, Eq.trans hf (encodePacket_eq hp)⟩
      (ih fun q hq => hps q (List.mem_cons_of_mem _ hq))

/-- **The receiver refines the assembler.**  Fed with the frames of well-formed packets
    whose runs fit into the packet buffer, in any chunks, it accepts every call, calls
    `rx_handler` with the data of each run at the end of the run and at no other time,
    and ends every frame with its staging variables as at the start.  The check bytes
    and sequence numbers of the packets may be anything. -/
theorem receiver_refines_reassembly (handler : FnPtr) (registry : Registry) {ps : List Packet}
    {css : List (List ProcessCall)} (hps : ∀ packet ∈ ps, packet.WF)
    (hfits : Reassembly.Fits Packet.isLast Packet.bytes packetBufferSize ps)
    (hcss : List.Forall₂ Framed css ps) :
    (∀ outs ∈ (Machine.run (Machine.run step) (.init (some handler) registry) css).1,
      ∀ o ∈ outs, o.1 = true) ∧
    List.Forall₂
      (fun (outs : List (Bool × List Event)) d => rxHandlerCalls (outs.flatMap (·.2)) =
        d.toList.map fun data => (handler, padded data))
      (Machine.run (Machine.run step) (.init (some handler) registry) css).1
      (Machine.run (Reassembly.step Packet.isLast Packet.bytes) [] ps).1 ∧
    ∀ n, StagingInitial
      (Machine.run (Machine.run step) (.init (some handler) registry) (css.take n)).2 := by
  have hd := divides_of_framed hcss hps
  have hinit := stagingInitial_init (some handler) registry
  have hacc : ∀ ps, Machine.Along PacketStore.storePacket Accepts
      (Receiver.init (some handler) registry).toPacketStore ps := fun ps => along_accepts ps rfl
  obtain ⟨houts, -, -⟩ := run_frames hd hinit (hacc ps)
  have hdel := run_storePacket hfits (rfl : (init (some handler) registry).rxHandler = _)
    (heldBy_init _ _)
  refine ⟨?_, ?_, fun n => ?_⟩
  · exact Machine.forall₂_left (fun outs o h => h.1) houts
  · refine Machine.forall₂_trans (fun outs o d h hcalls => ?_) houts hdel
    rw [← rxHandlerCalls_storeEvents, h.2, hcalls]
  · exact (run_frames (List.forall₂_take n hd) hinit (hacc _)).2.1

/-- A message of three bytes, in two packets. -/
def twoPackets : List Packet := [buildPacket [1, 0] 2 0 .first, buildPacket [3] 1 1 .last]

theorem receiver_refines_reassembly_twoPackets :
    List.Forall₂
      (fun (outs : List (Bool × List Event)) d => rxHandlerCalls (outs.flatMap (·.2)) =
        d.toList.map fun data => (5, padded data))
      (Machine.run (Machine.run step) (.init (some 5) .empty)
        (twoPackets.map fun p => ProcessCall.byteAtATime (encodePacket p))).1
      [none, some [1, 0, 3]] := by
  have hfits : Reassembly.Fits Packet.isLast Packet.bytes packetBufferSize twoPackets :=
    (Reassembly.fits_iff_along _ _ _).2 ⟨by decide, by decide, trivial⟩
  have hps : ∀ packet ∈ twoPackets, packet.WF := by
    simp [twoPackets, buildPacket_wf]
  have hcss : List.Forall₂ Framed (twoPackets.map fun p => ProcessCall.byteAtATime (encodePacket p))
      twoPackets := by
    simp [twoPackets, Framed]
  exact (receiver_refines_reassembly 5 .empty hps hfits hcss).2.1

/-! ## Bounds of the packet buffer -/

/-- The copy stays inside `packet_buffer`. -/
def Event.CopyInBounds : Event → Prop
  | .memcpy offset size => offset + size ≤ packetBufferSize
  | _ => True

instance : DecidablePred Event.CopyInBounds
  | .memcpy offset size => inferInstanceAs (Decidable (offset + size ≤ packetBufferSize))
  | .strncpy .. | .strlen .. | .cobsDecode .. | .packet .. | .rxHandler .. | .unmarshal ..
  | .call .. => .isTrue trivial

/-- A run in which every call returns true has accepted every packet. -/
theorem along_of_returns {css : List (List ProcessCall)} {ps : List Packet}
    (hd : List.Forall₂ Divides css ps) : ∀ {st : Receiver}, StagingInitial st →
    (∀ outs ∈ (Machine.run (Machine.run step) st css).1, ∀ o ∈ outs, o.1 = true) →
    Machine.Along PacketStore.storePacket Accepts st.toPacketStore ps := by
  induction hd with
  | nil => intro st _ _; trivial
  | @cons cs packet css ps hd _ ih =>
    intro st hst hret
    rw [Machine.run_cons] at hret
    have hf := feed_frame_initial hst hd
    have ha : Accepts st.toPacketStore packet := by
      have hmem : (st.storePacket packet).1.1 ∈
          ((Machine.run step st cs).1.map (·.1)) := by rw [hf.returns]; simp
      obtain ⟨o, ho, he⟩ := List.mem_map.1 hmem
      exact he.symm.trans (hret _ List.mem_cons_self o ho)
    refine ⟨ha, ?_⟩
    rw [← hf.store]
    exact ih (hf.initial ha) fun outs hm => hret outs (List.mem_cons_of_mem _ hm)

theorem storePacket_offset {st : PacketStore} {held : List UInt8}
    (h : st.packetBufferOffset = held.length) (packet : Packet) :
    (st.storePacket packet).2.packetBufferOffset = (assemble held packet).2.length := by
  rw [assemble, Reassembly.step]
  rcases storePacket_cases st packet with ⟨hl, hs⟩ | ⟨hl, handler, -, hs⟩ | ⟨hl, -, r, hs⟩ <;>
    rw [hs, hl]
  · simp [PacketStore.append, h, Packet.bytes, BytesArray.size]
  · rfl
  · rfl

theorem storePacket_copyInBounds {st : PacketStore} {held : List UInt8}
    (h : st.packetBufferOffset = held.length) (packet : Packet) :
    (∀ e ∈ (st.storePacket packet).1.2, e.CopyInBounds) ↔
      (held ++ packet.bytes).length ≤ packetBufferSize := by
  rw [List.length_append, ← h]
  rcases storePacket_cases st packet with ⟨-, hs⟩ | ⟨-, handler, -, hs⟩ | ⟨-, -, r, hs⟩ <;>
    rw [hs] <;> simp [Event.CopyInBounds, Packet.bytes, BytesArray.size]

theorem run_copyInBounds (ps : List Packet) : ∀ {st : PacketStore} {held : List UInt8},
    st.packetBufferOffset = held.length →
    ((∀ o ∈ (Machine.run PacketStore.storePacket st ps).1, ∀ e ∈ o.2, e.CopyInBounds) ↔
      Machine.Along assemble (fun held packet => (held ++ packet.bytes).length ≤ packetBufferSize)
        held ps) := by
  induction ps with
  | nil => intro st held _; simp [Machine.Along]
  | cons packet ps ih =>
    intro st held h
    rw [Machine.run_cons, Machine.Along, ← storePacket_copyInBounds h packet,
      ← ih (storePacket_offset h packet)]
    simp only [List.mem_cons, forall_eq_or_imp]

theorem copyInBounds_storeEvents (outs : List (Bool × List Event)) :
    (∀ o ∈ outs, ∀ e ∈ o.2, e.CopyInBounds) ↔ ∀ e ∈ storeEvents outs, e.CopyInBounds := by
  simp only [storeEvents, List.mem_filter, List.mem_flatMap]
  constructor
  · rintro h e ⟨⟨o, ho, he⟩, -⟩
    exact h o ho e he
  · intro h o ho e he
    cases e with
    | memcpy offset size => exact h _ ⟨⟨o, ho, he⟩, rfl⟩
    | _ => trivial

/-- **Where the reassembly buffer overflows.**  For frames that are all accepted, every
    copy stays inside the packet buffer if and only if no run of packets up to a last
    one, or up to the end, carries more bytes than the buffer has. -/
theorem copies_inBounds_iff (rxHandler : Option FnPtr) (registry : Registry) {ps : List Packet}
    {css : List (List ProcessCall)} (hd : List.Forall₂ Divides css ps)
    (hret : ∀ outs ∈ (Machine.run (Machine.run step) (.init rxHandler registry) css).1,
      ∀ o ∈ outs, o.1 = true) :
    (∀ outs ∈ (Machine.run (Machine.run step) (.init rxHandler registry) css).1,
      ∀ o ∈ outs, ∀ e ∈ o.2, e.CopyInBounds) ↔
    Reassembly.Fits Packet.isLast Packet.bytes packetBufferSize ps := by
  have hinit := stagingInitial_init rxHandler registry
  obtain ⟨houts, -, -⟩ := run_frames hd hinit (along_of_returns hd hinit hret)
  rw [Reassembly.fits_iff_along]
  refine Iff.trans (Machine.forall₂_forall (fun outs o h => ?_) houts) (run_copyInBounds ps rfl)
  rw [copyInBounds_storeEvents, h.2]

/-- Packets of a long message, none of them its last. -/
def longMessage : List Packet :=
  List.replicate 19 (buildPacket (List.replicate 16 7) 16 0 .cont)

theorem copies_inBounds_iff_twoPackets :
    (∀ outs ∈ (Machine.run (Machine.run step) (.init (some 5) .empty)
        (twoPackets.map fun p => ProcessCall.whole p.frame)).1,
      ∀ o ∈ outs, ∀ e ∈ o.2, e.CopyInBounds) ↔
    Reassembly.Fits Packet.isLast Packet.bytes packetBufferSize twoPackets :=
  copies_inBounds_iff (some 5) .empty
    (by simp [twoPackets, Divides, buildPacket_wf]) (by decide +kernel)

/-- The nineteenth packet of sixteen bytes is accepted, and copied past the end. -/
theorem longMessage_overflows :
    (∀ outs ∈ (Machine.run (Machine.run step) (.init (some 5) .empty)
        (longMessage.map fun p => ProcessCall.whole p.frame)).1, ∀ o ∈ outs, o.1 = true) ∧
    ∃ outs ∈ (Machine.run (Machine.run step) (.init (some 5) .empty)
        (longMessage.map fun p => ProcessCall.whole p.frame)).1,
      ∃ o ∈ outs, ∃ e ∈ o.2, ¬ e.CopyInBounds := by
  decide +kernel

end PacketSerial

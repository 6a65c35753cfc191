/-
  Messages that are received after a disturbance.

  * `step_completes`: a call that completes a message, and returns true, leaves the
    receiver as at the start; `completed_restarts`: so whatever the library was used for
    before, it then works as one that was just started, with the same handlers;
  * `run_frames_from`: frames that come in between frames, with space for the longest, are
    received as from the start;
  * `recovers`: so after a disturbance that leaves the receiver there, the next payload is
    handed on behind what was left of a message, and all that follow exactly.
-/
import PacketSerial.Clearing
import PacketSerial.Reading

namespace PacketSerial

open Receiver

/-! ## Completed messages -/

/-- The call completes a message, which is taken. -/
structure Receiver.Completes (st : Receiver) (c : ProcessCall) : Prop where
  last : ∃ packet, st.Decodes c packet ∧ packet.isLast = true
  returned : (st.step c).1.1 = true

theorem storePacket_last (st : PacketStore) {packet : Packet} (h : packet.isLast = true) :
    (st.storePacket packet).2 = (Receiver.init st.rxHandler st.registry).toPacketStore := by
  cases hh : st.rxHandler with
  | some handler =>
    rw [storePacket_rx h hh, ← hh]
    rfl
  | none =>
    rw [storePacket_union h hh, ← hh]
    rfl

/-- **A completed message leaves the receiver as at the start.** -/
theorem step_completes {st : Receiver} {c : ProcessCall} (h : st.Completes c) :
    (st.step c).2 = .init st.rxHandler st.registry := by
  obtain ⟨⟨packet, hd, hlast⟩, hret⟩ := h
  obtain ⟨hstored, -, hstore⟩ := step_decodes hd
  rw [storePacket_last _ hlast] at hstore
  have hparse := parseStaged_eq (st.stage c.buffer) c.stack
  rw [hd.parsed] at hparse
  have hacc : ((st.stage c.buffer).parseStaged c.stack).1.1 = true := by
    rw [hparse]
    exact hstored.symm.trans hret
  rw [Receiver.step, process, if_neg (not_lt.2 hd.room), if_pos hd.delimiter] at hstore ⊢
  dsimp only at hstore ⊢
  rw [receiveMessage_store] at hstore
  rw [receiveMessage]
  dsimp only
  rw [if_pos hacc, hstore]
  rfl

/-- The endpoint with its handlers and its world, and the rest as at the start. -/
def Endpoint.restarted {σ : Type} (st : Endpoint σ) : Endpoint σ :=
  { st with toReceiver := .init st.rxHandler st.registry }

/-- **After a completed message the library works as one that was just started**: from any state,
    and so after any calls, and for all that comes later. -/
theorem completed_restarts {σ : Type} (code : FnPtr → TxHandler σ) (st : Endpoint σ)
    (before after : List EndpointCall) (c : ProcessCall)
    (h : (Machine.run (Endpoint.call code) st before).2.toReceiver.Completes c) :
    let st' := (Machine.run (Endpoint.call code) st before).2
    Machine.run (Endpoint.call code) (st'.call code (.receiver (.process c))).2 after =
      Machine.run (Endpoint.call code) st'.restarted after := by
  intro st'
  have hrecv := step_completes h
  have hnext : (st'.call code (.receiver (.process c))).2 =
      { st' with toReceiver := (st'.toReceiver.step c).2 } := rfl
  rw [hnext, hrecv]
  rfl

theorem Packet.frame_ne_nil (p : Packet) : p.frame ≠ [] := by
  rw [Packet.frame]
  exact List.concat_ne_nil _ _

/-- The frame of a whole message, in one call. -/
def wholeMessage : ProcessCall := ⟨onePacket.frame, onePacket.frame_ne_nil, fun _ => 0⟩

/-- Some bytes that are no frame, and then a message. -/
theorem completed_restarts_wholeMessage :
    let after : List EndpointCall := [.receiver (.process wholeMessage), .clearHandlers]
    let before : List EndpointCall :=
      [.receiver (.registerRxHandler (some 5)),
        .receiver (.process ⟨[1, 0], List.cons_ne_nil _ _, fun _ => 0⟩)]
    let st := (Machine.run (Endpoint.call fun _ _ world => (true, world)) (.init ()) before).2
    Machine.run (Endpoint.call fun _ _ world => (true, world))
        (st.call (fun _ _ world => (true, world)) (.receiver (.process wholeMessage))).2 after =
      Machine.run (Endpoint.call fun _ _ world => (true, world)) st.restarted after := by
  intro after before st
  refine completed_restarts _ (.init ()) before after wholeMessage ⟨⟨onePacket, ?_, rfl⟩, ?_⟩
  · exact ⟨by decide +kernel, by decide +kernel, by decide +kernel⟩
  · decide +kernel

/-! ## Frames after a disturbance -/

/-- The receiver is between frames, and has space for the longest. -/
structure Ready (st : Receiver) : Prop where
  inv : StagingInv st
  pointer : st.pRxBuffer = 0
  space : 29 ≤ st.rxBufferRemaining

/-- Frames that are accepted bring the receiver back to the initial staging state. -/
theorem run_frames_from {css : List (List ProcessCall)} {packets : List Packet}
    (hd : List.Forall₂ Divides css packets) (hne : packets ≠ []) {st : Receiver} (h : Ready st)
    (ha : Machine.Along PacketStore.storePacket Accepts st.toPacketStore packets) :
    List.Forall₂ (fun outs o => (∀ x ∈ outs, x.1 = true) ∧ storeEvents outs = o.2)
        (Machine.run (Machine.run Receiver.step) st css).1
        (Machine.run PacketStore.storePacket st.toPacketStore packets).1 ∧
      StagingInitial (Machine.run (Machine.run Receiver.step) st css).2 ∧
      (Machine.run (Machine.run Receiver.step) st css).2.toPacketStore =
        (Machine.run PacketStore.storePacket st.toPacketStore packets).2 := by
  cases hd with
  | nil => exact absurd rfl hne
  | @cons cs packet css packets hd hds =>
    obtain ⟨hacc, haccs⟩ := ha
    have hl := Packet.length_frame_le hd.1
    have hspace := h.space
    have hf := feed_frame hd.1 h.inv h.pointer (by omega) hd.2
    obtain ⟨houts, hst, hstore⟩ := run_frames hds (hf.initial hacc) (by rw [hf.store]; exact haccs)
    rw [hf.store] at houts hstore
    rw [Machine.run_cons, Machine.run_cons]
    exact ⟨.cons ⟨hf.returns_true hacc, hf.events⟩ houts, hst, hstore⟩

/-- A stream of frames, in calls that stay within the frames. -/
theorem run_stream_from {packets : List Packet} (hps : ∀ packet ∈ packets, packet.WF)
    (hne : packets ≠ []) {cs : List ProcessCall}
    (hcs : cs.flatMap (·.buffer) = packets.flatMap encodePacket)
    (hw : ∀ c ∈ cs, Delimited.Within 0 c.buffer) {st : Receiver} (h : Ready st)
    (ha : Machine.Along PacketStore.storePacket Accepts st.toPacketStore packets) :
    let r := Machine.run Receiver.step st cs
    let t := Machine.run PacketStore.storePacket st.toPacketStore packets
    (∀ o ∈ r.1, o.1 = true) ∧ storeEvents r.1 = t.1.flatMap (·.2) ∧ StagingInitial r.2 ∧
      r.2.toPacketStore = t.2 := by
  obtain ⟨css, rfl, hd⟩ := exists_divides hps hcs hw
  obtain ⟨houts, hst, hstore⟩ := run_frames_from hd hne h ha
  obtain ⟨hrets, hevents⟩ := outs_of_frames houts
  rw [Machine.run_flatten]
  exact ⟨hrets, hevents, hst, hstore⟩

/-- `process` leaves the handlers as they are. -/
theorem run_handlers (st : Receiver) (cs : List ProcessCall) :
    (Machine.run Receiver.step st cs).2.rxHandler = st.rxHandler ∧
      (Machine.run Receiver.step st cs).2.registry = st.registry := by
  have hstep : ∀ (st' : Receiver) c, st'.rxHandler = st.rxHandler ∧ st'.registry = st.registry →
      (st'.step c).2.rxHandler = st.rxHandler ∧ (st'.step c).2.registry = st.registry := by
    rintro st' c ⟨hrx, hreg⟩
    rcases step_store_cases st' c with ⟨packet, -, hst⟩ | ⟨-, hst⟩ <;> rw [hst]
    · exact ⟨(storePacket_rxHandler _ _).trans hrx, (storePacket_registry _ _).trans hreg⟩
    · exact ⟨hrx, hreg⟩
  have hstart : st.rxHandler = st.rxHandler ∧ st.registry = st.registry := ⟨rfl, rfl⟩
  exact Machine.run_invariant hstep hstart

/-- What the packet buffer holds of a message after the calls `cs`. -/
def heldAfter (st : Receiver) (cs : List ProcessCall) : List UInt8 :=
  (Reassembly.openRun Packet.isLast (packetsDecoded st cs)).flatMap Packet.bytes

/-- Payloads that come in where the packet buffer holds something: it comes in front of the
    first. -/
theorem run_handed_from {rxHandler : Option FnPtr} {registry : Registry} {st : PacketStore}
    {held : List UInt8} (h : HeldBy st held) (hrx : st.rxHandler = rxHandler)
    (hreg : st.registry = registry) {p : Payload} {payloads : List Payload}
    (hlen : (held ++ p.sent).length ≤ packetBufferSize)
    (htaken : ∀ data ∈ (held ++ p.sent) :: payloads.map (·.sent), Takes rxHandler registry data) :
    let packets := ((p :: payloads).map (·.packets)).flatten
    let t := Machine.run PacketStore.storePacket st packets
    Machine.Along PacketStore.storePacket Accepts st packets ∧
      Handed rxHandler registry (t.1.flatMap (·.2)) ((held ++ p.sent) :: payloads.map (·.sent)) ∧
      HeldBy t.2 [] ∧ t.2.rxHandler = rxHandler ∧ t.2.registry = registry := by
  intro packets
  rw [List.forall_mem_cons] at htaken
  have hpackets : packets = p.packets ++ (payloads.map (·.packets)).flatten := rfl
  have hfirst := @Reassembly.run_message _ _ Packet.isLast Packet.bytes _ p.isMessage held
  have hrest := @Reassembly.run_messages _ _ Packet.isLast Packet.bytes _
    (isMessage_packets payloads)
  rw [p.packets_bytes] at hfirst
  have hmet : ∀ m ∈ payloads.map (·.packets),
      (m.flatMap Packet.bytes).length ≤ packetBufferSize ∧
        Takes rxHandler registry (m.flatMap Packet.bytes) := by
    intro m hm
    obtain ⟨q, hq, rfl⟩ := List.mem_map.1 hm
    rw [q.packets_bytes]
    exact ⟨q.length_sent, htaken.2 _ (List.mem_map_of_mem hq)⟩
  have halong : Machine.Along assemble (Reassembly.Met Packet.isLast Packet.bytes packetBufferSize
      (Takes rxHandler registry)) held packets := by
    rw [hpackets, Machine.along_append]
    refine ⟨?_, ?_⟩
    · obtain ⟨body, last, hm, hlast, hbody⟩ := p.isMessage.ends
      have hbytes := p.packets_bytes
      rw [hm] at hbytes ⊢
      exact Reassembly.along_message hlast hbody (by rw [hbytes]; exact hlen)
        (by rw [hbytes]; exact htaken.1)
    · rw [show (Machine.run assemble held p.packets).2 = [] from hfirst.2]
      exact Reassembly.along_messages (isMessage_packets payloads) hmet
  obtain ⟨hacc, hhanded, hheld, hrx', hreg'⟩ := run_handed h hrx hreg halong
  have hstate : (Machine.run assemble held packets).2 = [] := by
    rw [hpackets, Machine.run_append, show (Machine.run assemble held p.packets).2 = [] from
      hfirst.2]
    exact hrest.2
  rw [hpackets, Reassembly.delivered_append, hfirst.1, hfirst.2, delivered_packets] at hhanded
  rw [hstate] at hheld
  exact ⟨hacc, hhanded, hheld, hrx', hreg'⟩

/-- **Recovery.**  After any calls on any bytes that leave the receiver between frames with space
    for a frame, the next payloads are received, if they fit and are taken: what the packet
    buffer held of a message comes in front of the first, and of each what its packets carry is
    handed on; every call returns true, and in the end the receiver is as at the start. -/
theorem recovers {rxHandler : Option FnPtr} {registry : Registry} {cs : List ProcessCall}
    (hfits : Reassembly.Fits Packet.isLast Packet.bytes packetBufferSize
      (packetsDecoded (.init rxHandler registry) cs))
    (hready : Ready (Machine.run Receiver.step (.init rxHandler registry) cs).2)
    {p : Payload} {payloads : List Payload}
    (hlen : (heldAfter (.init rxHandler registry) cs ++ p.sent).length ≤ packetBufferSize)
    (htaken : ∀ data ∈ (heldAfter (.init rxHandler registry) cs ++ p.sent) ::
      payloads.map (·.sent), Takes rxHandler registry data) {cs' : List ProcessCall}
    (hcs : cs'.flatMap (·.buffer) = (p :: payloads).flatMap (·.frames))
    (hw : ∀ c ∈ cs', Delimited.Within 0 c.buffer) :
    let r := Machine.run Receiver.step
      (Machine.run Receiver.step (.init rxHandler registry) cs).2 cs'
    (∀ o ∈ r.1, o.1 = true) ∧
      Handed rxHandler registry (r.1.flatMap (·.2))
        ((heldAfter (.init rxHandler registry) cs ++ p.sent) :: payloads.map (·.sent)) ∧
      r.2 = .init rxHandler registry := by
  obtain ⟨hrx, hreg⟩ := run_handlers (.init rxHandler registry) cs
  obtain ⟨hacc, hhanded, hheld, hrx', hreg'⟩ :=
    run_handed_from (run_holds hfits) hrx hreg hlen htaken
  have hne : ((p :: payloads).map (·.packets)).flatten ≠ [] := by
    obtain ⟨body, last, hm, -⟩ := p.isMessage.ends
    rw [List.map_cons, List.flatten_cons, hm]
    simp
  obtain ⟨hret, hev, hst, hstore⟩ := run_stream_from (packets_wf (p :: payloads)) hne
    (hcs.trans (flatMap_frames _).symm) hw hready hacc
  rw [← hstore] at hheld hrx' hreg'
  refine ⟨hret, ?_, eq_init hst hheld hrx' hreg'⟩
  rw [← handed_storeEvents, hev]
  exact hhanded

/-- Two bytes that are no frame, and two payloads, a byte at a time. -/
theorem recovers_shortPayload :
    let noise := ProcessCall.byteAtATime [1, 0]
    let cs := ProcessCall.byteAtATime ([shortPayload, shortPayload].flatMap (·.frames))
    let r := Machine.run Receiver.step (Machine.run Receiver.step (.init (some 5) .empty) noise).2 cs
    (∀ o ∈ r.1, o.1 = true) ∧
      Handed (some 5) .empty (r.1.flatMap (·.2)) [[7, 0, 9], [7, 0, 9]] ∧
      r.2 = .init (some 5) .empty := by
  intro noise cs
  have hnone : packetsDecoded (.init (some 5) .empty) noise = [] := by decide +kernel
  have hheld : heldAfter (.init (some 5) .empty) noise = [] := by
    rw [heldAfter, hnone, Reassembly.openRun_nil]
    rfl
  have hfits : Reassembly.Fits Packet.isLast Packet.bytes packetBufferSize
      (packetsDecoded (.init (some 5) .empty) noise) := by
    rw [hnone]
    exact (Reassembly.fits_iff_along _ _ []).2 trivial
  have hready : Ready (Machine.run Receiver.step (.init (some 5) .empty) noise).2 :=
    ⟨(staging_inBounds _ _ _).1, by decide +kernel, by decide +kernel⟩
  have h := @recovers (some 5) .empty noise hfits hready shortPayload [shortPayload]
    (by rw [hheld]; exact shortPayload.length_sent) (fun _ _ hn => by cases hn) cs
    (ProcessCall.flatMap_byteAtATime _) (by decide +kernel)
  rw [hheld] at h
  exact h

end PacketSerial

/-
  A stream of payloads that is still being read.

  * `run_part`: of the bytes read so far, the receiver has stored the packets whose
    frames are complete, and staged the rest;
  * `Handed`: what the handlers are given for some messages; `run_handed`: the store gives
    it for the messages that the assembler delivers;
  * `Payload.packets`, `Payload.sent`: what `send` makes of a payload, and as much of it
    as the packets carry;
  * `receive_part`: whatever part of the stream has been read, in any chunks, the payloads
    that are complete were handed on, in order, and no other.
-/
import PacketSerial.EndToEnd

namespace PacketSerial

open Receiver

/-! ## Part of a frame -/

/-- Bytes without a zero are staged, and nothing else happens. -/
theorem run_stage : ∀ {cs : List ProcessCall} {st : Receiver} {a : List UInt8}, StagingInv st →
    Staged st a → 0 ∉ cs.flatMap (·.buffer) →
    ((cs.flatMap (·.buffer)).length : ℤ) ≤ st.rxBufferRemaining →
    (∀ o ∈ (Machine.run step st cs).1, o.1 = true) ∧ storeEvents (Machine.run step st cs).1 = [] ∧
      (Machine.run step st cs).2.toPacketStore = st.toPacketStore
  | [], _, _, _, _, _, _ => ⟨by simp, rfl, rfl⟩
  | c :: cs, st, a, h, hs, h0, hlen => by
    rw [List.flatMap_cons, List.mem_append, not_or] at h0
    rw [List.flatMap_cons, List.length_append] at hlen
    push_cast at hlen
    obtain ⟨hstep, hs'⟩ := step_stage h hs h0.1 (by omega)
    obtain ⟨hret, hev, hstore⟩ := run_stage (stage_inv h (by omega)) hs' h0.2
      (by simp only [stage]; omega)
    rw [Machine.run_cons, hstep]
    refine ⟨?_, ?_, hstore⟩
    · rw [List.forall_mem_cons]
      exact ⟨rfl, hret⟩
    · rw [storeEvents_cons, hev]
      rfl

/-- Less than a frame is less than the staging buffer. -/
theorem length_part {packets : List Packet} (hps : ∀ packet ∈ packets, packet.WF)
    {part rest : List UInt8} (h0 : 0 ∉ part) (h : part ++ rest = packets.flatMap encodePacket) :
    part.length ≤ 29 := by
  rcases packets with _ | ⟨packet, packets⟩
  · have hnil := (List.append_eq_nil_iff.1 h).1
    rw [hnil]; exact Nat.zero_le _
  · have hp := hps packet List.mem_cons_self
    have hl := Packet.length_frame_le hp
    rw [List.flatMap_cons, encodePacket_eq hp] at h
    rcases List.append_eq_append_iff.1 h with ⟨a, ha, -⟩ | ⟨a, ha, -⟩
    · rw [ha, List.length_append] at hl; omega
    · exact absurd (ha ▸ List.mem_append_left a (by simp [Packet.frame])) h0

/-- The outputs of some frames, one after the other. -/
theorem outs_of_frames {outss : List (List (Bool × List Event))} {os : List (Bool × List Event)}
    (h : List.Forall₂ (fun outs o => (∀ x ∈ outs, x.1 = true) ∧ storeEvents outs = o.2) outss os) :
    (∀ o ∈ outss.flatten, o.1 = true) ∧ storeEvents outss.flatten = os.flatMap (·.2) := by
  refine ⟨fun o ho => ?_, ?_⟩
  · obtain ⟨outs, hm, ho⟩ := List.mem_flatten.1 ho
    exact Machine.forall₂_left (fun outs o h => h.1) h outs hm o ho
  · have hmap : outss.map storeEvents = os.map (·.2) := by
      rw [← List.forall₂_eq_eq_eq, List.forall₂_map_left_iff, List.forall₂_map_right_iff]
      exact h.imp fun _ _ ho => ho.2
    rw [storeEvents_flatten, List.flatMap_def, List.flatMap_def, hmap]

/-- There is one zero for each frame. -/
theorem count_zero_frames : ∀ {packets : List Packet}, (∀ packet ∈ packets, packet.WF) →
    (packets.flatMap encodePacket).count 0 = packets.length
  | [], _ => rfl
  | packet :: packets, h => by
    rw [List.forall_mem_cons] at h
    rw [List.flatMap_cons, List.count_append, encodePacket_eq h.1, (count_zero_frame packet).1,
      count_zero_frames h.2, List.length_cons, Nat.add_comm]

/-- **What the receiver has made of the bytes read so far**: it has stored the packets whose
    frames are complete; and it is as at the start when nothing is left to read. -/
theorem run_part {packets : List Packet} (hps : ∀ packet ∈ packets, packet.WF)
    {cs : List ProcessCall} {rest : List UInt8} (hw : ∀ c ∈ cs, Delimited.Within 0 c.buffer)
    (hcs : cs.flatMap (·.buffer) ++ rest = packets.flatMap encodePacket) {st : Receiver}
    (h : StagingInitial st)
    (ha : Machine.Along PacketStore.storePacket Accepts st.toPacketStore packets) :
    let r := Machine.run step st cs
    (∀ o ∈ r.1, o.1 = true) ∧ ∃ packets₁, packets₁ <+: packets ∧
      (cs.flatMap (·.buffer)).count 0 = packets₁.length ∧
      let t := Machine.run PacketStore.storePacket st.toPacketStore packets₁
      storeEvents r.1 = t.1.flatMap (·.2) ∧ r.2.toPacketStore = t.2 ∧
        (rest = [] → packets₁ = packets ∧ StagingInitial r.2) := by
  have hf : ∀ frame ∈ packets.map encodePacket, Delimited.IsFrame (0 : UInt8) frame := by
    intro frame hm
    obtain ⟨packet, hp, rfl⟩ := List.mem_map.1 hm
    exact isFrame_encodePacket (hps packet hp)
  rw [List.flatMap_def] at hcs
  obtain ⟨css, part, frames₁, frames₂, rfl, hframes, hcss, h0, hpart⟩ :=
    Delimited.exists_division_part hf (fun c _ => c.nonempty) hw hcs
  obtain ⟨packets₁, packets₂, rfl, rfl, rfl⟩ := List.map_eq_append_iff.1 hframes
  rw [List.forall₂_map_right_iff] at hcss
  rw [← List.flatMap_def] at hpart
  rw [Machine.along_append] at ha
  obtain ⟨hps₁, hps₂⟩ := List.forall_mem_append.1 hps
  obtain ⟨houts, hst, hstore⟩ := run_frames (divides_of_framed hcss hps₁) h ha.1
  have hlen : (part.flatMap (·.buffer)).length ≤ 29 := length_part hps₂ h0 hpart
  obtain ⟨hret, hev, hkeep⟩ := run_stage hst.inv (.nil hst.pointer) h0
    (by rw [hst.remaining, rxBufferSize, Packet.size]; omega)
  obtain ⟨hrets, hevents⟩ := outs_of_frames houts
  intro r
  have hr : r = ((Machine.run (Machine.run step) st css).1.flatten ++
      (Machine.run step (Machine.run (Machine.run step) st css).2 part).1,
      (Machine.run step (Machine.run (Machine.run step) st css).2 part).2) := by
    simp only [r, Machine.run_append, Machine.run_flatten]
  rw [hr]
  refine ⟨?_, packets₁, List.prefix_append _ _, ?_, ?_, hkeep.trans hstore, ?_⟩
  · exact List.forall_mem_append.2 ⟨hrets, hret⟩
  · have hread : css.flatten.flatMap (·.buffer) = packets₁.flatMap encodePacket := by
      rw [← List.flatMap_id, List.flatMap_assoc, List.flatMap_def, List.flatMap_def]
      refine congrArg List.flatten ?_
      rw [← List.forall₂_eq_eq_eq, List.forall₂_map_left_iff, List.forall₂_map_right_iff]
      exact hcss
    rw [List.flatMap_append, hread, List.count_append, count_zero_frames hps₁,
      List.count_eq_zero.2 h0, Nat.add_zero]
  · rw [storeEvents_append, hevents, hev, List.append_nil]
  · -- nothing is left to read: the part that was read is no frame, so it is empty
    rintro rfl
    rw [List.append_nil] at hpart
    obtain rfl : packets₂ = [] := by
      rcases packets₂ with _ | ⟨packet, packets₂⟩
      · rfl
      · have hp := hps₂ packet List.mem_cons_self
        refine absurd ?_ h0
        rw [hpart, List.flatMap_cons, encodePacket_eq hp]
        exact List.mem_append_left _ (by simp [Packet.frame])
    obtain rfl : part = [] := by
      rcases part with _ | ⟨c, part⟩
      · rfl
      · rw [List.flatMap_cons, List.flatMap_nil, List.append_eq_nil_iff] at hpart
        exact absurd hpart.1 c.nonempty
    exact ⟨(List.append_nil _).symm, hst⟩

/-! ## Messages -/

/-- What the handlers are given for the messages `msgs`, one after the other. -/
structure Handed (rxHandler : Option FnPtr) (registry : Registry) (events : List Event)
    (msgs : List (List UInt8)) : Prop where
  rx : rxHandlerCalls events =
    rxHandler.toList.flatMap fun handler => msgs.map fun data => (handler, padded data)
  union : handlerCalls events =
    if rxHandler = none then
      msgs.flatMap fun data => (unmarshal registry (padded data) packetBufferSize true).2
    else []

/-- The message is taken: by the `rx_handler`, or else by the handler of its member. -/
def Takes (rxHandler : Option FnPtr) (registry : Registry) (data : List UInt8) : Prop :=
  rxHandler = none → (unmarshal registry (padded data) packetBufferSize true).1 = true

section
variable {rxHandler : Option FnPtr} {registry : Registry}

theorem handed_nil {events : List Event} (hrx : rxHandlerCalls events = [])
    (hcalls : handlerCalls events = []) : Handed rxHandler registry events [] := by
  refine ⟨?_, ?_⟩
  · rw [hrx]; cases rxHandler <;> rfl
  · rw [hcalls]; split_ifs <;> rfl

theorem Handed.append {es fs : List Event} {as bs : List (List UInt8)}
    (h : Handed rxHandler registry es as) (h' : Handed rxHandler registry fs bs) :
    Handed rxHandler registry (es ++ fs) (as ++ bs) := by
  refine ⟨?_, ?_⟩
  · rw [rxHandlerCalls, List.filterMap_append]
    refine (congrArg₂ (· ++ ·) h.rx h'.rx).trans ?_
    cases rxHandler <;> simp
  · rw [handlerCalls, List.filterMap_append]
    refine (congrArg₂ (· ++ ·) h.union h'.union).trans ?_
    split_ifs <;> simp

/-- Only the events of the store hand a message on. -/
theorem handed_storeEvents {outs : List (Bool × List Event)} {msgs : List (List UInt8)} :
    Handed rxHandler registry (storeEvents outs) msgs ↔
      Handed rxHandler registry (outs.flatMap (·.2)) msgs := by
  constructor
  · rintro ⟨hrx, hunion⟩
    exact ⟨by rw [← rxHandlerCalls_storeEvents]; exact hrx,
      by rw [← handlerCalls_storeEvents]; exact hunion⟩
  · rintro ⟨hrx, hunion⟩
    exact ⟨by rw [rxHandlerCalls_storeEvents]; exact hrx,
      by rw [handlerCalls_storeEvents]; exact hunion⟩

theorem storePacket_registry (st : PacketStore) (packet : Packet) :
    (st.storePacket packet).2.registry = st.registry := by
  rcases storePacket_cases st packet with ⟨-, h⟩ | ⟨-, handler, -, h⟩ | ⟨-, -, r, h⟩
  all_goals rw [h]; rfl

/-- **One packet**: what the assembler delivers is handed on, and taken. -/
theorem storePacket_handed {st : PacketStore} {held : List UInt8} (h : HeldBy st held)
    {packet : Packet} (hmet : Reassembly.Met Packet.isLast Packet.bytes packetBufferSize
      (Takes st.rxHandler st.registry) held packet) :
    Accepts st packet ∧ Handed st.rxHandler st.registry (st.storePacket packet).1.2
      (assemble held packet).1.toList := by
  have hbytes := (append_holds h hmet.1).bytes
  cases hl : packet.isLast with
  | false =>
    have hnone : (assemble held packet).1.toList = [] := by
      simp [assemble, Reassembly.step, hl]
    rw [Accepts, storePacket_notLast st hl, hnone]
    exact ⟨rfl, handed_nil rfl rfl⟩
  | true =>
    have hsome : (assemble held packet).1.toList = [held ++ packet.bytes] := by
      simp [assemble, Reassembly.step, hl]
    rw [Accepts, hsome]
    rcases hh : st.rxHandler with _ | handler
    · rw [storePacket_union hl hh, hbytes]
      refine ⟨hmet.2 hl hh, filterMap_call _ (fun _ => rfl) _, ?_⟩
      rw [if_pos rfl, List.flatMap_singleton]
      exact handlerCalls_map_call _
    · rw [storePacket_rx hl hh]
      refine ⟨rfl, ?_, rfl⟩
      show [(handler, (st.append packet).packetBuffer.bytes)] = _
      rw [hbytes]
      rfl

/-- **The store hands on what the assembler delivers.** -/
theorem run_handed : ∀ {packets : List Packet} {st : PacketStore} {held : List UInt8},
    HeldBy st held → st.rxHandler = rxHandler → st.registry = registry →
    Machine.Along assemble (Reassembly.Met Packet.isLast Packet.bytes packetBufferSize
      (Takes rxHandler registry)) held packets →
    let t := Machine.run PacketStore.storePacket st packets
    Machine.Along PacketStore.storePacket Accepts st packets ∧
      Handed rxHandler registry (t.1.flatMap (·.2))
        (Reassembly.delivered Packet.isLast Packet.bytes held packets) ∧
      HeldBy t.2 (Machine.run assemble held packets).2 ∧
      t.2.rxHandler = rxHandler ∧ t.2.registry = registry
  | [], st, held, h, hrx, hreg, _ => ⟨trivial, handed_nil rfl rfl, h, hrx, hreg⟩
  | packet :: packets, st, held, h, hrx, hreg, ⟨hmet, hrest⟩ => by
    rw [← hrx, ← hreg] at hmet
    obtain ⟨hacc, hone⟩ := storePacket_handed h hmet
    rw [hrx, hreg] at hone hmet
    obtain ⟨haccs, hall, hheld, hrx', hreg'⟩ := run_handed (storePacket_holds h hmet.1)
      ((storePacket_rxHandler _ _).trans hrx) ((storePacket_registry _ _).trans hreg) hrest
    refine ⟨⟨hacc, haccs⟩, ?_, hheld, hrx', hreg'⟩
    have hdel : Reassembly.delivered Packet.isLast Packet.bytes held (packet :: packets) =
        (assemble held packet).1.toList ++
          Reassembly.delivered Packet.isLast Packet.bytes (assemble held packet).2 packets := by
      rw [Reassembly.delivered, Machine.run_cons]
      show List.reduceOption ((assemble held packet).1 :: _) = _
      cases (assemble held packet).1 <;> rfl
    rw [Machine.run_cons, List.flatMap_cons, hdel]
    exact hone.append hall

end

/-! ## Payloads -/

/-- What `send` is called with, where it is no more than `packet_buffer` takes. -/
structure Payload where
  buffer : List UInt8
  size : ℕ
  pos : 1 ≤ size
  le : size ≤ packetBufferSize
  within : size ≤ buffer.length

namespace Payload
variable (p : Payload)

/-- The packets that `send` makes of the payload. -/
def packets : List Packet := (List.range (totalChunks p.size)).map (sentPacket p.buffer p.size)

/-- What these packets carry. -/
def sent : List UInt8 := p.buffer.take (sentSize p.size)

/-- The bytes that `tx_handler` gets. -/
def frames : List UInt8 := p.packets.flatMap encodePacket

theorem size_lt : p.size < 2 ^ 31 := by
  have := p.le
  rw [packetBufferSize] at this
  omega

theorem send_packets {σ : Type} {handler : TxHandler σ} (world : σ) :
    (send (some handler) p.buffer p.size world).packets = p.packets :=
  PacketSerial.send_packets p.size_lt world

theorem packets_wf : ∀ packet ∈ p.packets, packet.WF := map_sentPacket_wf _

theorem packets_bytes : p.packets.flatMap Packet.bytes = p.sent := by
  have h := @send_bytes Unit (fun _ world => (true, world)) p.buffer p.size p.pos p.size_lt ()
  rwa [p.send_packets] at h

/-- The packets of a payload are one message. -/
theorem isMessage : Reassembly.IsMessage Packet.isLast p.packets := by
  obtain ⟨n, hn⟩ := Nat.exists_eq_add_one_of_ne_zero (totalChunks_pos p.pos p.size_lt).ne'
  refine ⟨(List.range n).map (sentPacket p.buffer p.size), sentPacket p.buffer p.size n, ?_, ?_, ?_⟩
  · rw [packets, hn, List.range_succ, List.map_append, List.map_singleton]
  · exact sentPacket_last hn.symm
  · intro packet hm
    obtain ⟨i, hi, rfl⟩ := List.mem_map.1 hm
    rw [List.mem_range] at hi
    exact sentPacket_notLast p.size_lt (by omega)

theorem length_sent : p.sent.length ≤ packetBufferSize := by
  have hle : sentSize p.size ≤ p.size := by rw [sentSize_eq]; split_ifs <;> omega
  have := p.le
  rw [sent, List.length_take]; omega

end Payload

/-- A payload of three bytes. -/
def shortPayload : Payload := ⟨[7, 0, 9], 3, by decide, by decide, by decide⟩

/-- Nothing staged and nothing held: the receiver is as at the start. -/
theorem eq_init {st : Receiver} {rxHandler : Option FnPtr} {registry : Registry}
    (h : StagingInitial st) (hheld : HeldBy st.toPacketStore [])
    (hrx : st.rxHandler = rxHandler) (hreg : st.registry = registry) :
    st = .init rxHandler registry := by
  obtain ⟨⟨packetBuffer, offset, _, _⟩, rxBuffer, pointer, remaining⟩ := st
  obtain ⟨hbuf, hptr, hrem⟩ := h
  obtain ⟨hoff, hbytes⟩ := hheld
  have hzero : packetBuffer = .zero packetBufferSize := Buffer.ext hbytes
  cases hbuf; cases hptr; cases hrem; cases hoff; cases hzero; cases hrx; cases hreg
  rfl

theorem isMessage_packets (payloads : List Payload) : ∀ m ∈ payloads.map (·.packets),
    Reassembly.IsMessage Packet.isLast m := by
  intro m hm
  obtain ⟨p, -, rfl⟩ := List.mem_map.1 hm
  exact p.isMessage

theorem delivered_packets (payloads : List Payload) :
    Reassembly.delivered Packet.isLast Packet.bytes [] (payloads.map (·.packets)).flatten =
      payloads.map (·.sent) := by
  rw [(Reassembly.run_messages (isMessage_packets payloads)).1, List.map_map]
  exact List.map_congr_left fun p _ => p.packets_bytes

theorem flatMap_frames (payloads : List Payload) :
    (payloads.map (·.packets)).flatten.flatMap encodePacket = payloads.flatMap (·.frames) := by
  rw [← List.flatMap_def, List.flatMap_assoc]
  rfl

theorem packets_wf (payloads : List Payload) :
    ∀ packet ∈ (payloads.map (·.packets)).flatten, packet.WF := by
  intro packet hm
  obtain ⟨m, hm, hp⟩ := List.mem_flatten.1 hm
  obtain ⟨p, -, rfl⟩ := List.mem_map.1 hm
  exact p.packets_wf packet hp

/-- The messages among the packets stored so far: those of which all packets are. -/
theorem exists_payloads {payloads : List Payload} {packets : List Packet}
    (h : packets <+: (payloads.map (·.packets)).flatten) :
    ∃ k ≤ payloads.length, Reassembly.delivered Packet.isLast Packet.bytes [] packets =
        (payloads.take k).map (·.sent) ∧
      ∀ j ≤ payloads.length,
        ((payloads.take j).map (·.packets)).flatten.length ≤ packets.length → j ≤ k := by
  obtain ⟨k, hk, part, hpackets, hpart⟩ :=
    Reassembly.exists_messages (isMessage_packets payloads) h
  rw [List.length_map] at hk
  rw [← List.map_take] at hpackets
  have hdel : Reassembly.delivered Packet.isLast Packet.bytes [] packets =
      (payloads.take k).map (·.sent) := by
    rw [hpackets, Reassembly.delivered_append, delivered_packets, (Reassembly.run_body hpart).1,
      List.append_nil]
  refine ⟨k, hk, hdel, fun j hj hlen => ?_⟩
  have htake : ((payloads.take j).map (·.packets)).flatten <+:
      (payloads.map (·.packets)).flatten := by
    conv_rhs => rw [← List.take_append_drop j payloads, List.map_append, List.flatten_append]
    exact List.prefix_append _ _
  obtain ⟨more, rfl⟩ := List.prefix_of_prefix_length_le htake h hlen
  rw [Reassembly.delivered_append, delivered_packets] at hdel
  have hcount := congrArg List.length hdel
  rw [List.length_append, List.length_map, List.length_map, List.length_take,
    List.length_take, min_eq_left hj, min_eq_left hk] at hcount
  omega

/-- **What the receiver has made of a part of a stream of payloads**, read in any chunks:
    the payloads that have been read whole were handed on, in order, and no other; every call
    returned true; and with nothing left to read the receiver is as at the start. -/
theorem receive_part {rxHandler : Option FnPtr} {registry : Registry} {payloads : List Payload}
    (htakes : ∀ p ∈ payloads, Takes rxHandler registry p.sent) {cs : List ProcessCall}
    {rest : List UInt8} (hw : ∀ c ∈ cs, Delimited.Within 0 c.buffer)
    (hcs : cs.flatMap (·.buffer) ++ rest = payloads.flatMap (·.frames)) :
    let r := Machine.run step (.init rxHandler registry) cs
    (∀ o ∈ r.1, o.1 = true) ∧ (∃ k ≤ payloads.length,
      Handed rxHandler registry (r.1.flatMap (·.2)) ((payloads.take k).map (·.sent)) ∧
      ∀ j ≤ payloads.length, rest.length ≤ ((payloads.drop j).flatMap (·.frames)).length → j ≤ k) ∧
    (rest = [] → r.2 = .init rxHandler registry) := by
  intro r
  have hmet : ∀ m ∈ payloads.map (·.packets),
      (m.flatMap Packet.bytes).length ≤ packetBufferSize ∧
        Takes rxHandler registry (m.flatMap Packet.bytes) := by
    intro m hm
    obtain ⟨p, hp, rfl⟩ := List.mem_map.1 hm
    rw [p.packets_bytes]
    exact ⟨p.length_sent, htakes p hp⟩
  have hinit := heldBy_init rxHandler registry
  have halong := Reassembly.along_messages (isMessage_packets payloads) hmet
  obtain ⟨hacc, -⟩ := run_handed hinit rfl rfl halong
  obtain ⟨hret, packets₁, hpre, hzeros, hev, hstore, hdone⟩ :=
    run_part (packets_wf payloads) hw (hcs.trans (flatMap_frames payloads).symm)
      (stagingInitial_init rxHandler registry) hacc
  obtain ⟨k, hk, hdel, hall⟩ := exists_payloads hpre
  have halong₁ := halong
  obtain ⟨packets₂, hpackets⟩ := hpre
  rw [← hpackets, Machine.along_append] at halong₁
  obtain ⟨-, hhanded, hheld, hrx, hreg⟩ := run_handed hinit rfl rfl halong₁.1
  rw [← hstore] at hheld hrx hreg
  refine ⟨hret, ⟨k, hk, ?_, fun j hj hrest => hall j hj ?_⟩, fun hrest => ?_⟩
  · rw [← handed_storeEvents, hev, ← hdel]
    exact hhanded
  · -- the frames of the first `j` payloads have been read: count their zeros
    have hsplit : payloads.flatMap (·.frames) =
        (payloads.take j).flatMap (·.frames) ++ (payloads.drop j).flatMap (·.frames) := by
      rw [← List.flatMap_append, List.take_append_drop]
    rw [hsplit] at hcs
    have hread : (payloads.take j).flatMap (·.frames) <+: cs.flatMap (·.buffer) := by
      refine List.prefix_of_prefix_length_le ⟨_, rfl⟩ ⟨rest, hcs⟩ ?_
      have hlen := congrArg List.length hcs
      rw [List.length_append, List.length_append] at hlen
      omega
    have hcount := hread.sublist.count_le (0 : UInt8)
    rw [hzeros, ← flatMap_frames, count_zero_frames (packets_wf _)] at hcount
    exact hcount
  · obtain ⟨rfl, hst⟩ := hdone hrest
    rw [show (Machine.run assemble [] (payloads.map (·.packets)).flatten).2 = [] from
      (Reassembly.run_messages (isMessage_packets payloads)).2] at hheld
    exact eq_init hst hheld hrx hreg

end PacketSerial

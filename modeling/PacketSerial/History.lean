/-
  Any history of calls: what the receiver makes of arbitrary bytes.

  * `run_store`: on any bytes, the receiver runs like the machine that stores packets,
    on the packets that it decodes;
  * `packet_used_whatever_crc`: a packet is stored and delivered whatever its check
    byte is;
  * `handed_buffer_is_one_run`: a buffer that is handed to a handler is the data of the
    packets decoded since the last end of a message, whatever their sequence numbers
    and first flags are.
-/
import PacketSerial.Delivery

namespace PacketSerial

open Receiver

/-! ## The packet of a call -/

/-- In the state `st`, the call brings the end of a frame, and the bytes staged then
    decode to `packet`. -/
structure Receiver.Decodes (st : Receiver) (c : ProcessCall) (packet : Packet) : Prop where
  room : c.buffer.length ≤ st.remainingSize
  delimiter : c.buffer.getLast? = some 0
  parsed : (st.stage c.buffer).parsedPacket c.stack = some packet

theorem receiveMessage_store (st : Receiver) (stack : ℕ → UInt8) :
    (st.receiveMessage stack).2.toPacketStore = (st.parseStaged stack).2 := by
  rw [receiveMessage]
  dsimp only
  split_ifs <;> rfl

/-- A call that decodes a packet stores it. -/
theorem step_decodes {st : Receiver} {c : ProcessCall} {packet : Packet}
    (h : st.Decodes c packet) :
    (st.step c).1.1 = (st.storePacket packet).1.1 ∧
      storeEvents [(st.step c).1] = (st.storePacket packet).1.2 ∧
      (st.step c).2.toPacketStore = (st.storePacket packet).2 := by
  have hparse := parseStaged_eq (st.stage c.buffer) c.stack
  rw [h.parsed] at hparse
  have hes := storePacket_isStore st.toPacketStore packet
  rw [step, process, if_neg (not_lt.2 h.room), if_pos h.delimiter]
  refine ⟨congrArg (·.1.1) hparse, ?_, (receiveMessage_store _ _).trans (congrArg (·.2) hparse)⟩
  simp only [receiveMessage, hparse, storeEvents_cons, List.filter_cons, Event.isStore,
    Bool.false_eq_true, if_false]
  exact (List.append_nil _).trans hes

/-- A call that decodes none leaves the store alone. -/
theorem step_not_decodes {st : Receiver} {c : ProcessCall} (h : ∀ packet, ¬ st.Decodes c packet) :
    storeEvents [(st.step c).1] = [] ∧ (st.step c).2.toPacketStore = st.toPacketStore := by
  rw [step, process]
  split_ifs with hover hlast
  · exact ⟨rfl, rfl⟩
  · have hnone : (st.stage c.buffer).parsedPacket c.stack = none := by
      by_contra hne
      obtain ⟨packet, hp⟩ := Option.ne_none_iff_exists'.1 hne
      exact h packet ⟨not_lt.1 hover, hlast, hp⟩
    have hparse := parseStaged_eq (st.stage c.buffer) c.stack
    rw [hnone] at hparse
    refine ⟨?_, (receiveMessage_store _ _).trans (congrArg (·.2) hparse)⟩
    simp [receiveMessage, hparse, PacketStore.receive, Event.isStore, storeEvents]
  · exact ⟨rfl, rfl⟩

/-- **What a call does with the store**: it stores one packet, or leaves it alone. -/
theorem step_store_cases (st : Receiver) (c : ProcessCall) :
    (∃ packet, storeEvents [(st.step c).1] = (st.storePacket packet).1.2 ∧
      (st.step c).2.toPacketStore = (st.storePacket packet).2) ∨
    (storeEvents [(st.step c).1] = [] ∧ (st.step c).2.toPacketStore = st.toPacketStore) := by
  by_cases hd : ∃ packet, st.Decodes c packet
  · obtain ⟨packet, hp⟩ := hd
    exact Or.inl ⟨packet, (step_decodes hp).2⟩
  · exact Or.inr (step_not_decodes (not_exists.1 hd))

/-! ## Check bytes -/

theorem storePacket_copies (st : PacketStore) (packet : Packet) :
    Event.memcpy st.packetBufferOffset packet.data.size ∈ (st.storePacket packet).1.2 := by
  rcases storePacket_cases st packet with ⟨-, h⟩ | ⟨-, handler, -, h⟩ | ⟨-, -, r, h⟩ <;>
    simp [h]

/-- Nothing depends on the check byte. -/
theorem storePacket_crc (st : PacketStore) (packet : Packet) (crc : UInt8) :
    (st.storePacket { packet with crc := crc }).1.1 = (st.storePacket packet).1.1 ∧
      (st.storePacket { packet with crc := crc }).2 = (st.storePacket packet).2 := by
  have hl' : ({ packet with crc := crc } : Packet).isLast = packet.isLast := rfl
  cases hl : packet.isLast with
  | false =>
    rw [storePacket_notLast st hl, storePacket_notLast st (hl'.trans hl)]
    exact ⟨rfl, rfl⟩
  | true =>
    cases hh : st.rxHandler with
    | some handler =>
      rw [storePacket_rx hl hh, storePacket_rx (hl'.trans hl) hh]
      exact ⟨rfl, rfl⟩
    | none =>
      rw [storePacket_union hl hh, storePacket_union (hl'.trans hl) hh]
      exact ⟨rfl, rfl⟩

/-- **A packet is used whatever its check byte is.**  A call that decodes a packet copies
    its data behind what is held.  A last packet is delivered, to `rx_handler` or to
    `unmarshal`, and the value returned is theirs; any other call returns true.  The check
    byte of the packet plays no part: with another one the same happens. -/
theorem packet_used_whatever_crc {st : Receiver} {c : ProcessCall} {packet : Packet}
    (h : st.Decodes c packet) :
    Event.memcpy st.packetBufferOffset packet.data.size ∈ (st.step c).1.2 ∧
    (packet.isLast = false → (st.step c).1.1 = true ∧
      (st.step c).2.toPacketStore = st.append packet) ∧
    (packet.isLast = true →
      (st.step c).2.toPacketStore = (st.append packet).resetPacketBuffer ∧
      match st.rxHandler with
      | some handler => (st.step c).1.1 = true ∧
          Event.rxHandler handler (st.append packet).packetBuffer ∈ (st.step c).1.2
      | none =>
          let r := PacketSerial.unmarshal st.registry (st.append packet).packetBuffer.bytes
            packetBufferSize true
          (st.step c).1.1 = r.1 ∧
            Event.unmarshal (st.append packet).packetBuffer ∈ (st.step c).1.2 ∧
            ∀ call ∈ r.2, Event.call call ∈ (st.step c).1.2) ∧
    ∀ (c' : ProcessCall) (crc : UInt8), st.Decodes c' { packet with crc := crc } →
      (st.step c').1.1 = (st.step c).1.1 ∧
        (st.step c').2.toPacketStore = (st.step c).2.toPacketStore := by
  obtain ⟨hret, hev, hst⟩ := step_decodes h
  have hmem : ∀ e ∈ (st.storePacket packet).1.2, e ∈ (st.step c).1.2 := by
    intro e he
    rw [← hev, storeEvents, List.flatMap_singleton] at he
    exact List.mem_of_mem_filter he
  refine ⟨hmem _ ?_, fun hl => ?_, fun hl => ?_, fun c' crc h' => ?_⟩
  · exact storePacket_copies _ _
  · rw [hret, hst, storePacket_notLast _ hl]
    exact ⟨rfl, rfl⟩
  · rw [hret, hst]
    cases hh : st.rxHandler with
    | some handler =>
      rw [storePacket_rx hl hh] at hmem ⊢
      exact ⟨rfl, rfl, hmem _ (by simp)⟩
    | none =>
      rw [storePacket_union hl hh] at hmem ⊢
      exact ⟨rfl, rfl, hmem _ (by simp), fun call hc => hmem _ (by simp [hc])⟩
  · obtain ⟨hret', -, hst'⟩ := step_decodes h'
    rw [hret, hst, hret', hst']
    exact storePacket_crc _ _ _

/-- A packet whose data was changed on the line, from `[1, 2, 3]`. -/
def damagedPacket (flag : PacketFlag) : Packet :=
  { buildPacket [1, 2, 3] 3 0 flag with data := .ofList [1, 2, 9] }

/-- The frame of that packet, in one call. -/
def damagedCall (flag : PacketFlag) : ProcessCall :=
  ⟨(damagedPacket flag).frame, by simp [Packet.frame], fun _ => 0⟩

theorem decodes_damagedCall (flag : PacketFlag) :
    (Receiver.init (some 5) .empty).Decodes (damagedCall flag) (damagedPacket flag) := by
  cases flag <;> exact ⟨by decide +kernel, by decide +kernel, by decide +kernel⟩

theorem packet_used_whatever_crc_damaged :
    ((Receiver.init (some 5) .empty).step (damagedCall .first)).1.1 = true :=
  ((packet_used_whatever_crc (decodes_damagedCall .first)).2.1 (by decide)).1

/-- Its check byte is wrong, and its data is kept, and handed to `rx_handler`. -/
theorem damagedPacket_used :
    (∀ flag, (damagedPacket flag).crc ≠ calculateCrc (damagedPacket flag).data.bytes 3) ∧
    (∀ flag, (Receiver.init (some 5) .empty).Decodes (damagedCall flag) (damagedPacket flag)) ∧
    (let r := (Receiver.init (some 5) .empty).step (damagedCall .first)
     r.1.1 = true ∧ r.2.packetBufferOffset = 3 ∧ r.2.packetBuffer.bytes.take 3 = [1, 2, 9]) ∧
    (let r := (Receiver.init (some 5) .empty).step (damagedCall .firstLast)
     r.1.1 = true ∧ rxHandlerCalls r.1.2 = [(5, padded [1, 2, 9])]) := by
  refine ⟨fun flag => ?_, decodes_damagedCall, ?_, ?_⟩
  · cases flag <;> decide +kernel
  · decide +kernel
  · decide +kernel

/-! ## Runs -/

/-- The packets decoded among some events. -/
def packetsOf (events : List Event) : List Packet :=
  events.filterMap fun
    | .packet packet => some packet
    | _ => none

/-- The packets decoded by the calls `cs`. -/
def packetsDecoded (st : Receiver) (cs : List ProcessCall) : List Packet :=
  packetsOf ((Machine.run step st cs).1.flatMap (·.2))

theorem packetsOf_append (es fs : List Event) :
    packetsOf (es ++ fs) = packetsOf es ++ packetsOf fs :=
  List.filterMap_append

theorem packetsOf_storeEvents (outs : List (Bool × List Event)) :
    packetsOf (storeEvents outs) = packetsOf (outs.flatMap (·.2)) :=
  filterMap_storeEvents (fun e he => by cases e <;> first | rfl | cases he) outs

theorem filterMap_call {α : Type} (f : Event → Option α) (h : ∀ c, f (.call c) = none)
    (calls : List Call) : (calls.map Event.call).filterMap f = [] := by
  rw [List.filterMap_map, List.filterMap_eq_nil_iff]
  exact fun c _ => h c

theorem packetsOf_storePacket (st : PacketStore) (packet : Packet) :
    packetsOf (st.storePacket packet).1.2 = [packet] := by
  rcases storePacket_cases st packet with ⟨-, h⟩ | ⟨-, handler, -, h⟩ | ⟨-, -, r, h⟩ <;> rw [h]
  · rfl
  · rfl
  · exact congrArg (packet :: ·) (filterMap_call _ (fun _ => rfl) _)

/-- The packet that the last call decoded, if it decoded one. -/
theorem packetsDecoded_concat (st : Receiver) (cs : List ProcessCall) (c : ProcessCall) :
    packetsDecoded st (cs ++ [c]) =
      packetsDecoded st cs ++ packetsOf (storeEvents [((Machine.run step st cs).2.step c).1]) := by
  rw [packetsDecoded, Machine.run_concat, List.flatMap_append, packetsOf_append,
    packetsOf_storeEvents]
  rfl

/-- **On any bytes, the receiver runs like the store on the packets decoded.** -/
theorem run_store (st : Receiver) (cs : List ProcessCall) :
    (Machine.run step st cs).2.toPacketStore =
      (Machine.run PacketStore.storePacket st.toPacketStore (packetsDecoded st cs)).2 := by
  induction cs using List.reverseRecOn with
  | nil => rfl
  | append_singleton cs c ih =>
    rw [packetsDecoded_concat, Machine.run_concat]
    rcases step_store_cases (Machine.run step st cs).2 c with ⟨packet, hev, hst⟩ | ⟨hev, hst⟩
    · rw [hst, hev, packetsOf_storePacket, Machine.run_concat, ih]
    · rw [hst, hev, ih]
      simp [packetsOf]

/-- As long as every message fits, the packet buffer holds the data of the packets
    decoded since the last end of a message. -/
theorem run_holds {rxHandler : Option FnPtr} {registry : Registry} {cs : List ProcessCall}
    (hfits : Reassembly.Fits Packet.isLast Packet.bytes packetBufferSize
      (packetsDecoded (.init rxHandler registry) cs)) :
    HeldBy (Machine.run step (.init rxHandler registry) cs).2.toPacketStore
      ((Reassembly.openRun Packet.isLast (packetsDecoded (.init rxHandler registry) cs)).flatMap
        Packet.bytes) := by
  have hstep : ∀ (st : PacketStore) held packet (packet' : Packet), HeldBy st held →
      packet = packet' → (held ++ packet'.bytes).length ≤ packetBufferSize →
      True ∧ HeldBy (st.storePacket packet).2 (assemble held packet').2 := by
    rintro st held packet _ hst rfl hroom
    exact ⟨trivial, storePacket_holds hst hroom⟩
  rw [run_store, ← Reassembly.run_state]
  exact (Machine.run_simulates (R := HeldBy) (O := fun _ _ => True) hstep (List.forall₂_refl _)
    (heldBy_init rxHandler registry) ((Reassembly.fits_iff_along _ _ _).1 hfits)).2

/-- The buffers handed to a handler among some events. -/
def handedBuffers (events : List Event) : List (List UInt8) :=
  events.filterMap fun
    | .rxHandler _ buffer | .unmarshal buffer => some buffer.bytes
    | _ => none

theorem handedBuffers_storeEvents (outs : List (Bool × List Event)) :
    handedBuffers (storeEvents outs) = handedBuffers (outs.flatMap (·.2)) :=
  filterMap_storeEvents (fun e he => by cases e <;> first | rfl | cases he) outs

theorem handedBuffers_storePacket (st : PacketStore) (packet : Packet) :
    handedBuffers (st.storePacket packet).1.2 =
      if packet.isLast then [(st.append packet).packetBuffer.bytes] else [] := by
  rcases storePacket_cases st packet with ⟨hl, h⟩ | ⟨hl, handler, -, h⟩ | ⟨hl, -, r, h⟩ <;>
    rw [h, hl]
  · rfl
  · rfl
  · exact congrArg ((st.append packet).packetBuffer.bytes :: ·)
      (filterMap_call _ (fun _ => rfl) _)

/-- **What a handed buffer is.**  After any calls on any bytes, when a call hands a
    buffer to `rx_handler` or to `unmarshal`, and no message so far was longer than the
    buffer, it is the data of one contiguous run of the packets decoded, followed by
    zeros: the run that starts after the previous last packet, and ends in its only
    last packet. -/
theorem handed_buffer_is_one_run {rxHandler : Option FnPtr} {registry : Registry}
    {cs : List ProcessCall} {c : ProcessCall} {buffer : List UInt8}
    (hb : buffer ∈ handedBuffers
      ((Machine.run step (.init rxHandler registry) cs).2.step c).1.2)
    (hfits : Reassembly.Fits Packet.isLast Packet.bytes packetBufferSize
      (packetsDecoded (.init rxHandler registry) (cs ++ [c]))) :
    ∃ pre body last, packetsDecoded (.init rxHandler registry) (cs ++ [c]) = pre ++ body ++ [last] ∧
      (pre = [] ∨ ∃ pre' packet, pre = pre' ++ [packet] ∧ packet.isLast = true) ∧
      (∀ packet ∈ body, packet.isLast = false) ∧ last.isLast = true ∧
      buffer = padded ((body ++ [last]).flatMap Packet.bytes) := by
  have hhand := handedBuffers_storeEvents
    [((Machine.run step (.init rxHandler registry) cs).2.step c).1]
  rw [List.flatMap_singleton] at hhand
  rw [← hhand] at hb
  rcases step_store_cases (Machine.run step (.init rxHandler registry) cs).2 c with
    ⟨packet, hev, -⟩ | ⟨hev, -⟩
  · rw [hev, handedBuffers_storePacket] at hb
    rw [packetsDecoded_concat, hev, packetsOf_storePacket] at hfits ⊢
    obtain ⟨hfits', hroom⟩ := (Reassembly.fits_concat _ _).1 hfits
    rw [List.flatMap_append, List.flatMap_singleton] at hroom
    obtain ⟨pre, hpre, hstart⟩ := Reassembly.exists_openRun Packet.isLast
      (packetsDecoded (.init rxHandler registry) cs)
    split_ifs at hb with hlast
    · refine ⟨pre, Reassembly.openRun Packet.isLast (packetsDecoded (.init rxHandler registry) cs),
        packet, by rw [← hpre], hstart, fun q hq => Reassembly.isEnd_of_mem_openRun _ hq, hlast, ?_⟩
      rw [List.mem_singleton.1 hb, (append_holds (run_holds hfits') hroom).bytes,
        List.flatMap_append, List.flatMap_singleton]
    · simp at hb
  · rw [hev] at hb
    simp [handedBuffers] at hb

/-- The frame of the last of `twoPackets`, in one call. -/
def lastCall : ProcessCall :=
  ⟨(buildPacket [3] 1 1 .last).frame, by simp [Packet.frame], fun _ => 0⟩

theorem handed_buffer_is_one_run_twoPackets :
    let cs := ProcessCall.whole (buildPacket [1, 0] 2 0 .first).frame
    ∃ pre body last, packetsDecoded (.init (some 5) .empty) (cs ++ [lastCall]) =
        pre ++ body ++ [last] ∧
      (pre = [] ∨ ∃ pre' packet, pre = pre' ++ [packet] ∧ packet.isLast = true) ∧
      (∀ packet ∈ body, packet.isLast = false) ∧ last.isLast = true ∧
      padded [1, 0, 3] = padded ((body ++ [last]).flatMap Packet.bytes) := by
  intro cs
  have hps : packetsDecoded (.init (some 5) .empty) (cs ++ [lastCall]) = twoPackets := by
    decide +kernel
  have hfits : Reassembly.Fits Packet.isLast Packet.bytes packetBufferSize twoPackets :=
    (Reassembly.fits_iff_along _ _ _).2 ⟨by decide, by decide, trivial⟩
  exact handed_buffer_is_one_run (by decide +kernel) (hps ▸ hfits)

/-- The packets of one message, as `send` makes them: a single one with the flag
    FIRSTLAST, or one with FIRST, some with CONTINUE and one with LAST, numbered in
    order. -/
structure OneMessage (run : List Packet) : Prop where
  flags : run.map (·.flag) = [PacketFlag.firstLast.code] ∨ ∃ n, run.map (·.flag) =
    PacketFlag.first.code :: List.replicate n PacketFlag.cont.code ++ [PacketFlag.last.code]
  numbers : run.IsChain fun p q => q.sequenceNumber = p.sequenceNumber + 1

/-- A message of three packets, the second of which was lost. -/
def holedMessage : List Packet := [buildPacket [1] 1 0 .first, buildPacket [3] 1 2 .last]

/-- The end of one message, the beginning of which was lost, after the beginning of
    another, the end of which was lost. -/
def mixedMessage : List Packet :=
  [buildPacket [1] 1 0 .first, buildPacket [2] 1 0 .first, buildPacket [3] 1 1 .last]

/-- What is left of the messages is delivered, though no run of the packets received is
    a message with that data. -/
theorem holedMessage_delivered :
    (∀ ps ∈ [holedMessage, mixedMessage],
      packetsDecoded (.init (some 5) .empty) (ps.flatMap fun p => ProcessCall.whole p.frame) = ps) ∧
    ∀ ps ∈ [holedMessage, mixedMessage], ∃ buffer ∈ handedBuffers
        ((Machine.run step (.init (some 5) .empty)
          (ps.flatMap fun p => ProcessCall.whole p.frame)).1.flatMap (·.2)),
      ∀ run, run <:+: ps → OneMessage run → buffer ≠ padded (run.flatMap Packet.bytes) := by
  have hwhole : ∀ ps ∈ [holedMessage, mixedMessage], ∀ run ∈ ps.sublists,
      padded (ps.flatMap Packet.bytes) = padded (run.flatMap Packet.bytes) → run = ps := by
    decide +kernel
  have hnot : ∀ ps ∈ [holedMessage, mixedMessage], ¬ OneMessage ps := by
    simp only [List.mem_cons, List.not_mem_nil, or_false, forall_eq_or_imp, forall_eq]
    refine ⟨fun h => absurd h.numbers (by decide), fun h => ?_⟩
    rcases h.flags with hf | ⟨n, hf⟩
    · exact absurd hf (by decide)
    · have hn := congrArg List.length hf
      simp [mixedMessage] at hn
      subst hn
      exact absurd hf (by decide)
  refine ⟨by decide +kernel, fun ps hps => ⟨padded (ps.flatMap Packet.bytes), ?_, ?_⟩⟩
  · revert ps
    decide +kernel
  · intro run hrun hone heq
    obtain rfl := hwhole ps hps run (List.mem_sublists.2 hrun.sublist) heq
    exact hnot run hps hone

end PacketSerial

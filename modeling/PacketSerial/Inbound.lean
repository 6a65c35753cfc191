/-
  What the receiver makes of a stream of any bytes.

  * `Inbound`: a message on the line: its bytes, and the byte of the stack that the parser gets
    behind what is decoded of them; `inbound`: the messages that some calls complete;
  * `messageStep`: what a message does, to the store and to the space that is left;
  * `run_inbound`: the receiver runs like that machine, on any bytes, as long as each message
    finds the space it needs and no call reaches over the end of one;
  * `foreign_received`: so it stores the packets of any encoder of the format, however they are
    written.
-/
import PacketSerial.MessageFields
import PacketSerial.Reading

namespace PacketSerial

open Receiver

/-! ## Messages on the line -/

/-- A message, and the byte of `decoded_data_array` behind what is decoded of it. -/
structure Inbound where
  body : List UInt8
  byte : UInt8
deriving DecidableEq, Repr

namespace Inbound

/-- The packet that `packet_parser` gets out of it. -/
def packet (m : Inbound) : Option Packet := packetOf (Stuffing.unstuff m.body ++ [m.byte])

/-- There is space for it, and its delimiter. -/
def Fits (s : PacketStore × ℤ) (m : Inbound) : Prop := (m.body.length + 1 : ℤ) ≤ s.2

instance (s : PacketStore × ℤ) (m : Inbound) : Decidable (m.Fits s) :=
  inferInstanceAs (Decidable (_ ≤ _))

end Inbound

/-- A message, received from a state with the pointer at the start: the store, and
    `rx_buffer_remaining`. -/
def messageStep (s : PacketStore × ℤ) (m : Inbound) : (Bool × List Event) × (PacketStore × ℤ) :=
  let r := s.1.receive m.packet
  (r.1, (r.2, if r.1.1 then rxBufferSize else s.2 - (m.body.length + 1)))

/-- The call ends a message. -/
def ProcessCall.Ends (c : ProcessCall) : Prop := c.buffer.getLast? = some 0

instance (c : ProcessCall) : Decidable c.Ends := inferInstanceAs (Decidable (_ = _))

/-- The messages that the calls complete, the first of them with `a` in front. -/
def inbound : List UInt8 → List ProcessCall → List Inbound
  | _, [] => []
  | a, c :: cs =>
    if c.Ends then
      let body := a ++ c.buffer.dropLast
      ⟨body, c.stack (Stuffing.unstuff body).length⟩ :: inbound [] cs
    else inbound (a ++ c.buffer) cs

/-- What is read of a message that is not complete. -/
def unended : List UInt8 → List ProcessCall → List UInt8
  | a, [] => a
  | a, c :: cs => if c.Ends then unended [] cs else unended (a ++ c.buffer) cs

/-- What the calls return when those that end a message return `rs`. -/
def returned : List ProcessCall → List Bool → List Bool
  | [], _ => []
  | c :: cs, rs => if c.Ends then rs.headD true :: returned cs rs.tail else true :: returned cs rs

section
variable {a : List UInt8} {c : ProcessCall} {cs : List ProcessCall}

/-- A call that ends a message has its only zero at the end. -/
theorem ProcessCall.Ends.buffer_eq (h : c.Ends) : c.buffer = c.buffer.dropLast ++ [0] := by
  have hl := List.dropLast_append_getLast c.nonempty
  rw [Ends, List.getLast?_eq_getLast_of_ne_nil c.nonempty, Option.some.injEq] at h
  rw [h] at hl
  exact hl.symm

theorem zero_notMem_of_not_ends (hw : Delimited.Within 0 c.buffer) (h : ¬ c.Ends) :
    0 ∉ c.buffer := by
  have hl := List.dropLast_append_getLast c.nonempty
  rw [ProcessCall.Ends, List.getLast?_eq_getLast_of_ne_nil c.nonempty, Option.some.injEq] at h
  rw [← hl, List.mem_append, not_or, List.mem_singleton]
  exact ⟨hw, Ne.symm h⟩

/-- The bytes of the messages are those between the zeros of the stream. -/
theorem inbound_cut : ∀ {cs : List ProcessCall} (a : List UInt8),
    (∀ c ∈ cs, Delimited.Within 0 c.buffer) →
    ((inbound a cs).map (·.body), unended a cs) = Delimited.cut 0 a (cs.flatMap (·.buffer))
  | [], _, _ => rfl
  | c :: cs, a, hw => by
    rw [List.forall_mem_cons] at hw
    rw [inbound, unended, List.flatMap_cons]
    by_cases hc : c.Ends
    · have hb : Delimited.cut 0 a (c.buffer ++ cs.flatMap (·.buffer)) =
          ((a ++ c.buffer.dropLast) :: (Delimited.cut 0 [] (cs.flatMap (·.buffer))).1,
            (Delimited.cut 0 [] (cs.flatMap (·.buffer))).2) := by
        have h0 : 0 ∉ c.buffer.dropLast := hw.1
        nth_rewrite 1 [hc.buffer_eq]
        rw [List.append_assoc, Delimited.cut_append h0, List.singleton_append, Delimited.cut_cons]
      rw [if_pos hc, if_pos hc, hb, ← inbound_cut [] hw.2]
      rfl
    · rw [if_neg hc, if_neg hc, Delimited.cut_append (zero_notMem_of_not_ends hw.1 hc),
        inbound_cut _ hw.2]

/-- A stream cut at its zeros. -/
theorem inbound_stream {cs : List ProcessCall} (hw : ∀ c ∈ cs, Delimited.Within 0 c.buffer)
    {bodies : List (List UInt8)} {part : List UInt8} (hbodies : ∀ b ∈ bodies, 0 ∉ b)
    (hpart : 0 ∉ part) (hcs : cs.flatMap (·.buffer) = bodies.flatMap (· ++ [0]) ++ part) :
    (inbound [] cs).map (·.body) = bodies ∧ unended [] cs = part := by
  have h := inbound_cut [] hw
  rw [hcs, Delimited.cut_stream hpart hbodies] at h
  exact Prod.mk.inj h

/-- What has come in already is in front of the next message, or of what is read of it. -/
theorem inbound_cases : ∀ (cs : List ProcessCall) (a : List UInt8),
    (∃ m ms, inbound a cs = m :: ms ∧ a <+: m.body) ∨ inbound a cs = [] ∧ a <+: unended a cs
  | [], a => Or.inr ⟨rfl, List.prefix_refl a⟩
  | c :: cs, a => by
    rw [inbound, unended]
    by_cases hc : c.Ends
    · rw [if_pos hc, if_pos hc]
      exact Or.inl ⟨_, _, rfl, List.prefix_append _ _⟩
    · rw [if_neg hc, if_neg hc]
      rcases inbound_cases cs (a ++ c.buffer) with ⟨m, ms, h, hm⟩ | ⟨h, hu⟩
      · exact Or.inl ⟨m, ms, h, (List.prefix_append _ _).trans hm⟩
      · exact Or.inr ⟨h, (List.prefix_append _ _).trans hu⟩

end

/-! ## Calls -/

/-- The bytes `a` of a message are staged, and the rest is as in `s`. -/
structure Reads (st : Receiver) (a : List UInt8) (s : PacketStore × ℤ) : Prop where
  inv : StagingInv st
  staged : Staged st a
  nonzero : 0 ∉ a
  store : st.toPacketStore = s.1
  remaining : st.rxBufferRemaining + a.length = s.2

theorem reads_init (rxHandler : Option FnPtr) (registry : Registry) :
    Reads (.init rxHandler registry) []
      ((Receiver.init rxHandler registry).toPacketStore, rxBufferSize) :=
  ⟨stagingInv_init _ _, .nil rfl, List.not_mem_nil, rfl, rfl⟩

/-- All events of the store are events of the store. -/
theorem receive_isStore (st : PacketStore) (r : Option Packet) :
    (st.receive r).1.2.filter (·.isStore) = (st.receive r).1.2 := by
  cases r with
  | none => rfl
  | some packet => exact storePacket_isStore st packet

section
variable {st : Receiver} {a : List UInt8} {s : PacketStore × ℤ} {c : ProcessCall}

/-- A call that ends no message, and for which there is space. -/
theorem reads_stage (h : Reads st a s) (hw : Delimited.Within 0 c.buffer) (hc : ¬ c.Ends)
    (hfit : ((a ++ c.buffer).length : ℤ) ≤ s.2) :
    (st.step c).1.1 = true ∧ (st.step c).1.2.filter (·.isStore) = [] ∧
      Reads (st.step c).2 (a ++ c.buffer) s := by
  have h0 := zero_notMem_of_not_ends hw hc
  have hrem := h.remaining
  rw [List.length_append] at hfit
  push_cast at hfit
  obtain ⟨hstep, hs'⟩ := step_stage h.inv h.staged h0 (by omega)
  rw [hstep]
  refine ⟨rfl, rfl, stage_inv h.inv (by omega), hs', ?_, h.store, ?_⟩
  · rw [List.mem_append, not_or]
    exact ⟨h.nonzero, h0⟩
  · rw [List.length_append]
    simp only [stage]
    omega

/-- **A call that ends a message** does what the message does. -/
theorem reads_finish (h : Reads st a s) (hw : Delimited.Within 0 c.buffer) (hc : c.Ends)
    {m : Inbound} (hbody : m.body = a ++ c.buffer.dropLast)
    (hbyte : m.byte = c.stack (Stuffing.unstuff m.body).length) (hfit : m.Fits s) :
    (st.step c).1.1 = (messageStep s m).1.1 ∧
      (st.step c).1.2.filter (·.isStore) = (messageStep s m).1.2 ∧
      Reads (st.step c).2 [] (messageStep s m).2 := by
  have hrem := h.remaining
  have hlen : (c.buffer.dropLast.length + 1 : ℤ) ≤ st.rxBufferRemaining := by
    rw [Inbound.Fits, hbody, List.length_append] at hfit
    push_cast at hfit
    omega
  have hclen : c.buffer.length = c.buffer.dropLast.length + 1 := by
    have := congrArg List.length hc.buffer_eq
    rwa [List.length_append, List.length_singleton] at this
  obtain ⟨hstr, hstep⟩ := step_finish h.inv h.staged h.nonzero hw hc.buffer_eq hlen
  have hinv := (step_inv h.inv c).1
  have hdec : (st.stage c.buffer).decoded = Stuffing.unstuff m.body := by
    rw [decoded, Receiver.staged, hstr, hbody]
  have hparse : (st.stage c.buffer).parseStaged c.stack = s.1.receive m.packet := by
    rw [parseStaged_eq, parsedPacket_eq, hdec, ← hbyte, ← h.store]
    rfl
  have hes := receive_isStore s.1 m.packet
  rw [hstep] at hinv ⊢
  simp only [receiveMessage, hparse] at hinv ⊢
  refine ⟨rfl, ?_, hinv, .nil rfl, List.not_mem_nil, ?_, ?_⟩
  · simp only [List.filter_cons, Event.isStore, Bool.false_eq_true, if_false]
    exact hes
  · rw [messageStep]
    cases (s.1.receive m.packet).1.1 <;> rfl
  · rw [messageStep, hbody, List.length_append]
    cases (s.1.receive m.packet).1.1
    · simp only [Bool.false_eq_true, if_false, stage, List.length_nil]
      omega
    · rfl

end

/-- **The receiver runs like `messageStep`, on any bytes**, as long as each message finds the
    space it needs and no call reaches over the end of one: the calls that end a message return
    what the message returns, and the others true; the same packets are stored and the same
    buffers handed on, in the same order; and the same store is left. -/
theorem run_inbound : ∀ {cs : List ProcessCall} {st : Receiver} {a : List UInt8}
    {s : PacketStore × ℤ}, Reads st a s → (∀ c ∈ cs, Delimited.Within 0 c.buffer) →
    Machine.Along messageStep (fun s m => m.Fits s) s (inbound a cs) →
    ((unended a cs).length : ℤ) ≤ (Machine.run messageStep s (inbound a cs)).2.2 →
    let r := Machine.run step st cs
    let t := Machine.run messageStep s (inbound a cs)
    r.1.map (·.1) = returned cs (t.1.map (·.1)) ∧ storeEvents r.1 = t.1.flatMap (·.2) ∧
      Reads r.2 (unended a cs) t.2
  | [], _, _, _, h, _, _, _ => ⟨rfl, rfl, h⟩
  | c :: cs, st, a, s, h, hw, hfits, hopen => by
    rw [List.forall_mem_cons] at hw
    intro r t
    by_cases hc : c.Ends
    · have hin : inbound a (c :: cs) = ⟨a ++ c.buffer.dropLast,
          c.stack (Stuffing.unstuff (a ++ c.buffer.dropLast)).length⟩ :: inbound [] cs := if_pos hc
      have hun : unended a (c :: cs) = unended [] cs := if_pos hc
      rw [hin] at hfits hopen
      rw [hun, Machine.run_cons] at hopen
      obtain ⟨hret, hev, hnext⟩ := reads_finish h hw.1 hc rfl rfl hfits.1
      obtain ⟨hrets, hevs, hst⟩ := run_inbound hnext hw.2 hfits.2 hopen
      simp only [r, t, hin, hun, Machine.run_cons, List.map_cons, storeEvents_cons,
        List.flatMap_cons, hev, hevs]
      refine ⟨?_, trivial, hst⟩
      rw [returned, if_pos hc, hret, hrets]
      rfl
    · have hin : inbound a (c :: cs) = inbound (a ++ c.buffer) cs := if_neg hc
      have hun : unended a (c :: cs) = unended (a ++ c.buffer) cs := if_neg hc
      rw [hin] at hfits hopen
      rw [hun] at hopen
      have hfit : ((a ++ c.buffer).length : ℤ) ≤ s.2 := by
        rcases inbound_cases cs (a ++ c.buffer) with ⟨m, ms, hm, hpre⟩ | ⟨hnil, hpre⟩
        · rw [hm] at hfits
          have hle := hpre.length_le
          have hfit : (m.body.length + 1 : ℤ) ≤ s.2 := hfits.1
          omega
        · rw [hnil, Machine.run_nil] at hopen
          have hle := hpre.length_le
          dsimp only at hopen
          omega
      obtain ⟨hret, hev, hnext⟩ := reads_stage h hw.1 hc hfit
      obtain ⟨hrets, hevs, hst⟩ := run_inbound hnext hw.2 hfits hopen
      simp only [r, t, hin, hun, Machine.run_cons, List.map_cons, storeEvents_cons, hev, hevs]
      refine ⟨?_, rfl, hst⟩
      rw [returned, if_neg hc, hret, hrets]

/-- **A stream of any bytes**, from the start: what stands between its zeros is received, message
    by message. -/
theorem stream_received (rxHandler : Option FnPtr) (registry : Registry) {bodies : List (List UInt8)}
    {part : List UInt8} (hbodies : ∀ b ∈ bodies, 0 ∉ b) (hpart : 0 ∉ part) {cs : List ProcessCall}
    (hcs : cs.flatMap (·.buffer) = bodies.flatMap (· ++ [0]) ++ part)
    (hw : ∀ c ∈ cs, Delimited.Within 0 c.buffer)
    (hfits : Machine.Along messageStep (fun s m => m.Fits s)
      ((Receiver.init rxHandler registry).toPacketStore, rxBufferSize) (inbound [] cs))
    (hopen : (part.length : ℤ) ≤ (Machine.run messageStep
      ((Receiver.init rxHandler registry).toPacketStore, rxBufferSize) (inbound [] cs)).2.2) :
    let r := Machine.run step (.init rxHandler registry) cs
    let t := Machine.run messageStep
      ((Receiver.init rxHandler registry).toPacketStore, rxBufferSize) (inbound [] cs)
    (inbound [] cs).map (·.body) = bodies ∧ r.1.map (·.1) = returned cs (t.1.map (·.1)) ∧
      storeEvents r.1 = t.1.flatMap (·.2) ∧ Reads r.2 part t.2 := by
  obtain ⟨hmap, hun⟩ := inbound_stream hw hbodies hpart hcs
  have hrun := run_inbound (reads_init rxHandler registry) hw hfits (by rw [hun]; exact hopen)
  rw [hun] at hrun
  exact ⟨hmap, hrun⟩

/-- Bytes that are no packet, and then a packet of which the last byte is not read yet. -/
theorem stream_received_noise :
    let noise : List UInt8 := [2, 9, 0, 0, 1, 0]
    let part := Stuffing.stuff (delimit (buildPacket [1] 1 0 .firstLast).wire)
    let cs := noise.map (fun b => (⟨[b], List.cons_ne_nil _ _, fun _ => 0⟩ : ProcessCall)) ++
      ProcessCall.whole part
    let s := ((Receiver.init (some 5) .empty).toPacketStore, (rxBufferSize : ℤ))
    let t := Machine.run messageStep s (inbound [] cs)
    (inbound [] cs).map (·.body) = [[2, 9], [], [1]] ∧
      Reads (Machine.run step (.init (some 5) .empty) cs).2 part t.2 := by
  intro noise part cs s t
  obtain ⟨hmap, -, -, hst⟩ := @stream_received (some 5) .empty [[2, 9], [], [1]] part (by decide)
    (Stuffing.zero_notMem_stuff _) cs (by decide +kernel) (by decide +kernel) (by decide +kernel)
    (by decide +kernel)
  exact ⟨hmap, hst⟩

/-! ## Packets of any encoder -/

/-- Bytes that an encoder of the format makes of a packet, and for whose frame there is space. -/
structure PacketEncoding (v : List UInt8) (packet : Packet) : Prop where
  exists_fields : ∃ ws, Delimited (wireBytes ws) v ∧ WellTyped Packet.fields ws ∧
    structOf Packet.fields ws Packet.initZero = some packet
  length_le : v.length ≤ 31

theorem PacketEncoding.packetOf {v : List UInt8} {packet : Packet} (h : PacketEncoding v packet)
    (rest : PbIstream) : packetOf (v ++ rest) = some packet := by
  obtain ⟨ws, hv, ht, hs⟩ := h.exists_fields
  rw [PacketSerial.packetOf, hv.substream, Option.bind_some,
    pbDecode_wireBytes Packet.fields_wf Packet.fields_separate ht, hs]

theorem PacketEncoding.packet {v : List UInt8} {packet : Packet} (h : PacketEncoding v packet)
    {m : Inbound} (hm : m.body = Stuffing.stuff v) :
    m.packet = some packet ∧ m.body.length ≤ 32 := by
  have hlen := h.length_le
  rw [Inbound.packet, hm, Stuffing.unstuff_stuff, h.packetOf, Stuffing.length_stuff (by omega)]
  exact ⟨rfl, by omega⟩

/-- Messages with packets that are accepted always find space, and do what the packets do. -/
theorem run_messageStep_accepts {ms : List Inbound} {packets : List Packet}
    (h : List.Forall₂ (fun m packet => Inbound.packet m = some packet ∧ m.body.length ≤ 32) ms
      packets) : ∀ {st : PacketStore}, Machine.Along PacketStore.storePacket Accepts st packets →
    Machine.Along messageStep (fun s m => m.Fits s) (st, rxBufferSize) ms ∧
      Machine.run messageStep (st, rxBufferSize) ms =
        ((Machine.run PacketStore.storePacket st packets).1,
          ((Machine.run PacketStore.storePacket st packets).2, (rxBufferSize : ℤ))) := by
  induction h with
  | nil => intro st _; exact ⟨trivial, rfl⟩
  | @cons m packet ms packets hm _ ih =>
    rintro st ⟨hacc, haccs⟩
    have hstep : messageStep (st, rxBufferSize) m =
        ((st.storePacket packet).1, ((st.storePacket packet).2, (rxBufferSize : ℤ))) := by
      rw [messageStep, hm.1]
      exact Prod.ext rfl (Prod.ext rfl (if_pos hacc))
    obtain ⟨hfits, hrun⟩ := ih haccs
    have hfit : m.Fits (st, rxBufferSize) := by
      have hlen := hm.2
      simp only [Inbound.Fits, rxBufferSize, Packet.size]
      omega
    refine ⟨⟨hfit, ?_⟩, ?_⟩
    · rw [hstep]
      exact hfits
    · rw [Machine.run_cons, hstep, hrun]
      rfl

theorem returned_true : ∀ {cs : List ProcessCall} {rs : List Bool}, (∀ b ∈ rs, b = true) →
    ∀ b ∈ returned cs rs, b = true
  | [], _, _, b, hb => absurd hb List.not_mem_nil
  | c :: cs, rs, h, b, hb => by
    rw [returned] at hb
    split_ifs at hb
    · rcases List.mem_cons.1 hb with rfl | hb
      · rcases rs with _ | ⟨r, rs⟩
        · rfl
        · exact h r List.mem_cons_self
      · exact returned_true (fun b hb => h b (List.mem_of_mem_tail hb)) b hb
    · rcases List.mem_cons.1 hb with rfl | hb
      · rfl
      · exact returned_true h b hb

/-- Accepted packets return true. -/
theorem returns_of_accepts : ∀ {packets : List Packet} {st : PacketStore},
    Machine.Along PacketStore.storePacket Accepts st packets →
    ∀ b ∈ (Machine.run PacketStore.storePacket st packets).1.map (·.1), b = true
  | [], _, _, b, hb => absurd hb List.not_mem_nil
  | packet :: packets, st, ⟨hacc, haccs⟩, b, hb => by
    rcases List.mem_cons.1 hb with rfl | hb
    · exact hacc
    · exact returns_of_accepts haccs b hb

/-- **The packets of any encoder are received** where their frames and messages fit and the
    messages are taken, in any calls that stay within the frames: every call returns true, what
    the packets carry is handed on message by message, and the receiver ends between frames with
    all of its space. -/
theorem foreign_received (rxHandler : Option FnPtr) (registry : Registry) {vs : List (List UInt8)}
    {packets : List Packet} (h : List.Forall₂ PacketEncoding vs packets)
    (hmet : Machine.Along assemble (Reassembly.Met Packet.isLast Packet.bytes packetBufferSize
      (Takes rxHandler registry)) [] packets) {cs : List ProcessCall}
    (hcs : cs.flatMap (·.buffer) = vs.flatMap fun v => Stuffing.stuff v ++ [0])
    (hw : ∀ c ∈ cs, Delimited.Within 0 c.buffer) :
    let r := Machine.run step (.init rxHandler registry) cs
    (∀ o ∈ r.1, o.1 = true) ∧
      Handed rxHandler registry (r.1.flatMap (·.2))
        (Reassembly.delivered Packet.isLast Packet.bytes [] packets) ∧
      HeldBy r.2.toPacketStore (Machine.run assemble [] packets).2 ∧
      r.2.pRxBuffer = 0 ∧ r.2.rxBufferRemaining = rxBufferSize := by
  intro r
  have hstuff : ∀ b ∈ vs.map Stuffing.stuff, (0 : UInt8) ∉ b := by
    intro b hb
    obtain ⟨v, -, rfl⟩ := List.mem_map.1 hb
    exact Stuffing.zero_notMem_stuff v
  obtain ⟨hbodies, hopen⟩ := inbound_stream hw hstuff List.not_mem_nil
    (by rw [hcs, List.flatMap_map, List.append_nil])
  have hms : List.Forall₂ (fun m packet => Inbound.packet m = some packet ∧ m.body.length ≤ 32)
      (inbound [] cs) packets := by
    have hleft : List.Forall₂ (fun m v => Inbound.body m = Stuffing.stuff v) (inbound [] cs) vs := by
      rw [← List.forall₂_eq_eq_eq, List.forall₂_map_left_iff, List.forall₂_map_right_iff] at hbodies
      exact hbodies
    exact Machine.forall₂_trans (fun m v packet hm hv => hv.packet hm) hleft h
  obtain ⟨hacc, hhanded, hheld, -, -⟩ := run_handed (heldBy_init rxHandler registry) rfl rfl hmet
  obtain ⟨hfits, hrun⟩ := run_messageStep_accepts hms hacc
  obtain ⟨hret, hev, hst⟩ := run_inbound (reads_init rxHandler registry) hw hfits
    (by rw [hopen, hrun]; simp)
  rw [hrun] at hret hev hst
  rw [hopen] at hst
  have hrem := hst.remaining
  refine ⟨fun o ho => ?_, ?_, ?_, hst.staged.pointer, by simpa using hrem⟩
  · have hall := @returned_true cs _ (returns_of_accepts hacc)
    dsimp only at hret
    rw [← hret] at hall
    exact hall o.1 (List.mem_map_of_mem ho)
  · rw [← handed_storeEvents, hev]
    exact hhanded
  · rw [hst.store]
    exact hheld

theorem packetEncoding_strangePacket : PacketEncoding ([15] ++ wireBytes strangePacket)
    ⟨.ofList [104, 105], 5, 9, 3⟩ where
  exists_fields := by
    refine ⟨strangePacket, ⟨⟨[15], ⟨.last (b := 15) (by decide), by decide⟩, rfl⟩, by decide⟩, ?_,
      by decide +kernel⟩
    intro w hw i f hf
    simp only [strangePacket, List.mem_cons, List.not_mem_nil, or_false] at hw
    rcases hw with rfl | rfl | rfl | rfl | rfl | rfl <;> cases hf <;> rfl
  length_le := by decide

theorem foreign_received_strangePacket :
    let cs := ProcessCall.byteAtATime (Stuffing.stuff ([15] ++ wireBytes strangePacket) ++ [0])
    let r := Machine.run step (.init (some 5) .empty) cs
    (∀ o ∈ r.1, o.1 = true) ∧
      Handed (some 5) .empty (r.1.flatMap (·.2)) [[104, 105]] ∧
      HeldBy r.2.toPacketStore [] ∧ r.2.pRxBuffer = 0 ∧ r.2.rxBufferRemaining = rxBufferSize := by
  intro cs
  exact @foreign_received (some 5) .empty _ _ (.cons packetEncoding_strangePacket .nil)
    ⟨⟨by decide, fun _ h => by cases h⟩, trivial⟩ cs
    ((ProcessCall.flatMap_byteAtATime _).trans (List.flatMap_singleton _ _).symm)
    (by decide +kernel)

end PacketSerial

/-
  How the stream is cut into calls of `process`.

  * `frameStep`: what a frame does, whatever chunks it comes in: to the store, and to
    the space that is left in the staging buffer;
  * `run_divided`: the receiver runs like that machine, as long as every frame finds
    the space it needs;
  * `receiving_independent_of_cuts`: so two ways to cut a stream have the same effect,
    when no chunk reaches over the end of a frame.
-/
import PacketSerial.Lib.Delimited
import PacketSerial.Sender

namespace PacketSerial

open Receiver

/-! ## Frames and the space they need -/

/-- The frame of a packet, received from a state with the pointer at the start: the
    store, and `rx_buffer_remaining`. -/
def frameStep (s : PacketStore × ℤ) (packet : Packet) : (Bool × List Event) × (PacketStore × ℤ) :=
  let r := s.1.storePacket packet
  (r.1, (r.2, if r.1.1 then rxBufferSize else s.2 - packet.frame.length))

/-- There is space for the frame. -/
def FrameFits (s : PacketStore × ℤ) (packet : Packet) : Prop := (packet.frame.length : ℤ) ≤ s.2

instance (s : PacketStore × ℤ) (packet : Packet) : Decidable (FrameFits s packet) :=
  inferInstanceAs (Decidable (_ ≤ _))

/-- The pointer is at the start, and the rest is as in `s`. -/
structure BetweenFrames (st : Receiver) (s : PacketStore × ℤ) : Prop where
  inv : StagingInv st
  pointer : st.pRxBuffer = 0
  store : st.toPacketStore = s.1
  remaining : st.rxBufferRemaining = s.2

theorem betweenFrames_init (rxHandler : Option FnPtr) (registry : Registry) :
    BetweenFrames (.init rxHandler registry)
      ((Receiver.init rxHandler registry).toPacketStore, rxBufferSize) :=
  ⟨stagingInv_init _ _, rfl, rfl, rfl⟩

theorem run_inv {st : Receiver} (h : StagingInv st) (cs : List ProcessCall) :
    StagingInv (Machine.run step st cs).2 := by
  have hstep : ∀ st c, StagingInv st → StagingInv (step st c).2 := fun _ c h => (step_inv h c).1
  exact Machine.run_invariant hstep h

/-- One frame for which there is space. -/
theorem feed_frame_fits {st : Receiver} {s : PacketStore × ℤ} (h : BetweenFrames st s)
    {cs : List ProcessCall} {packet : Packet} (hd : Divides cs packet) (hfit : FrameFits s packet) :
    storeEvents (Machine.run step st cs).1 = (frameStep s packet).1.2 ∧
      (Machine.run step st cs).1.all (·.1) = (frameStep s packet).1.1 ∧
      BetweenFrames (Machine.run step st cs).2 (frameStep s packet).2 := by
  have hf := feed_frame hd.1 h.inv h.pointer (h.remaining ▸ hfit) hd.2
  have hrem := hf.remaining
  rw [h.store, h.remaining] at hrem
  refine ⟨?_, ?_, run_inv h.inv _, hf.pointer, ?_, hrem⟩
  · rw [hf.events, h.store]; rfl
  · rw [hf.all_returns, h.store]; rfl
  · rw [hf.store, h.store]; rfl

/-- **Fed with frames for which there is space, the receiver runs like `frameStep`.** -/
theorem run_divided {css : List (List ProcessCall)} {ps : List Packet}
    (hd : List.Forall₂ Divides css ps) {st : Receiver} {s : PacketStore × ℤ}
    (h : BetweenFrames st s) (hfit : Machine.Along frameStep FrameFits s ps) :
    List.Forall₂ (fun outs o => storeEvents outs = o.2)
        (Machine.run (Machine.run step) st css).1 (Machine.run frameStep s ps).1 ∧
      BetweenFrames (Machine.run (Machine.run step) st css).2 (Machine.run frameStep s ps).2 := by
  have hstep : ∀ (st : Receiver) (s : PacketStore × ℤ) cs packet, BetweenFrames st s →
      Divides cs packet → FrameFits s packet →
      storeEvents (Machine.run step st cs).1 = (frameStep s packet).1.2 ∧
        BetweenFrames (Machine.run step st cs).2 (frameStep s packet).2 :=
    fun st s cs packet hst hd hfit =>
      ⟨(feed_frame_fits hst hd hfit).1, (feed_frame_fits hst hd hfit).2.2⟩
  exact Machine.run_simulates (R := BetweenFrames)
    (O := fun (outs : List (Bool × List Event)) (o : Bool × List Event) => storeEvents outs = o.2)
    hstep hd h hfit

/-- There is space for every frame as long as no packet is rejected. -/
theorem frameFits_of_accepts {ps : List Packet} (hps : ∀ packet ∈ ps, packet.WF) :
    ∀ {store : PacketStore}, Machine.Along PacketStore.storePacket Accepts store ps →
    Machine.Along frameStep FrameFits (store, rxBufferSize) ps := by
  induction ps with
  | nil => intro store _; trivial
  | cons packet ps ih =>
    rintro store ⟨ha, hs⟩
    have hl := Packet.length_frame_le (hps packet List.mem_cons_self)
    have hnext : (frameStep (store, rxBufferSize) packet).2 =
        ((store.storePacket packet).2, (rxBufferSize : ℤ)) := Prod.ext rfl (if_pos ha)
    refine ⟨?_, ?_⟩
    · simp only [FrameFits, rxBufferSize, Packet.size]; omega
    · rw [hnext]
      exact ih (fun q hq => hps q (List.mem_cons_of_mem _ hq)) hs

/-! ## Streams of bytes -/

theorem isFrame_encodePacket {packet : Packet} (h : packet.WF) :
    Delimited.IsFrame 0 (encodePacket packet) :=
  ⟨_, encodePacket_eq h, Packet.zero_notMem_stuff⟩

/-- Calls that stay within the frames of a stream are a division of it. -/
theorem exists_divides {ps : List Packet} (hps : ∀ packet ∈ ps, packet.WF) {cs : List ProcessCall}
    (hcs : cs.flatMap (·.buffer) = ps.flatMap encodePacket)
    (hw : ∀ c ∈ cs, Delimited.Within 0 c.buffer) :
    ∃ css : List (List ProcessCall), css.flatten = cs ∧ List.Forall₂ Divides css ps := by
  have hf : ∀ frame ∈ ps.map encodePacket, Delimited.IsFrame (0 : UInt8) frame := by
    intro frame hm
    obtain ⟨packet, hp, rfl⟩ := List.mem_map.1 hm
    exact isFrame_encodePacket (hps packet hp)
  rw [List.flatMap_def] at hcs
  obtain ⟨css, hflat, hcss⟩ := Delimited.exists_division hf (fun c _ => c.nonempty) hw hcs
  rw [List.forall₂_map_right_iff] at hcss
  exact ⟨css, hflat, divides_of_framed hcss hps⟩

/-- A stream of frames for which there is space, in calls that stay within the frames. -/
theorem run_stream {ps : List Packet} (hps : ∀ packet ∈ ps, packet.WF) {cs : List ProcessCall}
    (hcs : cs.flatMap (·.buffer) = ps.flatMap encodePacket)
    (hw : ∀ c ∈ cs, Delimited.Within 0 c.buffer) {st : Receiver} {s : PacketStore × ℤ}
    (h : BetweenFrames st s) (hfit : Machine.Along frameStep FrameFits s ps) :
    storeEvents (Machine.run step st cs).1 = (Machine.run frameStep s ps).1.flatMap (·.2) ∧
      BetweenFrames (Machine.run step st cs).2 (Machine.run frameStep s ps).2 := by
  obtain ⟨css, rfl, hd⟩ := exists_divides hps hcs hw
  obtain ⟨houts, hst⟩ := run_divided hd h hfit
  rw [Machine.run_flatten]
  refine ⟨?_, hst⟩
  rw [storeEvents_flatten]
  have hmap : (Machine.run (Machine.run step) st css).1.map storeEvents =
      (Machine.run frameStep s ps).1.map (·.2) := by
    rw [← List.forall₂_eq_eq_eq, List.forall₂_map_left_iff, List.forall₂_map_right_iff]
    exact houts
  rw [List.flatMap_def, List.flatMap_def, hmap]

/-- **Receiving does not depend on how the stream is cut**, as long as no call reaches
    over the end of a frame and every frame finds the space it needs: the same packets
    are stored and the same buffers delivered, in the same order, and the same state is
    left. -/
theorem receiving_independent_of_cuts (rxHandler : Option FnPtr) (registry : Registry)
    {ps : List Packet} (hps : ∀ packet ∈ ps, packet.WF)
    (hfit : Machine.Along frameStep FrameFits
      ((Receiver.init rxHandler registry).toPacketStore, rxBufferSize) ps)
    {cs cs' : List ProcessCall} (hcs : cs.flatMap (·.buffer) = ps.flatMap encodePacket)
    (hcs' : cs'.flatMap (·.buffer) = ps.flatMap encodePacket)
    (hw : ∀ c ∈ cs, Delimited.Within 0 c.buffer) (hw' : ∀ c ∈ cs', Delimited.Within 0 c.buffer) :
    let r := Machine.run step (.init rxHandler registry) cs
    let r' := Machine.run step (.init rxHandler registry) cs'
    storeEvents r.1 = storeEvents r'.1 ∧ r.2.toPacketStore = r'.2.toPacketStore ∧
      r.2.pRxBuffer = r'.2.pRxBuffer ∧ r.2.rxBufferRemaining = r'.2.rxBufferRemaining := by
  have hinit := betweenFrames_init rxHandler registry
  obtain ⟨hev, hst⟩ := run_stream hps hcs hw hinit hfit
  obtain ⟨hev', hst'⟩ := run_stream hps hcs' hw' hinit hfit
  exact ⟨hev.trans hev'.symm, hst.store.trans hst'.store.symm, hst.pointer.trans hst'.pointer.symm,
    hst.remaining.trans hst'.remaining.symm⟩

theorem receiving_independent_of_cuts_twoPackets :
    let stream := twoPackets.flatMap encodePacket
    storeEvents (Machine.run step (.init (some 5) .empty) (ProcessCall.byteAtATime stream)).1 =
      storeEvents (Machine.run step (.init (some 5) .empty)
        (twoPackets.flatMap fun p => ProcessCall.whole (encodePacket p))).1 := by
  intro stream
  have hps : ∀ packet ∈ twoPackets, packet.WF := by simp [twoPackets, buildPacket_wf]
  have hfit := frameFits_of_accepts hps
    (along_accepts twoPackets (rfl : (init (some 5) .empty).rxHandler = some 5))
  exact (receiving_independent_of_cuts (some 5) .empty hps hfit
    (ProcessCall.flatMap_byteAtATime stream) (by decide +kernel) (by decide +kernel)
    (by decide +kernel)).1

/-! ## Cuts that matter -/

/-- What `send` hands over for a payload. -/
def sentFrames (payload : List UInt8) : List UInt8 :=
  (send (some recordFrames) payload payload.length []).world.flatten

/-- A payload that looks like the beginning of a frame, from its twelfth byte on. -/
def nestedPayload : List UInt8 := List.replicate 11 8 ++ [0, 8, 10, 0]

/-- Two messages in one call: only the first is received.  And with little space left
    after a message that was rejected, the end of a frame is taken for a frame or not,
    depending on how it is cut. -/
theorem cuts_matter :
    (let frames := [sentFrames [7], sentFrames [8]]
     rxHandlerCalls ((Machine.run step (.init (some 5) .empty)
        (frames.flatMap ProcessCall.whole)).1.flatMap (·.2)) = [(5, padded [7]), (5, padded [8])] ∧
     rxHandlerCalls ((Machine.run step (.init (some 5) .empty)
        (ProcessCall.whole frames.flatten)).1.flatMap (·.2)) = [(5, padded [7])]) ∧
    (let rejected := sentFrames (List.replicate 10 3)
     let frame := sentFrames nestedPayload
     handedBuffers ((Machine.run step (.init none .empty)
        ([rejected, frame].flatMap ProcessCall.byteAtATime)).1.flatMap (·.2)) =
        [padded (List.replicate 10 3)] ∧
     handedBuffers ((Machine.run step (.init none .empty)
        ([rejected, frame.take 15, frame.drop 15].flatMap ProcessCall.whole)).1.flatMap (·.2)) =
        [padded (List.replicate 10 3), padded []]) := by
  decide +kernel

end PacketSerial

/-
  The byte of `decoded_data_array` that nobody writes, and messages that do not depend on it.

  The parser gets to that byte where the length in front of a packet counts it in
  (`onlyReceivedBytes_of_sameEffect`).  It still decides nothing:

  * `onlyReceivedBytes_of_length`: in a message that is too short for a packet;
  * `onlyReceivedBytes_of_skipped`: at the end of a field that `Packet` does not have;
  * `onlyReceivedBytes_of_refused`: in a last packet that nobody takes.
-/
import PacketSerial.Deframing
import PacketSerial.MessageFields
import PacketSerial.Starving

namespace PacketSerial

open Receiver

theorem PacketStore.sameEffect_refl (st : PacketStore) (r : Option Packet) : st.SameEffect r r :=
  (st.observed_receive_iff r r).1 rfl

section
variable {st : Receiver} {body : List UInt8}

/-! ## No packet -/

theorem pbDecode_packet_short {stream : PbIstream} (h : stream.length < 8) :
    pbDecode Packet.fields stream Packet.initZero = none := by
  rw [Option.eq_none_iff_forall_ne_some]
  intro packet hdec
  exact absurd (pbDecode_packet_length hdec) (not_le.2 h)

/-- Nothing is decoded from a message of fewer than nine bytes, whatever the last one is. -/
theorem onlyReceivedBytes_of_length (h : (st.stage (body ++ [0])).staged.length < 9) :
    OnlyReceivedBytes st (body ++ [0]) := by
  refine onlyReceivedBytes_of_sameEffect fun w hw j => ?_
  have hrest := pbDecodeVarint32_length hw
  have hdecoded := (st.stage (body ++ [0])).length_decoded_le
  have hshort : ∀ b, pbDecode Packet.fields (w ++ [b]) Packet.initZero = none := by
    intro b
    refine pbDecode_packet_short ?_
    rw [List.length_append, List.length_singleton]
    omega
  rw [hshort, hshort]
  exact PacketStore.sameEffect_refl _ _

/-! ## Fields that are skipped -/

/-- A field that the table does not have can end in any byte. -/
theorem wellTyped_skipped {ws : List WireField} (ht : WellTyped Packet.fields ws) {w : WireField}
    (hskip : ∀ f ∈ Packet.fields, w.tag ≠ f.tag) : WellTyped Packet.fields (ws ++ [w]) := by
  intro w' hw i f hf
  rcases List.mem_append.1 hw with hw | hw
  · exact ht w' hw i f hf
  · obtain rfl := List.mem_singleton.1 hw
    obtain ⟨-, -, -, htag, -⟩ := exists_of_find hf
    exact absurd htag.symm (hskip f (pbFieldIterFind_mem hf))

theorem filter_skipped (ws : List WireField) {w : WireField} {tag : ℕ} (h : w.tag ≠ tag) :
    (ws ++ [w]).filter (fun w => w.tag = tag) = ws.filter fun w => w.tag = tag := by
  rw [List.filter_append, List.filter_singleton, decide_eq_false h]
  exact List.append_nil _

/-- The byte ends a field that `packet_parser` skips. -/
theorem onlyReceivedBytes_of_skipped {ws : List WireField} (ht : WellTyped Packet.fields ws)
    {part : List UInt8} {last : UInt8 → WireField} (hlast : ∀ j, (last j).bytes = part ++ [j])
    (hskip : ∀ j, ∀ f ∈ Packet.fields, (last j).tag ≠ f.tag)
    (h : ∀ w, pbDecodeVarint32 (st.stage (body ++ [0])).decoded = (some (w.length + 1), w) →
      w = wireBytes ws ++ part) : OnlyReceivedBytes st (body ++ [0]) := by
  refine onlyReceivedBytes_of_sameEffect fun w hw j => ?_
  have hbytes : ∀ b, w ++ [b] = wireBytes (ws ++ [last b]) := by
    intro b
    rw [h w hw, List.append_assoc, ← hlast, wireBytes, wireBytes, List.flatMap_append,
      List.flatMap_singleton]
  have hsame : pbDecode Packet.fields (w ++ [j]) Packet.initZero =
      pbDecode Packet.fields (w ++ [0]) Packet.initZero := by
    rw [hbytes, hbytes]
    refine decode_same_fields Packet.fields_wf Packet.fields_separate
      (wellTyped_skipped ht (hskip j)) (wellTyped_skipped ht (hskip 0)) (fun f hf => ?_) _
    rw [filter_skipped ws (hskip j f hf), filter_skipped ws (hskip 0 f hf)]
  rw [hsame]
  exact PacketStore.sameEffect_refl _ _

/-- Four bytes of a field that `Packet` does not have. -/
def fourBytes (last : UInt8) : WireField where
  key := [77]
  wireType := .bit32
  tag := 9
  value := [1, 1, 1, last]
  tag_pos := by decide
  tag_lt := by decide
  key_numeral := ⟨.last (b := 77) (by decide), by decide⟩
  complete := .bit32 rfl

/-- A packet with such a field at its end, but for the last byte. -/
def skippedTail : List UInt8 := [20] ++ (wireBytes strangePacket ++ [77, 1, 1, 1])

theorem skippedTail_onlyReceivedBytes (rxHandler : Option FnPtr) (registry : Registry) :
    OnlyReceivedBytes (.init rxHandler registry) (Stuffing.stuff skippedTail ++ [0]) := by
  let c : ProcessCall := ⟨Stuffing.stuff skippedTail ++ [0], by simp, fun _ => 0⟩
  have hlen : ((Stuffing.stuff skippedTail).length + 1 : ℤ) ≤ rxBufferSize := by decide +kernel
  have hstaged : ((Receiver.init rxHandler registry).stage
      (Stuffing.stuff skippedTail ++ [0])).staged = Stuffing.stuff skippedTail :=
    (step_finish (c := c) (stagingInv_init rxHandler registry) (.nil rfl) List.not_mem_nil
      (Stuffing.zero_notMem_stuff _) rfl hlen).1
  have htyped : WellTyped Packet.fields strangePacket := by
    intro w hw i f hf
    simp only [strangePacket, List.mem_cons, List.not_mem_nil, or_false] at hw
    rcases hw with rfl | rfl | rfl | rfl | rfl | rfl <;> cases hf <;> rfl
  have hskip : ∀ f ∈ Packet.fields, 9 ≠ f.tag := by decide
  refine @onlyReceivedBytes_of_skipped _ _ strangePacket htyped [77, 1, 1, 1] fourBytes
    (fun _ => rfl) (fun _ => hskip) fun w hw => ?_
  rw [decoded, hstaged, Stuffing.unstuff_stuff] at hw
  exact (congrArg Prod.snd hw).symm

/-! ## Packets that are refused -/

/-- Without handlers, `unmarshal` takes nothing. -/
theorem PacketStore.dispatch_of_no_handlers {store : PacketStore}
    (h : ∀ type, store.registry.findHandler type = none) (packet : Packet) :
    store.dispatch packet = (false, []) := by
  rw [dispatch, PacketSerial.unmarshal, unmarshalWith_eq]
  rcases messageOf (store.append packet).packetBuffer.bytes packetBufferSize true with _ | msg
  · rfl
  · rw [Option.elim_some, unmarshalLookupCallback, h]

/-- A packet with a last flag leaves no trace where no handler takes it and nothing is held,
    which is what it does where it is not decoded. -/
theorem onlyReceivedBytes_of_refused (hrx : st.rxHandler = none)
    (hreg : ∀ type, st.registry.findHandler type = none)
    (hclear : st.packetBuffer = .zero packetBufferSize ∧ st.packetBufferOffset = 0)
    (h : ∀ w, pbDecodeVarint32 (st.stage (body ++ [0])).decoded = (some (w.length + 1), w) →
      ∀ j packet, pbDecode Packet.fields (w ++ [j]) Packet.initZero = some packet →
        packet.isLast = true) : OnlyReceivedBytes st (body ++ [0]) := by
  refine onlyReceivedBytes_of_sameEffect fun w hw j => ?_
  have hnone := @PacketStore.dispatch_of_no_handlers st.toPacketStore hreg
  have heffect : ∀ b, observed (st.toPacketStore.receive
      (pbDecode Packet.fields (w ++ [b]) Packet.initZero)) = (false, [], st.toPacketStore) := by
    intro b
    rcases hdec : pbDecode Packet.fields (w ++ [b]) Packet.initZero with _ | packet
    · exact PacketStore.observed_none _
    · exact (PacketStore.refuses_iff _ _).2
        ⟨h w hw b packet hdec, hrx, hnone packet, hclear.1, hclear.2⟩
  exact (PacketStore.observed_receive_iff _ _ _).1 ((heffect j).trans (heffect 0).symm)

end

end PacketSerial

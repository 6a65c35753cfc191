/-
  The hex dumps that `send` and `process` write for their log.

  * `sendHexDumps`, `Receiver.hexDumps`: the arrays on the stack that the dumps go to, and
    the writes;
  * `sendHexDumps_inBounds`: those of `send` stay inside, since the last two bytes of a
    packet, and of its frame before the zero, are small;
  * `hexDumps_inBounds_iff`: those of `process` do not for chunks of one byte, nor for bytes
    from 0x80 on near the end of a short chunk or of a message.
-/
import PacketSerial.Hexhelper
import PacketSerial.Sender

namespace PacketSerial

open Memory

/-- An array for a dump, and what is written to it. -/
structure HexDump where
  size : ℕ
  writes : List (Write UInt8)

def HexDump.InBounds (dump : HexDump) : Prop := ∀ w ∈ dump.writes, w.Within dump.size

instance (dump : HexDump) : Decidable dump.InBounds :=
  inferInstanceAs (Decidable (∀ w ∈ dump.writes, w.Within dump.size))

/-! ## Sending -/

/-- The two dumps of `send` for a packet: they go to `hex_str`, one after the other. -/
def sendHexDumps (packet : Packet) : List HexDump :=
  let m := marshal packet Packet.fields Packet.size true
  let unencodedBuffer := (Buffer.zero Packet.size).memcpy 0 m.2
  let result := cobsEncode (Buffer.zero (Packet.size + 1)).bytes (unencodedBuffer.bytes.take m.1)
  let encodedSize := result.outLen + 1
  let encodedBuffer := result.dst.set (encodedSize - 1) 0
  [⟨encodedSize * 2 + 1, string2hexstring unencodedBuffer.bytes⟩,
    ⟨encodedSize * 2 + 1, string2hexstring encodedBuffer⟩]

theorem cstr_append_cons_zero (l r : List UInt8) : cstr (l ++ 0 :: r) = cstr l := by
  induction l with
  | nil => rfl
  | cons b l ih =>
    by_cases hb : b = 0
    · simp [cstr, hb]
    · simpa [cstr, hb] using ih

/-- A byte from 0x80 on stands before the last two bytes, when these are small. -/
theorem lt_length_of_high {pre : List UInt8} {t f c : UInt8} {k : ℕ} (ht : t.toNat < 128)
    (hf : f.toNat < 128) (hk : (pre ++ [t, f])[k]? = some c) (hc : 128 ≤ c.toNat) :
    k < pre.length := by
  by_contra hge
  rw [List.getElem?_append_right (not_lt.1 hge)] at hk
  rcases hj : k - pre.length with _ | _ | j <;> rw [hj] at hk
  · cases hk; omega
  · cases hk; omega
  · cases hk

/-- A dump has room when the last two bytes are small and two places are spare. -/
theorem string2hexstring_within {input l pre : List UInt8} {t f : UInt8} {size : ℕ}
    (hl : l = pre ++ [t, f]) (h : cstr input <+: l) (ht : t.toNat < 128) (hf : f.toNat < 128)
    (hsize : 2 * (l.length + 1) < size) (hlen : l.length < 2 ^ 29) :
    ∀ w ∈ string2hexstring input, w.Within size := by
  have hle := h.length_le
  have hpre : l.length = pre.length + 2 := by rw [hl, List.length_append]; rfl
  rw [string2hexstring_within_iff (by omega)]
  refine ⟨by omega, fun k c hk hc => ?_⟩
  have hk' : l[k]? = some c := by
    obtain ⟨rest, hrest⟩ := h
    rw [← hrest, List.getElem?_append_left (List.getElem?_eq_some_iff.1 hk).1, hk]
  rw [hl] at hk'
  have hlt := lt_length_of_high ht hf hk' hc
  omega

/-- The last two bytes of a packet are the tag of its flag and the flag. -/
theorem Packet.WF.delimit_last {packet : Packet} (h : packet.WF) :
    ∃ pre f, delimit packet.wire = pre ++ [0x20, f] ∧ f.toNat < 128 := by
  have hflag := h.flag_lt
  refine ⟨Varint.encode packet.wire.length ++ (bytesWire 1 packet.data.bytes ++
    (uint8Wire 2 packet.sequenceNumber ++ uint8Wire 3 packet.crc)),
    UInt8.ofNat packet.flag.toNat, ?_, ?_⟩
  · have hlast : uint32Wire 4 packet.flag = [0x20, UInt8.ofNat packet.flag.toNat] := by
      rw [uint32Wire, fieldWire, Varint.encode_of_lt (by omega), Varint.encode_of_lt hflag]
      rfl
    have hwire : packet.wire = (bytesWire 1 packet.data.bytes ++
        (uint8Wire 2 packet.sequenceNumber ++ uint8Wire 3 packet.crc)) ++
          [0x20, UInt8.ofNat packet.flag.toNat] := by
      rw [Packet.wire, hlast, List.append_assoc, List.append_assoc]
    rw [delimit, List.append_assoc, ← hwire]
  · rw [UInt8.toNat_ofNat']
    omega

/-- The dump of the packet. -/
theorem dump_packet_within {packet : Packet} (h : packet.WF) {size : ℕ}
    (hsize : 2 * ((delimit packet.wire).length + 2) < size) :
    ∀ w ∈ string2hexstring ((Buffer.zero Packet.size).memcpy 0 (delimit packet.wire)).bytes,
      w.Within size := by
  obtain ⟨pre, f, hlast, hf⟩ := h.delimit_last
  have hd := h.length_delimit
  have hs : packet.data.size ≤ 16 := packet.data.size_le
  have hbytes := (Buffer.zero Packet.size).bytes_memcpy 0 (delimit packet.wire)
    (by rw [Packet.size]; omega)
  have hzeros : (List.replicate Packet.size (0 : UInt8)).drop (0 + (delimit packet.wire).length) =
      0 :: List.replicate (Packet.size - 1 - (delimit packet.wire).length) 0 := by
    rw [List.drop_replicate, ← List.replicate_succ]
    congr 1
    rw [Packet.size]
    omega
  rw [Buffer.bytes_zero, List.take_zero, List.nil_append, hzeros] at hbytes
  refine string2hexstring_within hlast ?_ (by decide) hf (by omega) (by omega)
  rw [hbytes, cstr_append_cons_zero]
  exact List.takeWhile_prefix _

/-- The dump of its frame. -/
theorem dump_frame_within {packet : Packet} (h : packet.WF) (rest : List UInt8) {size : ℕ}
    (hsize : 2 * ((delimit packet.wire).length + 2) < size) :
    ∀ w ∈ string2hexstring (Stuffing.stuff (delimit packet.wire) ++ 0 :: rest), w.Within size := by
  obtain ⟨pre, f, hlast, hf⟩ := h.delimit_last
  have hd := h.length_delimit
  have hs : packet.data.size ≤ 16 := packet.data.size_le
  have hl := h.length_stuff.1
  have hlen := congrArg List.length hlast
  rw [List.length_append] at hlen
  obtain ⟨pre', hstuff⟩ := @Stuffing.stuffFrom_last_two 0x20 f (by decide) pre []
    (by rw [List.length_nil]; omega)
  rw [← hlast] at hstuff
  have hf' : (if f = 0 then 1 else f).toNat < 128 := by
    split_ifs
    · decide
    · exact hf
  rw [← Stuffing.stuff] at hstuff
  refine string2hexstring_within hstuff ?_ (by decide) hf' (by omega) (by omega)
  rw [cstr_append_cons_zero]
  exact List.takeWhile_prefix _

/-- **The dumps of `send` stay inside `hex_str`.** -/
theorem sendHexDumps_inBounds {packet : Packet} (h : packet.WF) :
    ∀ dump ∈ sendHexDumps packet, dump.InBounds := by
  obtain ⟨rest, henc, -⟩ := cobsEncode_packet h
  have hl := h.length_stuff.1
  intro dump hdump
  rw [sendHexDumps] at hdump
  simp only [henc, Nat.add_sub_cancel, set_append_cons] at hdump
  rw [marshal_packet h] at hdump
  have hsize : 2 * ((delimit packet.wire).length + 2) <
      ((Stuffing.stuff (delimit packet.wire)).length + 1) * 2 + 1 := by
    rw [hl]
    omega
  rcases List.mem_pair.1 hdump with rfl | rfl
  · exact dump_packet_within h hsize
  · exact dump_frame_within h rest hsize

/-! ## Receiving -/

namespace Receiver

/-- The dumps of `process`: `hex_str` for the bytes of the call, and `full_buffer_hex_str`
    for the message that they complete. -/
def hexDumps (st : Receiver) (buffer : List UInt8) : List HexDump :=
  ⟨buffer.length * 2 + 1, stringn2hexstring buffer buffer.length⟩ ::
    if buffer.length > st.remainingSize then []
    else
      let st := st.stage buffer
      if buffer.getLast? = some 0 then
        [⟨st.rxBuffer.strlen * 2 + 1, string2hexstring st.rxBuffer.bytes⟩]
      else []

/-- What has room in the dumps of `process`: two bytes or more, with the bytes from 0x80 on
    that are looked at eight places before the end; and a message without such bytes among
    its last three. -/
structure DumpsFit (st : Receiver) (buffer : List UInt8) : Prop where
  two_le : 2 ≤ buffer.length
  le_int : buffer.length ≤ 2 ^ 31 - 2
  chunk : ∀ (k : ℕ) (c : UInt8), buffer[k]? = some c → 3 * k < buffer.length → 128 ≤ c.toNat →
    3 * k + 8 ≤ 2 * buffer.length
  message : buffer.length ≤ st.remainingSize → buffer.getLast? = some 0 →
    ∀ c ∈ (st.stage buffer).staged.drop ((st.stage buffer).staged.length - 3), c.toNat < 128

end Receiver

open Receiver

/-- The dump of a message. -/
theorem dump_staged_within_iff (st : Receiver) :
    (∀ w ∈ string2hexstring st.rxBuffer.bytes, w.Within (st.rxBuffer.strlen * 2 + 1)) ↔
      ∀ c ∈ st.staged.drop (st.staged.length - 3), c.toNat < 128 := by
  have hlen := st.length_staged
  rw [string2hexstring_within_iff (by rw [← staged]; omega), ← staged, Buffer.strlen, ← staged]
  constructor
  · rintro ⟨-, h⟩ c hc
    obtain ⟨j, hj⟩ := List.mem_iff_getElem?.1 hc
    rw [List.getElem?_drop] at hj
    by_contra hhigh
    have := h _ c hj (by omega)
    have := (List.getElem?_eq_some_iff.1 hj).1
    omega
  · intro h
    refine ⟨by omega, fun k c hk hc => ?_⟩
    by_contra hlate
    refine absurd (h c (List.mem_iff_getElem?.2 ⟨k - (st.staged.length - 3), ?_⟩)) (by omega)
    rw [List.getElem?_drop, ← hk]
    congr 1
    omega

/-- **The hex dumps**: those of `send` always stay inside their array; those of `process` do
    exactly for chunks and messages that fit. -/
theorem hexDumps_inBounds_iff (st : Receiver) (c : ProcessCall) :
    (∀ {σ : Type} (handler : TxHandler σ) (buffer : List UInt8) (size : ℕ) (world : σ),
      1 ≤ size → size ≤ 2 ^ 31 - 1 → ∀ packet ∈ (send (some handler) buffer size world).packets,
        ∀ dump ∈ sendHexDumps packet, dump.InBounds) ∧
    ((∀ dump ∈ st.hexDumps c.buffer, dump.InBounds) ↔ st.DumpsFit c.buffer) := by
  refine ⟨fun handler buffer size world _ hsize packet hm => ?_, ?_⟩
  · rw [send_packets (by omega)] at hm
    obtain ⟨i, -, rfl⟩ := List.mem_map.1 hm
    exact sendHexDumps_inBounds (sentPacket_wf i)
  have hmessage : (∀ dump ∈ (st.hexDumps c.buffer).tail, dump.InBounds) ↔
      (c.buffer.length ≤ st.remainingSize → c.buffer.getLast? = some 0 →
        ∀ b ∈ (st.stage c.buffer).staged.drop ((st.stage c.buffer).staged.length - 3),
          b.toNat < 128) := by
    rw [hexDumps, List.tail_cons]
    split_ifs with hfull hlast
    · exact iff_of_true (by simp) fun h => absurd h (by omega)
    · rw [List.forall_mem_singleton, ← dump_staged_within_iff]
      exact ⟨fun h _ _ => h, fun h => h (by omega) hlast⟩
    · exact iff_of_true (by simp) fun _ h => absurd h hlast
  have hall : (∀ dump ∈ st.hexDumps c.buffer, dump.InBounds) ↔
      (∀ w ∈ stringn2hexstring c.buffer c.buffer.length, w.Within (c.buffer.length * 2 + 1)) ∧
        ∀ dump ∈ (st.hexDumps c.buffer).tail, dump.InBounds := List.forall_mem_cons
  rw [hall, hmessage, stringn2hexstring_within_iff c.nonempty]
  exact ⟨fun h => ⟨h.1.1, h.1.2.1, h.1.2.2, h.2⟩, fun h => ⟨⟨h.1, h.2, h.3⟩, h.4⟩⟩

theorem hexDumps_inBounds_iff_fullPayload :
    (∀ packet ∈ (send (some recordFrames) fullPayload 20 []).packets,
      ∀ dump ∈ sendHexDumps packet, dump.InBounds) ∧
    ∀ dump ∈ (Receiver.init none .empty).hexDumps [0x41, 0], dump.InBounds := by
  obtain ⟨hsend, hprocess⟩ := hexDumps_inBounds_iff (Receiver.init none .empty)
    ⟨[0x41, 0], List.cons_ne_nil _ _, fun _ => 0⟩
  refine ⟨hsend _ _ _ _ (by decide) (by decide), hprocess.2 ⟨by decide, by decide, ?_, ?_⟩⟩
  · intro k c hc _ hhigh
    have hlow : ∀ b ∈ [(0x41 : UInt8), 0], b.toNat < 128 :=
      List.forall_mem_cons.2 ⟨by decide, List.forall_mem_singleton.2 (by decide)⟩
    exact absurd (hlow c (List.mem_of_getElem? hc)) (Nat.not_lt.2 hhigh)
  · intro _ _
    decide +kernel

/-- A chunk of one byte: the zero after its digits is written behind the end. -/
theorem oneByte_overflows :
    ¬ ∀ dump ∈ (Receiver.init none .empty).hexDumps [0x41], dump.InBounds := by
  decide +kernel

end PacketSerial

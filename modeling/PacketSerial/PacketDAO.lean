/-
  `PacketDAO.c`: a `tx_handler` that keeps what is sent in its first row, for another program to
  read there.

  * `DAOCall`: its functions, with the messages that go through `send_msg`;
  * `LastFrame`: what it is for: the last frame that has been sent;
  * `run_shows`: in every run, the first row holds that frame of the last packet, the others
    stay empty, and the values returned are 0, or -1 without a handler; a message too long
    for its buffer is not sent, and 0 is returned as well;
  * `run_hexDump`: in every run, what `get_packet_buffer` prints stays inside the row and inside
    `hex_str`, also where bytes from 0x80 on get eight digits.
-/
import PacketSerial.HexDumps
import PacketSerial.Marshalling
import PacketSerial.SendProtocol

namespace PacketSerial

/-! ## The functions -/

/-- `packet_buffer[10][32]`, row behind row, and `packet_cnt`; and whether `init` has
    registered the handler. -/
structure PacketDAO where
  packetBuffer : Buffer (10 * 32)
  packetCnt : ℤ
  registered : Bool

namespace PacketDAO

/-- Static storage. -/
def start : PacketDAO := ⟨.zero _, 0, false⟩

/-- `tx_handler`: it writes from the start of the first row on. -/
def txHandler : TxHandler PacketDAO := fun buffer dao =>
  (true, { dao with packetBuffer := dao.packetBuffer.memcpy 0 buffer })

/-- `clean_buffer` -/
def cleanBuffer (dao : PacketDAO) : PacketDAO := { dao with packetCnt := 0, packetBuffer := .zero _ }

/-- `init` -/
def init (dao : PacketDAO) : PacketDAO := { dao with registered := true }

/-- `send_msg` -/
def sendMsg (dao : PacketDAO) (message : UnionMessage) : ℤ × PacketDAO :=
  let r := PacketSerial.sendMsg (if dao.registered then some txHandler else none) message dao
  (if r.returnStatus then r.world.packetCnt else -1, r.world)

/-- The message of `generate_neopixel_pulse`; the pattern is `NeoPixelMsg_Pattern_PULSE`. -/
def neopixelPulse : UnionMessage :=
  { UnionMessage.initZero with
    hasNeopixel := true
    neopixel := { UnionMessage.initZero.neopixel with pattern := 6, startColor := ⟨229, 42, 62⟩ } }

/-- `generate_neopixel_pulse` -/
def generateNeopixelPulse (dao : PacketDAO) : ℤ × PacketDAO := dao.cleanBuffer.sendMsg neopixelPulse

/-- `get_packet_buffer`: the string at the address that it returns. -/
def getPacketBuffer (dao : PacketDAO) (index : Fin 10) : List UInt8 :=
  cstr (dao.packetBuffer.bytes.drop (32 * index))

/-- `hex_str` in `get_packet_buffer`, for `size` 32. -/
def hexDump (dao : PacketDAO) (index : Fin 10) : HexDump :=
  ⟨32 * 2 + 1, string2hexstring (dao.packetBuffer.bytes.drop (32 * index))⟩

end PacketDAO

/-- A call of one of the functions. -/
inductive DAOCall where
  | init
  | cleanBuffer
  | sendMsg (message : UnionMessage) (bools : message.Bools)
  | generateNeopixelPulse

/-- The value returned, if there is one, and the variables after the call. -/
def PacketDAO.call (dao : PacketDAO) : DAOCall → Option ℤ × PacketDAO
  | .init => (none, dao.init)
  | .cleanBuffer => (none, dao.cleanBuffer)
  | .sendMsg message _ =>
    let r := dao.sendMsg message
    (some r.1, r.2)
  | .generateNeopixelPulse =>
    let r := dao.generateNeopixelPulse
    (some r.1, r.2)

/-! ## What it is for -/

/-- The last packet of a payload. -/
def lastPacket (payload : List UInt8) : Packet :=
  sentPacket payload payload.length (totalChunks payload.length - 1)

/-- The frame of the last packet sent, without the zero at its end; none is empty. -/
structure LastFrame where
  registered : Bool
  frame : List UInt8

namespace LastFrame

def start : LastFrame := ⟨false, []⟩

/-- A message is sent, if it fits into the 300 bytes of `my_buffer`. -/
def send (s : LastFrame) (message : UnionMessage) : ℤ × LastFrame :=
  if 300 < (message.marshalled true).length then (0, s)
  else if s.registered then
    (0, { s with frame := Stuffing.stuff (delimit (lastPacket (message.marshalled true)).wire) })
  else (-1, s)

def call (s : LastFrame) : DAOCall → Option ℤ × LastFrame
  | .init => (none, { s with registered := true })
  | .cleanBuffer => (none, { s with frame := [] })
  | .sendMsg message _ =>
    let r := s.send message
    (some r.1, r.2)
  | .generateNeopixelPulse =>
    let r := ({ s with frame := [] } : LastFrame).send PacketDAO.neopixelPulse
    (some r.1, r.2)

end LastFrame

/-! ## The last packet -/

section
variable {payload : List UInt8}

/-- There is a last packet. -/
theorem lastTurn_lt (h0 : 0 < payload.length) (h : payload.length < 2 ^ 31) :
    totalChunks payload.length - 1 < totalChunks payload.length :=
  Nat.sub_one_lt (totalChunks_pos h0 h).ne'

/-- It does not depend on what stands behind the payload. -/
theorem lastPacket_append (h0 : 0 < payload.length) (h : payload.length < 2 ^ 31)
    (rest : List UInt8) :
    sentPacket (payload ++ rest) payload.length (totalChunks payload.length - 1) =
      lastPacket payload := by
  rw [← sentPacket_take h (lastTurn_lt h0 h), List.take_left, lastPacket]

/-- It carries the whole payload if and only if that is not longer than one packet. -/
theorem lastPacket_whole_iff (h0 : 0 < payload.length) (h : payload.length < 2 ^ 31) :
    (lastPacket payload).bytes = payload ↔ payload.length ≤ dataChunkSize := by
  have hlt := lastTurn_lt h0 h
  have hle := packetChunk_within h hlt
  have hbytes := @sentPacket_bytes payload _ _ h0 h hlt
  constructor
  · intro hwhole
    have hlen := congrArg List.length (hwhole.symm.trans hbytes)
    rw [List.length_take, List.length_drop, min_eq_left (by omega)] at hlen
    exact hlen.trans_le (packetChunk_le h0 h hlt)
  · intro hshort
    have hone : totalChunks payload.length = 1 := by
      rw [totalChunks_eq h]
      rw [dataChunkSize_eq] at hshort ⊢
      omega
    rw [lastPacket, hbytes, packetChunk_last h (Nat.sub_add_cancel (totalChunks_pos h0 h)), hone,
      Nat.sub_self, if_pos rfl, Nat.zero_mul, List.drop_zero, List.take_length]

end

/-! ## The buffer -/

/-- The variables hold the frame, and only that, up to the zero at its end. -/
structure Shows (dao : PacketDAO) (s : LastFrame) : Prop where
  count : dao.packetCnt = 0
  registered : dao.registered = s.registered
  string : cstr dao.packetBuffer.bytes = s.frame
  /-- no frame is longer than 29 bytes -/
  empty : dao.packetBuffer.bytes.drop 29 = List.replicate 291 0

theorem UnionMessage.marshalled_pos (m : UnionMessage) : 0 < (m.marshalled true).length := by
  rw [marshalled, if_pos rfl, delimit, List.length_append]
  have hpos := Varint.length_encode_pos m.wire.length
  omega

namespace PacketDAO
variable {dao : PacketDAO}

/-- A frame is written over the one before it. -/
theorem txHandler_frame {packet : Packet} (h : packet.WF) (dao : PacketDAO) :
    let r := txHandler (encodePacket packet) dao
    r.1 = true ∧ r.2.packetCnt = dao.packetCnt ∧ r.2.registered = dao.registered ∧
      cstr r.2.packetBuffer.bytes = Stuffing.stuff (delimit packet.wire) ∧
      r.2.packetBuffer.bytes.drop 29 = dao.packetBuffer.bytes.drop 29 := by
  have hlen := packet.length_frame_le h
  have hsize : packet.frame.length = (Stuffing.stuff (delimit packet.wire)).length + 1 := by
    rw [Packet.frame, List.length_append, List.length_singleton]
  rw [encodePacket_eq h]
  refine ⟨rfl, rfl, rfl, ?_, ?_⟩
  · exact Buffer.cstr_memcpy _ Packet.zero_notMem_stuff (by omega)
  · show (dao.packetBuffer.memcpy 0 packet.frame).bytes.drop 29 = _
    rw [Buffer.bytes_memcpy _ _ _ (by omega), List.take_zero, List.nil_append, Nat.zero_add,
      List.drop_append, List.drop_eq_nil_of_le hlen, List.nil_append, List.drop_drop,
      Nat.add_sub_cancel' hlen]

/-- The frames of some packets: the last of them is held. -/
theorem run_txHandler (packets : List Packet) (last : Packet) (hwf : ∀ p ∈ packets, p.WF)
    (hlast : last.WF) (dao : PacketDAO) :
    let r := Machine.run (fun dao packet => txHandler (encodePacket packet) dao) dao
      (packets ++ [last])
    r.1.all id = true ∧ r.2.packetCnt = dao.packetCnt ∧ r.2.registered = dao.registered ∧
      cstr r.2.packetBuffer.bytes = Stuffing.stuff (delimit last.wire) ∧
      r.2.packetBuffer.bytes.drop 29 = dao.packetBuffer.bytes.drop 29 := by
  induction packets generalizing dao with
  | nil =>
    obtain ⟨hok, hrest⟩ := txHandler_frame hlast dao
    rw [List.nil_append, Machine.run_cons, Machine.run_nil]
    exact ⟨by rw [List.all_cons, id, hok]; rfl, hrest⟩
  | cons packet packets ih =>
    rw [List.forall_mem_cons] at hwf
    obtain ⟨hok, hcount, hreg, -, hempty⟩ := txHandler_frame hwf.1 dao
    obtain ⟨hall, hcount', hreg', hstring, hempty'⟩ :=
      ih hwf.2 (txHandler (encodePacket packet) dao).2
    rw [List.cons_append, Machine.run_cons]
    refine ⟨?_, hcount'.trans hcount, hreg'.trans hreg, hstring, hempty'.trans hempty⟩
    rw [List.all_cons, id, hok, Bool.true_and]
    exact hall

/-- What `send_msg` passes on. -/
theorem sendMsg_fits {message : UnionMessage} (hb : message.Bools)
    (hfit : (message.marshalled true).length ≤ 300) {σ : Type} (handler : Option (TxHandler σ))
    (world : σ) :
    ∃ rest, PacketSerial.sendMsg handler message world =
      send handler (message.marshalled true ++ rest) (message.marshalled true).length world := by
  have hm := hb.marshal_eq 300 true
  dsimp only at hm
  rw [if_pos hfit] at hm
  have hbytes := Buffer.bytes_memcpy (.zero 300) 0 (message.marshalled true) (by omega)
  rw [List.take_zero, List.nil_append] at hbytes
  refine ⟨(Buffer.zero 300).bytes.drop (0 + (message.marshalled true).length), ?_⟩
  rw [PacketSerial.sendMsg, hm]
  dsimp only
  rw [hbytes, sizeThroughInt_of_lt (by omega)]

/-- The packets are written one over the other. -/
theorem send_txHandler {payload : List UInt8} (h0 : 0 < payload.length)
    (h : payload.length < 2 ^ 31) (rest : List UInt8) (dao : PacketDAO) :
    let r := send (some txHandler) (payload ++ rest) payload.length dao
    r.returnStatus = true ∧ r.world.packetCnt = dao.packetCnt ∧
      r.world.registered = dao.registered ∧
      cstr r.world.packetBuffer.bytes = Stuffing.stuff (delimit (lastPacket payload).wire) ∧
      r.world.packetBuffer.bytes.drop 29 = dao.packetBuffer.bytes.drop 29 := by
  intro r
  obtain ⟨hret, hworld⟩ := @send_tx _ txHandler (payload ++ rest) payload.length dao
  obtain ⟨n, hn⟩ := Nat.exists_eq_add_one_of_ne_zero (totalChunks_pos h0 h).ne'
  have hlast := lastPacket_append h0 h rest
  rw [hn, Nat.add_sub_cancel] at hlast
  rw [send_packets h, hn, List.range_succ, List.map_append, List.map_singleton, hlast] at hret hworld
  obtain ⟨hall, hrest⟩ := run_txHandler
    ((List.range n).map (sentPacket (payload ++ rest) payload.length)) (lastPacket payload)
    (map_sentPacket_wf _) (sentPacket_wf _) dao
  rw [← hworld] at hrest
  exact ⟨hret.trans hall, hrest⟩

/-- **`send_msg`**, in any state. -/
theorem sendMsg_shows {s : LastFrame} {message : UnionMessage} (hb : message.Bools)
    (h : Shows dao s) :
    (dao.sendMsg message).1 = (s.send message).1 ∧
      Shows (dao.sendMsg message).2 (s.send message).2 := by
  rw [sendMsg, LastFrame.send]
  by_cases hfit : (message.marshalled true).length ≤ 300
  · have h0 := message.marshalled_pos
    obtain ⟨rest, hsend⟩ :=
      sendMsg_fits hb hfit (if dao.registered then some txHandler else none) dao
    rw [if_neg (not_lt.2 hfit), hsend, ← h.registered]
    cases hreg : dao.registered with
    | false =>
      obtain ⟨hret, hworld⟩ := @send_none _ (message.marshalled true ++ rest) _
        (totalChunks_pos h0 (by omega)) dao
      rw [if_neg Bool.false_ne_true, if_neg Bool.false_ne_true, hret, hworld]
      exact ⟨rfl, h⟩
    | true =>
      obtain ⟨hret, hcount, hreg', hstring, hempty⟩ :=
        send_txHandler h0 (by omega) rest dao
      rw [if_pos rfl, if_pos rfl, hret]
      exact ⟨hcount.trans h.count, hcount.trans h.count, hreg'.trans hreg, hstring,
        hempty.trans h.empty⟩
  · have hm := hb.marshal_eq 300 true
    dsimp only at hm
    rw [if_neg hfit] at hm
    have hnothing : PacketSerial.sendMsg (if dao.registered then some txHandler else none) message
        dao = ⟨true, [], dao⟩ := by
      rw [PacketSerial.sendMsg, hm, sizeThroughInt_sizeMax]
      exact send_of_no_chunks totalChunks_sizeMax dao
    rw [if_pos (not_le.1 hfit), hnothing]
    exact ⟨h.count, h⟩

theorem neopixelPulse_bools : neopixelPulse.Bools := by
  intro k hk
  cases k <;> first | exact absurd hk (by decide) | trivial

theorem cstr_replicate (n : ℕ) : cstr (List.replicate n 0) = [] := by
  cases n <;> rfl

theorem shows_zero (registered : Bool) : Shows ⟨.zero _, 0, registered⟩ ⟨registered, []⟩ := by
  have hbytes : (Buffer.zero (10 * 32)).bytes = List.replicate 320 0 := Buffer.bytes_zero
  have hstring : cstr (Buffer.zero (10 * 32)).bytes = [] := by
    rw [hbytes]
    exact cstr_replicate 320
  have hempty : (Buffer.zero (10 * 32)).bytes.drop 29 = List.replicate 291 0 := by
    rw [hbytes, List.drop_replicate]
  exact ⟨rfl, rfl, hstring, hempty⟩

theorem cleanBuffer_shows {s : LastFrame} (h : Shows dao s) :
    Shows dao.cleanBuffer { s with frame := [] } := by
  rw [← h.registered]
  exact shows_zero dao.registered

/-- A call that returns a value. -/
theorem returned_shows {r : ℤ × PacketDAO} {r' : ℤ × LastFrame} (h : r.1 = r'.1 ∧ Shows r.2 r'.2) :
    (some r.1, r.2).1 = (some r'.1, r'.2).1 ∧ Shows (some r.1, r.2).2 (some r'.1, r'.2).2 :=
  ⟨congrArg some h.1, h.2⟩

/-- One call. -/
theorem call_shows {s : LastFrame} (h : Shows dao s) (c : DAOCall) :
    (dao.call c).1 = (s.call c).1 ∧ Shows (dao.call c).2 (s.call c).2 := by
  cases c with
  | init => exact ⟨rfl, h.count, rfl, h.string, h.empty⟩
  | cleanBuffer => exact ⟨rfl, cleanBuffer_shows h⟩
  | sendMsg message bools => exact returned_shows (sendMsg_shows bools h)
  | generateNeopixelPulse =>
    rw [call, LastFrame.call, generateNeopixelPulse]
    exact returned_shows (sendMsg_shows neopixelPulse_bools (cleanBuffer_shows h))

/-- The first row holds the frame; to the other rows nothing is written. -/
theorem rows {s : LastFrame} (h : Shows dao s) :
    dao.getPacketBuffer 0 = s.frame ∧ ∀ index, index ≠ 0 → dao.getPacketBuffer index = [] := by
  refine ⟨h.string, fun index hne => ?_⟩
  have hge : 29 ≤ 32 * index.val := by
    have hpos := Fin.pos_iff_ne_zero.2 hne
    omega
  rw [getPacketBuffer, ← Nat.add_sub_cancel' hge, ← List.drop_drop, h.empty, List.drop_replicate]
  exact cstr_replicate _

/-- The string of a row ends before the row does. -/
theorem length_row {s : LastFrame} (h : Shows dao s) (index : Fin 10) :
    (dao.getPacketBuffer index).length ≤ 29 := by
  obtain ⟨hfirst, hrest⟩ := rows h
  rcases eq_or_ne index 0 with rfl | hne
  · have hzero : 0 ∈ dao.packetBuffer.bytes.take (29 + 1) := by
      rw [List.take_add, h.empty, List.take_replicate]
      exact List.mem_append_right _ List.mem_cons_self
    rw [hfirst, ← h.string]
    exact Nat.le_of_lt_succ (cstr_length_lt_of_mem_take hzero)
  · rw [hrest index hne]
    exact Nat.zero_le _

/-- There is room even if the last byte gets eight digits and a zero. -/
theorem hexDump_inBounds {index : Fin 10} (h : (dao.getPacketBuffer index).length ≤ 29) :
    (dao.hexDump index).InBounds := by
  rw [getPacketBuffer] at h
  rw [HexDump.InBounds, hexDump]
  dsimp only
  rw [string2hexstring_within_iff (by omega)]
  refine ⟨by omega, fun k c hk _ => ?_⟩
  have hlt := (List.getElem?_eq_some_iff.1 hk).1
  omega

/-- Every run of calls follows that of the machine for the last frame. -/
theorem run_calls_shows (calls : List DAOCall) :
    let r := Machine.run call start calls
    let s := Machine.run LastFrame.call .start calls
    r.1 = s.1 ∧ Shows r.2 s.2 := by
  have hstep : ∀ (dao : PacketDAO) (s : LastFrame) (c c' : DAOCall), Shows dao s → c = c' → True →
      (dao.call c).1 = (s.call c').1 ∧ Shows (dao.call c).2 (s.call c').2 := by
    rintro dao s c _ h rfl -
    exact call_shows h c
  obtain ⟨hret, hshows⟩ := Machine.run_simulates (R := Shows) (Q := Eq) (O := Eq)
    (P := fun _ _ => True) hstep (List.forall₂_same.2 fun _ _ => rfl : List.Forall₂ Eq calls calls)
    (shows_zero false) (Machine.along_of _ fun _ _ => trivial)
  exact ⟨List.forall₂_eq_eq_eq ▸ hret, hshows⟩

end PacketDAO

/-- **The data object keeps the last frame**: in every run of calls it returns and shows what
    its purpose says, and it writes to no row but the first.  Of a message of more than one packet
    it shows only a part. -/
theorem run_shows (calls : List DAOCall) :
    let r := Machine.run PacketDAO.call .start calls
    let s := Machine.run LastFrame.call .start calls
    r.1 = s.1 ∧ r.2.getPacketBuffer 0 = s.2.frame ∧
      (∀ index, index ≠ 0 → r.2.getPacketBuffer index = []) ∧
      ∀ message : UnionMessage, (message.marshalled true).length ≤ 300 →
        ((lastPacket (message.marshalled true)).bytes = message.marshalled true ↔
          (message.marshalled true).length ≤ 15) := by
  intro r s
  obtain ⟨hret, hshows⟩ := PacketDAO.run_calls_shows calls
  obtain ⟨hfirst, hrest⟩ := PacketDAO.rows hshows
  refine ⟨hret, hfirst, hrest, fun message hfit => ?_⟩
  exact lastPacket_whole_iff message.marshalled_pos (by omega)

/-- **`get_packet_buffer` stays inside its arrays** in every run, whichever row it is asked for:
    it reads a string that ends in that row, and writes to `hex_str` only; the digits are those of
    the frame as long as no byte is from 0x80 on. -/
theorem run_hexDump (calls : List DAOCall) (index : Fin 10) :
    let dao := (Machine.run PacketDAO.call .start calls).2
    (dao.getPacketBuffer index).length < 32 ∧ (dao.hexDump index).InBounds ∧
      ((∀ b ∈ dao.getPacketBuffer index, b.toNat < 128) → ∀ mem : ℤ → UInt8,
        Memory.Holds (Memory.writeAll mem (dao.hexDump index).writes) 0
          (hexString (dao.getPacketBuffer index) ++ [0])) := by
  intro dao
  obtain ⟨-, hshows⟩ := PacketDAO.run_calls_shows calls
  have hrow : (dao.getPacketBuffer index).length ≤ 29 := PacketDAO.length_row hshows index
  refine ⟨by omega, PacketDAO.hexDump_inBounds hrow, fun hlow mem => ?_⟩
  rw [PacketDAO.getPacketBuffer] at hrow hlow ⊢
  rw [PacketDAO.hexDump, string2hexstring_eq (by omega)]
  exact renderAt_holds hlow

end PacketSerial

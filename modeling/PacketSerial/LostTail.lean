/-
  Members of a union message whose last bytes were lost, and are read as zeros.

  * `zeroTail n w`: the bytes `w` with zeros for the last `n`;
  * `not_same_zeroTail`: of a member that is longer than any with a few numbers only,
    nothing like it is read then: a string ends early, and of other members the
    required field at the end is missing.
-/
import PacketSerial.ProtoBuff

namespace PacketSerial

/-- The bytes `w`, with zeros for the last `n`. -/
def zeroTail (n : ℕ) (w : List UInt8) : List UInt8 :=
  w.take (w.length - n) ++ List.replicate n 0

section
variable {n : ℕ} {a b w : List UInt8}

theorem length_zeroTail (h : n ≤ w.length) : (zeroTail n w).length = w.length := by
  rw [zeroTail, List.length_append, List.length_take, List.length_replicate]; omega

/-- What stands before is not touched. -/
theorem zeroTail_append (h : n ≤ b.length) : zeroTail n (a ++ b) = a ++ zeroTail n b := by
  rw [zeroTail, zeroTail, List.length_append, Nat.add_sub_assoc h, List.take_length_add_append,
    List.append_assoc]

/-- All that stood behind is lost. -/
theorem zeroTail_append_of_le (h : b.length ≤ n) :
    zeroTail n (a ++ b) = a.take (a.length + b.length - n) ++ List.replicate n 0 := by
  rw [zeroTail, List.length_append, List.take_append_of_le_length (by omega)]

theorem zeroTail_delimit (h : n ≤ w.length) : zeroTail n (delimit w) = delimit (zeroTail n w) := by
  rw [delimit, zeroTail_append h, delimit, length_zeroTail h]

theorem zeroTail_bytesWire (tag : ℕ) (h : n ≤ w.length) :
    zeroTail n (bytesWire tag w) = bytesWire tag (zeroTail n w) := by
  have hd : n ≤ (delimit w).length := by rw [delimit, List.length_append]; omega
  show zeroTail n (Varint.encode (8 * tag + 2) ++ delimit w) = _
  rw [zeroTail_append hd, zeroTail_delimit h]
  rfl

end

/-! ## Strings -/

/-- A message that is one string is read whatever bytes it is made of. -/
theorem pbDecodeNoinit_string {σ : Type} {n : ℕ} (hn : n < 2 ^ 32) (mem : PbMember σ (Buffer n))
    {s : List UInt8} (hs : s.length < n) (d : σ) :
    pbDecodeNoinit [PbField.required 1 (stringLtype (π := FieldsPtr) n) mem] (bytesWire 1 s) d =
      some (mem.set ((mem.get d).memcpy 0 (s ++ [0])) d) := by
  let f : PbField FieldsPtr σ := .required 1 (stringLtype n) mem
  have hwf : TableWF ([] ++ f :: []) := by
    refine ⟨by simp, ?_, ?_, ?_⟩ <;> simp [f, PbField.required, reqFieldCount]
  have hread : decodeStaticField f (delimit s) d =
      some (mem.set ((mem.get d).memcpy 0 (s ++ [0])) d, []) := by
    have h := pbDecString_encode hs hn []
    rw [List.append_nil] at h
    show (stringLtype (π := FieldsPtr) n).decodeAt mem _ d = _
    rw [PbLtype.decodeAt, stringLtype]
    simp only [delimit, h, Option.map_some]
  have hpos : 0 < (tagBytes f ++ delimit s).length := by
    have := Varint.length_encode_pos s.length
    rw [List.length_append, delimit, List.length_append]; omega
  have hloop := pbDecodeLoop_tag hwf (delimit s) d (tagBytes f ++ delimit s).length
    (2 ^ reqFieldCount ([] : List (PbField FieldsPtr σ)) - 1)
  rw [hread, seen_field] at hloop
  refine hloop.trans ?_
  dsimp only
  rw [pbDecodeLoop_zeros _ (by simp) _ (by simpa using hpos), if_pos (allFieldsSeen_all hwf.count)]

/-- The string is cut off where the zeros begin. -/
theorem cstr_memcpy_zeroTail {n k : ℕ} {a : Buffer n} (b : Buffer n) (ha : a.Terminated)
    (hk : k ≤ a.strlen) :
    cstr (b.memcpy 0 (zeroTail k (cstr a.bytes) ++ [0])).bytes =
      (cstr a.bytes).take (a.strlen - k) := by
  have hs : (cstr a.bytes).length < n := ha
  have hl := @length_zeroTail k (cstr a.bytes) hk
  have h0 : 0 ∉ (cstr a.bytes).take (a.strlen - k) :=
    fun h => zero_notMem_cstr a.bytes (List.mem_of_mem_take h)
  have hz : List.replicate k 0 ++ [(0 : UInt8)] = 0 :: List.replicate k 0 := by
    rw [← List.replicate_succ', List.replicate_succ]
  rw [Buffer.bytes_memcpy b _ _ (by rw [List.length_append, hl, List.length_singleton]; omega),
    List.take_zero, List.nil_append, zeroTail, List.append_assoc _ _ [0], hz, List.append_assoc,
    List.cons_append]
  exact cstr_append_zero h0 _

theorem not_sameString_zeroTail {n k : ℕ} {a : Buffer n} (b : Buffer n) (ha : a.Terminated)
    (h0 : 0 < k) (hk : k ≤ a.strlen) :
    ¬ (b.memcpy 0 (zeroTail k (cstr a.bytes) ++ [0])).SameString a := by
  intro h
  have hlen := congrArg List.length ((cstr_memcpy_zeroTail b ha hk).symm.trans h)
  rw [List.length_take] at hlen
  have : a.strlen = (cstr a.bytes).length := rfl
  omega

/-! ## Members -/

theorem length_tagBytes {σ : Type} {f : PbField FieldsPtr σ} (h : f.tag < 15) :
    (tagBytes f).length = 1 := by
  have := f.ltype.wireType_lt
  rw [tagBytes, Varint.encode_of_lt (by omega), List.length_singleton]

/-- The required fields at the end of a message are missing when they fall into the
    part that was lost. -/
theorem pbDecode_zeroTail {σ : Type} {m : σ} {pre post : List (PbField FieldsPtr σ)}
    {w w' : List UInt8} {u : σ → σ} (h : Coded m pre w u) (hwf : TableWF (pre ++ post))
    (htag : ∀ f ∈ pre, f.tag < 15) (hreq : reqFieldCount pre < reqFieldCount (pre ++ post))
    {n : ℕ} (hn : w'.length ≤ n) (dest : σ) :
    pbDecode (pre ++ post) (zeroTail n (w ++ w')) dest = none := by
  rw [pbDecode, zeroTail_append_of_le hn]
  exact h.reads_cut hwf (fun f hf => length_tagBytes (htag f hf)) hreq
    (fun b hb => List.eq_of_mem_replicate hb) _ (by omega)

/-- A message that is one string does not come back. -/
theorem not_sameString_of_decode {σ : Type} {n : ℕ} (hn : n ≤ 256) {mem : PbMember σ (Buffer n)}
    (hget : ∀ v d, mem.get (mem.set v d) = v) {a : Buffer n} (ha : a.Terminated)
    (hlen : 25 ≤ (stringWire 1 a).length) {dest d : σ}
    (hd : pbDecodeNoinit [PbField.required 1 (stringLtype (π := FieldsPtr) n) mem]
      (zeroTail 15 (stringWire 1 a)) dest = some d) : ¬ (mem.get d).SameString a := by
  have hw := length_stringWire ha hn (show 1 < 15 by omega)
  have hk : 15 ≤ (cstr a.bytes).length := show 15 ≤ a.strlen by omega
  have hl := length_zeroTail hk
  rw [stringWire, zeroTail_bytesWire 1 hk, pbDecodeNoinit_string (by omega) mem (hl.trans_lt ha),
    Option.some_inj] at hd
  rw [← hd, hget]
  exact not_sameString_zeroTail _ ha (by omega) hk

/-- A descriptor lost its last field, the size. -/
theorem DeviceDescriptor.decode_zeroTail {d : DeviceDescriptor} (h₁ : d.iManufacturer.Terminated)
    (h₂ : d.iProduct.Terminated) (dest : DeviceDescriptor) :
    pbDecode fields (zeroTail 15 d.wire) dest = none := by
  have hhead : Coded d (fields.take 2) _ _ :=
    .present (.required 1 (stringLtype_roundTrip (by norm_num) h₁)) <|
      .present (.required 2 (stringLtype_roundTrip (by norm_num) h₂)) .nil
  have htail := length_uint32Wire (show 3 < 16 by omega) d.bMaxPacketSize0
  have hwire : d.wire = (stringWire 1 d.iManufacturer ++ (stringWire 2 d.iProduct ++ [])) ++
      uint32Wire 3 d.bMaxPacketSize0 := by
    rw [wire, List.append_nil, List.append_assoc]
  rw [hwire]
  exact pbDecode_zeroTail (hhead.of_eq rfl) (Member.fields_wf .deviceDescriptor) (by decide)
    (by decide) (by omega) dest

/-- A NeoPixel message lost its last required field, the pattern. -/
theorem NeoPixelMsg.decode_zeroTail (d dest : NeoPixelMsg) :
    pbDecode fields (zeroTail 15 d.wire) dest = none := by
  obtain ⟨u, hhead, -⟩ := d.coded_head
  have htail := d.length_wire.2.2
  rw [d.wire_eq]
  exact pbDecode_zeroTail hhead (Member.fields_wf .neopixel) (by decide) (by decide) (by omega) dest

/-- **A member that lost its end is not read as it was.** -/
theorem Member.not_same_zeroTail (k : Member) {s : k.Struct} (h : k.WF s)
    (hlen : 25 ≤ (k.wire s).length) (dest : k.Struct) :
    ¬ ∃ d, pbDecode k.fields (zeroTail 15 (k.wire s)) dest = some d ∧ k.Same d s := by
  rintro ⟨d, hd, hsame⟩
  cases k with
  | deviceDescriptor =>
    have hnone := DeviceDescriptor.decode_zeroTail h.1 h.2 dest
    exact Option.some_ne_none d (hd.symm.trans hnone)
  | hidReport | inputReport | speechSynth =>
    exact not_sameString_of_decode (by omega) (fun _ _ => rfl) h hlen hd hsame
  | time =>
    have hl := TimeMsg.length_wire s
    exact absurd (hlen.trans hl) (by omega)
  | alarm =>
    have hl := AlarmMsg.length_wire s
    exact absurd (hlen.trans hl) (by omega)
  | neopixel =>
    have hnone := NeoPixelMsg.decode_zeroTail s dest
    exact Option.some_ne_none d (hd.symm.trans hnone)

end PacketSerial

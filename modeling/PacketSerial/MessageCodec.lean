/-
  The wire forms of the messages, and their round trips through nanopb.

  * `Packet.wire`, `Member.wire`, `UnionMessage.wire`: the bytes of a message as the
    protobuf wire format has them;
  * `Member.WF`: strings end inside their arrays, a `bool` is 0 or 1;
  * `Member.Same`: equality of two structs as far as they mean anything: strings up
    to their terminator, optional fields only where they are present;
  * `Packet.coded`, `Member.coded`, `UnionMessage.coded`: `pb_encode` writes the wire
    form, and `pb_decode` makes the same struct of it.
-/
import PacketSerial.Messages
import PacketSerial.Nanopb.Codec

namespace PacketSerial

/-! ## The wire format -/

/-- Bytes with their length in front. -/
def delimit (w : List UInt8) : List UInt8 := Varint.encode w.length ++ w

/-- A field with the tag and the wire type, and the bytes `w` for its value. -/
def fieldWire (tag wireType : ℕ) (w : List UInt8) : List UInt8 :=
  Varint.encode (8 * tag + wireType) ++ w

def uint32Wire (tag : ℕ) (a : UInt32) : List UInt8 := fieldWire tag 0 (Varint.encode a.toNat)

def uint8Wire (tag : ℕ) (a : UInt8) : List UInt8 := fieldWire tag 0 (Varint.encode a.toNat)

def bytesWire (tag : ℕ) (w : List UInt8) : List UInt8 := fieldWire tag 2 (delimit w)

def stringWire {n : ℕ} (tag : ℕ) (a : Buffer n) : List UInt8 := bytesWire tag (cstr a.bytes)

def Packet.wire (p : Packet) : List UInt8 :=
  bytesWire 1 p.data.bytes ++ (uint8Wire 2 p.sequenceNumber ++ (uint8Wire 3 p.crc ++
    uint32Wire 4 p.flag))

def DeviceDescriptor.wire (d : DeviceDescriptor) : List UInt8 :=
  stringWire 1 d.iManufacturer ++ (stringWire 2 d.iProduct ++ uint32Wire 3 d.bMaxPacketSize0)

def TimeMsg.wire (d : TimeMsg) : List UInt8 :=
  uint32Wire 1 d.hours ++ (uint32Wire 2 d.minutes ++ uint32Wire 3 d.seconds)

def AlarmMsg.wire (d : AlarmMsg) : List UInt8 :=
  uint32Wire 1 d.hours ++ (uint32Wire 2 d.minutes ++ (uint32Wire 3 d.seconds ++
    uint8Wire 4 d.enabled))

def NeoPixelMsgColor.wire (c : NeoPixelMsgColor) : List UInt8 :=
  uint32Wire 1 c.green ++ (uint32Wire 2 c.red ++ uint32Wire 3 c.blue)

def NeoPixelMsg.wire (d : NeoPixelMsg) : List UInt8 :=
  bytesWire 1 d.startColor.wire ++ ((if d.hasEndColor then bytesWire 2 d.endColor.wire else []) ++
    (uint32Wire 3 d.brightness ++ (uint32Wire 4 d.pattern ++
      if d.hasDelay then uint32Wire 5 d.delay else [])))

def Member.wire : (k : Member) → k.Struct → List UInt8
  | deviceDescriptor => DeviceDescriptor.wire
  | hidReport => fun d => stringWire 1 (HIDReport.data d)
  | inputReport => fun d => stringWire 1 (InputReport.data d)
  | speechSynth => fun d => stringWire 1 (SpeechSynthMsg.data d)
  | time => TimeMsg.wire
  | alarm => AlarmMsg.wire
  | neopixel => NeoPixelMsg.wire

def Member.fieldWire (k : Member) (m : UnionMessage) : List UInt8 :=
  if k.has m then bytesWire k.tag (k.wire (k.get m)) else []

def UnionMessage.wire (m : UnionMessage) : List UInt8 :=
  Member.all.flatMap fun k => k.fieldWire m

/-! ## Well-formed structs, and structs that mean the same -/

def Member.WF : (k : Member) → k.Struct → Prop
  | deviceDescriptor => fun d => (DeviceDescriptor.iManufacturer d).Terminated ∧
      (DeviceDescriptor.iProduct d).Terminated
  | hidReport => fun d => (HIDReport.data d).Terminated
  | inputReport => fun d => (InputReport.data d).Terminated
  | speechSynth => fun d => (SpeechSynthMsg.data d).Terminated
  | time => fun _ => True
  | alarm => fun d => (AlarmMsg.enabled d).toNat ≤ 1
  | neopixel => fun _ => True

def NeoPixelMsg.Same (a b : NeoPixelMsg) : Prop :=
  a.startColor = b.startColor ∧ a.hasEndColor = b.hasEndColor ∧
    (b.hasEndColor = true → a.endColor = b.endColor) ∧ a.brightness = b.brightness ∧
    a.pattern = b.pattern ∧ a.hasDelay = b.hasDelay ∧ (b.hasDelay = true → a.delay = b.delay)

def DeviceDescriptor.Same (a b : DeviceDescriptor) : Prop :=
  a.iManufacturer.SameString b.iManufacturer ∧ a.iProduct.SameString b.iProduct ∧
    a.bMaxPacketSize0 = b.bMaxPacketSize0

def Member.Same : (k : Member) → k.Struct → k.Struct → Prop
  | deviceDescriptor => DeviceDescriptor.Same
  | hidReport => fun a b => (HIDReport.data a).SameString (HIDReport.data b)
  | inputReport => fun a b => (InputReport.data a).SameString (InputReport.data b)
  | speechSynth => fun a b => (SpeechSynthMsg.data a).SameString (SpeechSynthMsg.data b)
  | time => fun a b : TimeMsg => a = b
  | alarm => fun a b : AlarmMsg => a = b
  | neopixel => NeoPixelMsg.Same

/-! ## Lengths -/

theorem length_uint32Wire {tag : ℕ} (h : tag < 16) (a : UInt32) :
    2 ≤ (uint32Wire tag a).length ∧ (uint32Wire tag a).length ≤ 6 := by
  have h1 := Varint.length_encode_le (k := 5) (by omega)
    (a.toNat_lt.trans (by norm_num) : a.toNat < 2 ^ (7 * 5))
  have h0 := Varint.length_encode_pos a.toNat
  simp only [uint32Wire, fieldWire, Varint.encode_of_lt (show 8 * tag + 0 < 128 by omega),
    List.length_append, List.length_singleton]
  omega

theorem length_uint8Wire {tag : ℕ} (h : tag < 16) (a : UInt8) :
    2 ≤ (uint8Wire tag a).length ∧ (uint8Wire tag a).length ≤ 3 := by
  have h1 := Varint.length_encode_le (k := 2) (by omega)
    (a.toNat_lt.trans (by norm_num) : a.toNat < 2 ^ (7 * 2))
  have h0 := Varint.length_encode_pos a.toNat
  simp only [uint8Wire, fieldWire, Varint.encode_of_lt (show 8 * tag + 0 < 128 by omega),
    List.length_append, List.length_singleton]
  omega

theorem length_delimit_of_lt {w : List UInt8} (h : w.length < 128) :
    (delimit w).length = w.length + 1 := by
  simp only [delimit, Varint.encode_of_lt h, List.length_append, List.length_singleton]; omega

theorem length_delimit {w : List UInt8} (h : w.length < 2 ^ 14) :
    w.length + 1 ≤ (delimit w).length ∧ (delimit w).length ≤ w.length + 2 := by
  have h1 := Varint.length_encode_le (k := 2) (by omega) (h : w.length < 2 ^ (7 * 2))
  have h0 := Varint.length_encode_pos w.length
  simp only [delimit, List.length_append]; omega

theorem length_bytesWire {tag : ℕ} (h : tag < 15) (w : List UInt8) :
    (bytesWire tag w).length = (delimit w).length + 1 := by
  simp only [bytesWire, fieldWire, Varint.encode_of_lt (show 8 * tag + 2 < 128 by omega),
    List.length_append, List.length_singleton]; omega

theorem NeoPixelMsgColor.length_wire (c : NeoPixelMsgColor) :
    6 ≤ c.wire.length ∧ c.wire.length ≤ 18 := by
  have h1 := length_uint32Wire (show 1 < 16 by omega) c.green
  have h2 := length_uint32Wire (show 2 < 16 by omega) c.red
  have h3 := length_uint32Wire (show 3 < 16 by omega) c.blue
  simp only [wire, List.length_append]; omega

theorem TimeMsg.length_wire (d : TimeMsg) : d.wire.length ≤ 18 := by
  have h1 := length_uint32Wire (show 1 < 16 by omega) d.hours
  have h2 := length_uint32Wire (show 2 < 16 by omega) d.minutes
  have h3 := length_uint32Wire (show 3 < 16 by omega) d.seconds
  simp only [wire, List.length_append]; omega

theorem AlarmMsg.length_wire (d : AlarmMsg) : d.wire.length ≤ 21 := by
  have h1 := length_uint32Wire (show 1 < 16 by omega) d.hours
  have h2 := length_uint32Wire (show 2 < 16 by omega) d.minutes
  have h3 := length_uint32Wire (show 3 < 16 by omega) d.seconds
  have h4 := length_uint8Wire (show 4 < 16 by omega) d.enabled
  simp only [wire, List.length_append]; omega

/-! ## Round trips -/

theorem Packet.coded (p : Packet) : ∃ u, Coded p Packet.fields p.wire u ∧ ∀ d, u d = p :=
  ⟨_, Coded.of_eq
    (.present (.required 1 (bytesLtype_roundTrip (by norm_num) p.data)) <|
      .present (.required 2 (uint8Ltype_roundTrip p.sequenceNumber)) <|
      .present (.required 3 (uint8Ltype_roundTrip p.crc)) <|
      .present (.required 4 (uint32Ltype_roundTrip p.flag)) .nil)
    (by rw [List.append_nil]; rfl), fun _ => rfl⟩

theorem Packet.fields_wf : TableWF Packet.fields :=
  ⟨by decide, by decide, by decide, by decide⟩

theorem DeviceDescriptor.coded {d : DeviceDescriptor} (h₁ : d.iManufacturer.Terminated)
    (h₂ : d.iProduct.Terminated) :
    ∃ u, Coded d DeviceDescriptor.fields d.wire u ∧ ∀ d', (u d').Same d :=
  ⟨_, Coded.of_eq
    (.present (.required 1 (stringLtype_roundTrip (by norm_num) h₁)) <|
      .present (.required 2 (stringLtype_roundTrip (by norm_num) h₂)) <|
      .present (.required 3 (uint32Ltype_roundTrip d.bMaxPacketSize0)) .nil)
    (by rw [List.append_nil]; rfl),
    fun _ => ⟨Buffer.sameString_memcpy _ h₁, Buffer.sameString_memcpy _ h₂, rfl⟩⟩

theorem TimeMsg.coded (d : TimeMsg) : ∃ u, Coded d TimeMsg.fields d.wire u ∧ ∀ d', u d' = d :=
  ⟨_, Coded.of_eq
    (.present (.required 1 (uint32Ltype_roundTrip d.hours)) <|
      .present (.required 2 (uint32Ltype_roundTrip d.minutes)) <|
      .present (.required 3 (uint32Ltype_roundTrip d.seconds)) .nil)
    (by rw [List.append_nil]; rfl), fun _ => rfl⟩

theorem AlarmMsg.coded {d : AlarmMsg} (h : d.enabled.toNat ≤ 1) :
    ∃ u, Coded d AlarmMsg.fields d.wire u ∧ ∀ d', u d' = d :=
  ⟨_, Coded.of_eq
    (.present (.required 1 (uint32Ltype_roundTrip d.hours)) <|
      .present (.required 2 (uint32Ltype_roundTrip d.minutes)) <|
      .present (.required 3 (uint32Ltype_roundTrip d.seconds)) <|
      .present (.required 4 (boolLtype_roundTrip h)) .nil)
    (by rw [List.append_nil]; rfl), fun _ => rfl⟩

theorem NeoPixelMsgColor.coded (c : NeoPixelMsgColor) :
    ∃ u, Coded c NeoPixelMsgColor.fields c.wire u ∧ ∀ d, u d = c :=
  ⟨_, Coded.of_eq
    (.present (.required 1 (uint32Ltype_roundTrip c.green)) <|
      .present (.required 2 (uint32Ltype_roundTrip c.red)) <|
      .present (.required 3 (uint32Ltype_roundTrip c.blue)) .nil)
    (by rw [List.append_nil]; rfl), fun _ => rfl⟩

theorem NeoPixelMsgColor.fields_wf : TableWF NeoPixelMsgColor.fields :=
  ⟨by decide, by decide, by decide, by decide⟩

theorem NeoPixelMsgColor.roundTrip {c : NeoPixelMsgColor} {u : NeoPixelMsgColor → NeoPixelMsgColor}
    (h : Coded c NeoPixelMsgColor.fields c.wire u) :
    RoundTrip (submessageLtype .neoPixelMsgColor NeoPixelMsgColor.fields) c (delimit c.wire) u :=
  submessageLtype_roundTrip _ h fields_wf (by have := c.length_wire; omega)

namespace NeoPixelMsg

/-- The fields before `pattern`. -/
def headWire (d : NeoPixelMsg) : List UInt8 :=
  bytesWire 1 d.startColor.wire ++ ((if d.hasEndColor then bytesWire 2 d.endColor.wire else []) ++
    uint32Wire 3 d.brightness)

/-- The fields from `pattern` on. -/
def tailWire (d : NeoPixelMsg) : List UInt8 :=
  uint32Wire 4 d.pattern ++ if d.hasDelay then uint32Wire 5 d.delay else []

theorem wire_eq (d : NeoPixelMsg) : d.wire = d.headWire ++ d.tailWire := by
  simp only [wire, headWire, tailWire, List.append_assoc]

theorem length_wire (d : NeoPixelMsg) :
    d.wire.length = d.headWire.length + d.tailWire.length ∧ d.wire.length ≤ 58 ∧
      d.tailWire.length ≤ 12 := by
  have hs := d.startColor.length_wire
  have he := d.endColor.length_wire
  have h1 := length_bytesWire (show 1 < 15 by omega) d.startColor.wire
  have h2 := length_bytesWire (show 2 < 15 by omega) d.endColor.wire
  have h1' := length_delimit_of_lt (w := d.startColor.wire) (by omega)
  have h2' := length_delimit_of_lt (w := d.endColor.wire) (by omega)
  have h3 := length_uint32Wire (show 3 < 16 by omega) d.brightness
  have h4 := length_uint32Wire (show 4 < 16 by omega) d.pattern
  have h5 := length_uint32Wire (show 5 < 16 by omega) d.delay
  simp only [wire_eq, headWire, tailWire, List.length_append, true_and]
  cases d.hasEndColor <;> cases d.hasDelay <;> simp <;> omega

theorem coded_head (d : NeoPixelMsg) : ∃ u, Coded d (fields.take 3) d.headWire u ∧
    ∀ d', u d' = { d' with
      startColor := d.startColor
      hasEndColor := d.hasEndColor || d'.hasEndColor
      endColor := if d.hasEndColor then d.endColor else d'.endColor
      brightness := d.brightness } := by
  obtain ⟨us, hs, hus⟩ := d.startColor.coded
  obtain ⟨ue, he, hue⟩ := d.endColor.coded
  have h₁ : Coded d (fields.take 1) _ _ :=
    .present (.required 1 (NeoPixelMsgColor.roundTrip hs)) .nil
  have h₂ : Coded d ((fields.drop 1).take 1) _ _ :=
    .optional 2 fun _ => NeoPixelMsgColor.roundTrip he
  have h₃ : Coded d ((fields.drop 2).take 1) _ _ :=
    .present (.required 3 (uint32Ltype_roundTrip d.brightness)) .nil
  refine ⟨_, (h₁.append (h₂.append h₃)).of_eq (by simp only [List.append_nil]; rfl), fun d' => ?_⟩
  cases hd : d.hasEndColor <;> simp [hus, hue, hd]

theorem coded_tail (d : NeoPixelMsg) : ∃ u, Coded d (fields.drop 3) d.tailWire u ∧
    ∀ d', u d' = { d' with
      pattern := d.pattern
      hasDelay := d.hasDelay || d'.hasDelay
      delay := if d.hasDelay then d.delay else d'.delay } := by
  have h₁ : Coded d ((fields.drop 3).take 1) _ _ :=
    .present (.required 4 (uint32Ltype_roundTrip d.pattern)) .nil
  have h₂ : Coded d (fields.drop 4) _ _ := .optional 5 fun _ => uint32Ltype_roundTrip d.delay
  refine ⟨_, (h₁.append h₂).of_eq (by simp only [List.append_nil]; rfl), fun d' => ?_⟩
  cases hd : d.hasDelay <;> simp [hd]

theorem coded (d : NeoPixelMsg) : ∃ u, Coded d fields d.wire u ∧
    ∀ d', (u (pbMessageSetToDefaults fields d')).Same d := by
  obtain ⟨u₁, h₁, hu₁⟩ := d.coded_head
  obtain ⟨u₂, h₂, hu₂⟩ := d.coded_tail
  refine ⟨_, (h₁.append h₂).of_eq d.wire_eq.symm, fun d' => ?_⟩
  have hdef : (pbMessageSetToDefaults fields d').hasEndColor = false ∧
      (pbMessageSetToDefaults fields d').hasDelay = false := ⟨rfl, rfl⟩
  simp only [Function.comp_apply, hu₁, hu₂, Same, hdef, Bool.or_false, true_and]
  exact ⟨fun h => if_pos h, fun h => if_pos h⟩

end NeoPixelMsg

theorem length_stringWire {n tag : ℕ} {a : Buffer n} (h : a.Terminated)
    (hn : n ≤ 256) (ht : tag < 15) :
    (stringWire tag a).length ≤ a.strlen + 3 ∧ a.strlen + 3 ≤ n + 2 := by
  have hs : (cstr a.bytes).length < n := h
  have hd := length_delimit (w := cstr a.bytes) (by omega)
  rw [stringWire, length_bytesWire ht, Buffer.strlen]; omega

theorem Packet.length_wire (p : Packet) (hf : p.flag.toNat < 128) :
    p.data.size + 8 ≤ p.wire.length ∧ p.wire.length ≤ p.data.size + 10 := by
  have hd : p.data.bytes.length ≤ 16 := p.data.size_le
  have h1 := length_delimit_of_lt (w := p.data.bytes) (by omega)
  have h2 := length_uint8Wire (show 2 < 16 by omega) p.sequenceNumber
  have h3 := length_uint8Wire (show 3 < 16 by omega) p.crc
  have h4 : (uint32Wire 4 p.flag).length = 2 := by
    simp [uint32Wire, fieldWire, Varint.encode_of_lt hf, Varint.encode_of_lt]
  have h5 := length_bytesWire (show 1 < 15 by omega) p.data.bytes
  simp only [wire, List.length_append, BytesArray.size]; omega

namespace Member

theorem fields_wf (k : Member) : TableWF k.fields := by
  cases k <;> exact ⟨by decide, by decide, by decide, by decide⟩

theorem length_wire (k : Member) {s : k.Struct} (h : k.WF s) : (k.wire s).length ≤ 258 := by
  cases k with
  | deviceDescriptor =>
    have h1 := length_stringWire h.1 (by omega) (show 1 < 15 by omega)
    have h2 := length_stringWire h.2 (by omega) (show 2 < 15 by omega)
    have h3 := length_uint32Wire (show 3 < 16 by omega) (DeviceDescriptor.bMaxPacketSize0 s)
    simp only [wire, DeviceDescriptor.wire, List.length_append]; omega
  | hidReport | inputReport | speechSynth =>
    have h1 := length_stringWire h (by omega) (show 1 < 15 by omega)
    simp only [wire]; omega
  | time => exact (TimeMsg.length_wire s).trans (by omega)
  | alarm => exact (AlarmMsg.length_wire s).trans (by omega)
  | neopixel => exact (NeoPixelMsg.length_wire s).2.1.trans (by omega)

/-- **`pb_encode` and `pb_decode` agree on every member.** -/
theorem coded (k : Member) {s : k.Struct} (h : k.WF s) : ∃ u, Coded s k.fields (k.wire s) u ∧
    ∀ d, k.Same (u (pbMessageSetToDefaults k.fields d)) s := by
  cases k with
  | deviceDescriptor =>
    obtain ⟨u, hu, hs⟩ := DeviceDescriptor.coded h.1 h.2
    exact ⟨u, hu, fun d => hs _⟩
  | hidReport | inputReport | speechSynth =>
    refine ⟨_, (Coded.present (.required 1 (stringLtype_roundTrip (by norm_num) h)) .nil).of_eq
      (by rw [List.append_nil]; rfl), fun d => Buffer.sameString_memcpy _ h⟩
  | time =>
    obtain ⟨u, hu, hs⟩ := TimeMsg.coded s
    exact ⟨u, hu, fun d => hs _⟩
  | alarm =>
    obtain ⟨u, hu, hs⟩ := AlarmMsg.coded h
    exact ⟨u, hu, fun d => hs _⟩
  | neopixel => exact NeoPixelMsg.coded s

theorem roundTrip (k : Member) {s : k.Struct} (h : k.WF s) :
    ∃ u, RoundTrip (submessageLtype k.ptr k.fields) s (delimit (k.wire s)) u := by
  obtain ⟨u, hu, -⟩ := k.coded h
  exact ⟨u, submessageLtype_roundTrip _ hu k.fields_wf (by have := k.length_wire h; omega)⟩

end Member

namespace UnionMessage

/-- The members that are set are well formed. -/
def WF (m : UnionMessage) : Prop := ∀ k : Member, k.has m = true → k.WF (k.get m)

theorem fields_wf : TableWF fields := ⟨by decide, by decide, by decide, by decide⟩

theorem coded_members {m : UnionMessage} (h : m.WF) (ks : List Member) :
    ∃ u, Coded m (ks.map Member.field) (ks.flatMap fun k => k.fieldWire m) u := by
  induction ks with
  | nil => exact ⟨id, .nil⟩
  | cons k ks ih =>
    obtain ⟨us, hs⟩ := ih
    cases hk : k.has m with
    | false =>
      refine ⟨us, Coded.of_eq (.absent (f := k.field) rfl hk hs) ?_⟩
      simp [Member.fieldWire, hk]
    | true =>
      obtain ⟨u, hu⟩ := k.roundTrip (h k hk)
      refine ⟨_, Coded.of_eq (.present (.optional k.tag hk hu) hs) ?_⟩
      simp only [List.flatMap_cons, Member.fieldWire, hk, if_true]
      rfl

theorem coded {m : UnionMessage} (h : m.WF) : ∃ u, Coded m fields m.wire u := by
  rw [unionMessage_fields]
  exact coded_members h Member.all

theorem length_fieldWire {m : UnionMessage} (h : m.WF) (k : Member) :
    (k.fieldWire m).length ≤ 261 := by
  rw [Member.fieldWire]
  split_ifs with hk
  · have hl := k.length_wire (h k hk)
    have hd := length_delimit (w := k.wire (k.get m)) (by omega)
    have ht : k.tag < 15 := by cases k <;> decide
    rw [length_bytesWire ht]; omega
  · simp

theorem length_wire {m : UnionMessage} (h : m.WF) : m.wire.length ≤ 7 * 261 := by
  have hl : ∀ ks : List Member, (ks.flatMap fun k => k.fieldWire m).length ≤ ks.length * 261 := by
    intro ks
    induction ks with
    | nil => simp
    | cons k ks ih =>
      have := length_fieldWire h k
      rw [List.flatMap_cons, List.length_append, List.length_cons]; omega
  exact hl Member.all

/-- The set member with the lowest tag. -/
def firstSet (m : UnionMessage) : Option Member := Member.all.find? fun k => k.has m

theorem exists_firstSet {m : UnionMessage} (h : ∃ k : Member, k.has m = true) :
    ∃ k, m.firstSet = some k := by
  obtain ⟨k, hk⟩ := h
  rw [← Option.isSome_iff_exists, firstSet, List.find?_isSome]
  exact ⟨k, k.mem_all, hk⟩

theorem firstSet_spec {m : UnionMessage} {k : Member} (h : m.firstSet = some k) :
    k.has m = true ∧ ∀ k' : Member, k'.has m = true → k.tag ≤ k'.tag := by
  obtain ⟨hk, l₁, l₂, hl, hn⟩ := List.find?_eq_some_iff_append.1 h
  refine ⟨hk, fun k' hk' => ?_⟩
  have hsorted : Member.all.Pairwise fun a b => a.tag < b.tag := by decide
  have hmem := k'.mem_all
  rw [hl, List.pairwise_append, List.pairwise_cons] at hsorted
  rw [hl, List.mem_append, List.mem_cons] at hmem
  rcases hmem with hmem | rfl | hmem
  · have := hn k' hmem
    rw [hk'] at this; cases this
  · exact le_rfl
  · exact (hsorted.2.1.1 k' hmem).le

/-- The wire form starts with that member. -/
theorem wire_firstSet {m : UnionMessage} {k : Member} (h : m.firstSet = some k) :
    ∃ rest, m.wire = bytesWire k.tag (k.wire (k.get m)) ++ rest := by
  obtain ⟨hk, l₁, l₂, hl, hn⟩ := List.find?_eq_some_iff_append.1 h
  have hnil : l₁.flatMap (fun k => k.fieldWire m) = [] := by
    rw [List.flatMap_eq_nil_iff]
    intro k' hk'
    have := hn k' hk'
    simp only [Bool.not_eq_true'] at this
    simp [Member.fieldWire, this]
  refine ⟨l₂.flatMap fun k => k.fieldWire m, ?_⟩
  rw [wire, hl, List.flatMap_append, hnil, List.flatMap_cons, List.nil_append, Member.fieldWire,
    if_pos hk]

end UnionMessage

end PacketSerial

/-
  Union messages of any contents: their strings may fill their arrays.

  A string without a terminator is written whole, as `pb_enc_string` looks no further than the
  array; `pb_dec_string` wants a place for a terminator.

  * `Writes.cons`: what a table writes, field by field, whether it can be read back or not;
  * `marshal_any`: so `marshal` succeeds exactly where the wire form fits into the buffer;
  * `unmarshal_marshal_iff`: and `decode_union` makes the struct of it again exactly if its
    strings end inside their arrays.
-/
import PacketSerial.ProtoBuff

namespace PacketSerial

section
variable {π σ α : Type}

/-! ## Fields -/

/-- A field that is present is written behind its tag. -/
theorem writes_present {f : PbField π σ} {m : σ} {w : List UInt8}
    (hp : f.htype = .required ∨ f.has m = true) (ht : f.tag < 2 ^ 29) (hw : Writes (f.encode m) w) :
    Writes (encodeBasicField f m) (tagBytes f ++ w) := by
  have hfield := (writes_pbEncodeTag f.ltype.wireType_lt ht).andThen hw
  have he : encodeBasicField f m =
      fun st => andThen (pbEncodeTag f.ltype.wireType f.tag st) (f.encode m) := by
    funext st
    unfold encodeBasicField
    cases hh : f.htype with
    | required => rfl
    | optional =>
      rw [hh] at hp
      exact if_pos (hp.resolve_left nofun)
  rw [he]
  exact hfield

theorem writes_absent {f : PbField π σ} {m : σ} (ho : f.htype = .optional) (hno : f.has m = false) :
    Writes (encodeBasicField f m) [] := by
  have he : encodeBasicField f m = fun st => (true, st) := by
    funext st
    unfold encodeBasicField
    rw [ho, hno]
    rfl
  rw [he]
  exact .nil

/-- The fields of a table are written one after the other. -/
theorem Writes.cons {f : PbField π σ} {fields : List (PbField π σ)} {m : σ} {w ws : List UInt8}
    (h : Writes (encodeBasicField f m) w) (hs : Writes (pbEncode m fields) ws) :
    Writes (pbEncode m (f :: fields)) (w ++ ws) := h.andThen hs

/-- A string is written up to its terminator, or the end of its array. -/
theorem writes_string {n : ℕ} (hn : n < 2 ^ 64) (a : Buffer n) :
    Writes ((stringLtype (π := π) n).encode a) (delimit (cstr a.bytes)) := by
  have hlen : (cstr a.bytes).length < 2 ^ 64 := by
    have := cstr_length_le a.bytes
    rw [a.length_bytes] at this
    omega
  have he : (stringLtype (π := π) n).encode a =
      pbEncodeString (cstr a.bytes) (cstr a.bytes).length := by
    funext st
    show pbEncodeString a.bytes a.strlen st = _
    simp only [pbEncodeString, pbWrite, Buffer.strlen, take_cstr_length, List.take_length]
  rw [he]
  exact writes_pbEncodeString hlen

theorem Writes.string {n tag : ℕ} (hn : n < 2 ^ 64) (ht : tag < 2 ^ 29) {mem : PbMember σ (Buffer n)}
    {fields : List (PbField π σ)} {m : σ} {ws : List UInt8} (hs : Writes (pbEncode m fields) ws) :
    Writes (pbEncode m (.required tag (stringLtype n) mem :: fields))
      (stringWire tag (mem.get m) ++ ws) :=
  .cons (writes_present (f := .required tag (stringLtype n) mem) (Or.inl rfl) ht
    (writes_string (π := π) hn (mem.get m))) hs

/-- A message of one string. -/
theorem writes_oneString {n tag : ℕ} (hn : n < 2 ^ 64) (ht : tag < 2 ^ 29)
    (mem : PbMember σ (Buffer n)) (m : σ) :
    Writes (pbEncode m [.required tag (stringLtype (π := π) n) mem]) (stringWire tag (mem.get m)) := by
  have hnil : Writes (pbEncode m ([] : List (PbField π σ))) [] := .nil
  have hw : Writes (pbEncode m [.required tag (stringLtype n) mem]) (_ ++ []) :=
    .string hn ht hnil
  rwa [List.append_nil] at hw

/-! ## Strings that are not terminated -/

theorem strlen_of_not_terminated {n : ℕ} {a : Buffer n} (h : ¬ a.Terminated) : a.strlen = n := by
  have hle := cstr_length_le a.bytes
  rw [a.length_bytes] at hle
  exact le_antisymm hle (not_lt.1 h)

/-- Such a string is refused. -/
theorem decode_not_terminated {n : ℕ} (hn : n + 1 < 2 ^ 32) {a : Buffer n} (h : ¬ a.Terminated)
    (rest : PbIstream) (d : Buffer n) :
    (stringLtype (π := π) n).decode (delimit (cstr a.bytes) ++ rest) d = none := by
  have hlen : (cstr a.bytes).length = n := strlen_of_not_terminated h
  have hd : pbDecString n (delimit (cstr a.bytes) ++ rest) = none := by
    rw [pbDecString, delimit, List.append_assoc,
      pbDecodeVarint32_encode (show (cstr a.bytes).length < 2 ^ 32 by omega)]
    dsimp only
    rw [hlen, Nat.mod_eq_of_lt hn, if_neg (by omega), if_pos (by omega)]
  exact congrArg (Option.map _) hd

/-- A message is not decoded where the value of a field is refused. -/
theorem pbDecode_refused {pre post : List (PbField π σ)} {f : PbField π σ}
    (hwf : TableWF (pre ++ f :: post)) {m : σ} {w v : List UInt8} {u : σ → σ} (h : Coded m pre w u)
    (hstop : ∀ d, decodeStaticField f v d = none) (d : σ) :
    pbDecode (pre ++ f :: post) (w ++ (tagBytes f ++ v)) d = none := by
  have hl := h.loop [] (f :: post) (by simpa using hwf) (tagBytes f ++ v)
    (pbMessageSetToDefaults (pre ++ f :: post) d) _ (Nat.lt_succ_self _)
  rw [List.nil_append] at hl
  rw [pbDecode, pbDecodeNoinit]
  refine hl.trans ?_
  rw [pbDecodeLoop_tag hwf, hstop]

theorem pbDecode_refused_string {n tag : ℕ} (hn : n + 1 < 2 ^ 32) {mem : PbMember σ (Buffer n)}
    {pre post : List (PbField π σ)} (hwf : TableWF (pre ++ .required tag (stringLtype n) mem :: post))
    {m : σ} {w : List UInt8} {u : σ → σ} (h : Coded m pre w u) (hnot : ¬ (mem.get m).Terminated)
    (rest : List UInt8) (d : σ) :
    pbDecode (pre ++ .required tag (stringLtype n) mem :: post)
      (w ++ (stringWire tag (mem.get m) ++ rest)) d = none := by
  have hsplit : stringWire tag (mem.get m) ++ rest =
      tagBytes (.required tag (stringLtype (π := π) n) mem) ++
        (delimit (cstr (mem.get m).bytes) ++ rest) := by
    rw [stringWire, bytesWire, fieldWire, List.append_assoc]
    rfl
  rw [hsplit]
  refine pbDecode_refused hwf h (fun d => ?_) d
  show (stringLtype n).decodeAt mem _ d = none
  rw [PbLtype.decodeAt, decode_not_terminated hn hnot, Option.map_none]

theorem pbDecode_oneString {n tag : ℕ} (hn : n + 1 < 2 ^ 32) {mem : PbMember σ (Buffer n)}
    (hwf : TableWF [.required tag (stringLtype (π := π) n) mem]) {m : σ}
    (hnot : ¬ (mem.get m).Terminated) (d : σ) :
    pbDecode [.required tag (stringLtype (π := π) n) mem] (stringWire tag (mem.get m)) d = none := by
  have h := @pbDecode_refused_string π σ n tag hn mem [] [] hwf m [] _ .nil hnot [] d
  rwa [List.nil_append, List.append_nil] at h

end

/-! ## Members -/

theorem length_stringWire_le {n tag : ℕ} (a : Buffer n) (hn : n ≤ 256) (ht : tag < 15) :
    (stringWire tag a).length ≤ n + 3 := by
  have hs := cstr_length_le a.bytes
  rw [a.length_bytes] at hs
  have hd := length_delimit (w := cstr a.bytes) (by omega)
  rw [stringWire, length_bytesWire ht]
  omega

namespace Member

/-- A `bool` of the struct holds 0 or 1. -/
def Bools : (k : Member) → k.Struct → Prop
  | alarm => fun d => (AlarmMsg.enabled d).toNat ≤ 1
  | deviceDescriptor | hidReport | inputReport | speechSynth | time | neopixel => fun _ => True

theorem length_wire_le (k : Member) (s : k.Struct) : (k.wire s).length ≤ 259 := by
  cases k with
  | deviceDescriptor =>
    have h1 := length_stringWire_le (DeviceDescriptor.iManufacturer s) (by omega)
      (show 1 < 15 by omega)
    have h2 := length_stringWire_le (DeviceDescriptor.iProduct s) (by omega) (show 2 < 15 by omega)
    have h3 := length_uint32Wire (show 3 < 16 by omega) (DeviceDescriptor.bMaxPacketSize0 s)
    simp only [wire, DeviceDescriptor.wire, List.length_append]
    omega
  | hidReport => exact length_stringWire_le (HIDReport.data s) (by omega) (by omega)
  | inputReport =>
    exact (length_stringWire_le (InputReport.data s) (by omega) (by omega)).trans (by omega)
  | speechSynth => exact length_stringWire_le (SpeechSynthMsg.data s) (by omega) (by omega)
  | time => exact (TimeMsg.length_wire s).trans (by omega)
  | alarm => exact (AlarmMsg.length_wire s).trans (by omega)
  | neopixel => exact (NeoPixelMsg.length_wire s).2.1.trans (by omega)

/-- **Every member is written whole**, terminated strings or not. -/
theorem writes (k : Member) {s : k.Struct} (h : k.Bools s) : Writes (pbEncode s k.fields) (k.wire s) := by
  cases k with
  | deviceDescriptor =>
    have hsize : Coded s (DeviceDescriptor.fields.drop 2) _ _ :=
      .present (.required 3 (uint32Ltype_roundTrip (DeviceDescriptor.bMaxPacketSize0 s))) .nil
    have hw := hsize.writes fun f hf => (fields_wf deviceDescriptor).tag_lt f (List.mem_of_mem_drop hf)
    rw [List.append_nil] at hw
    exact .string (by norm_num) (by norm_num) (.string (by norm_num) (by norm_num) hw)
  | hidReport => exact writes_oneString (by norm_num) (by norm_num) _ s
  | inputReport => exact writes_oneString (by norm_num) (by norm_num) _ s
  | speechSynth => exact writes_oneString (by norm_num) (by norm_num) _ s
  | time => exact (TimeMsg.coded s).choose_spec.1.writes (fields_wf time).tag_lt
  | alarm => exact (AlarmMsg.coded h).choose_spec.1.writes (fields_wf alarm).tag_lt
  | neopixel => exact (NeoPixelMsg.coded s).choose_spec.1.writes (fields_wf neopixel).tag_lt

/-- **A member with a string that is not terminated is not decoded.** -/
theorem decode_refused (k : Member) {s : k.Struct} (hb : k.Bools s) (h : ¬ k.WF s)
    (dest : k.Struct) : pbDecode k.fields (k.wire s) dest = none := by
  cases k with
  | deviceDescriptor =>
    by_cases h₁ : (DeviceDescriptor.iManufacturer s).Terminated
    · have h₂ : ¬ (DeviceDescriptor.iProduct s).Terminated := fun h₂ => h ⟨h₁, h₂⟩
      have hfirst : Coded s (DeviceDescriptor.fields.take 1) _ _ :=
        .present (.required 1 (stringLtype_roundTrip (by norm_num) h₁)) .nil
      have hnone := pbDecode_refused_string (by norm_num) (fields_wf deviceDescriptor) hfirst h₂
        (uint32Wire 3 (DeviceDescriptor.bMaxPacketSize0 s)) dest
      rw [List.append_nil] at hnone
      exact hnone
    · have hfirst : Coded s (DeviceDescriptor.fields.take 0) [] _ := .nil
      exact pbDecode_refused_string (by norm_num) (fields_wf deviceDescriptor) hfirst h₁
        (stringWire 2 (DeviceDescriptor.iProduct s) ++
          uint32Wire 3 (DeviceDescriptor.bMaxPacketSize0 s)) dest
  | hidReport => exact pbDecode_oneString (by norm_num) (fields_wf hidReport) h dest
  | inputReport => exact pbDecode_oneString (by norm_num) (fields_wf inputReport) h dest
  | speechSynth => exact pbDecode_oneString (by norm_num) (fields_wf speechSynth) h dest
  | time => exact absurd trivial h
  | alarm => exact absurd hb h
  | neopixel => exact absurd trivial h

/-- What comes back of a member, decoded into any struct. -/
theorem decode_iff (k : Member) {s : k.Struct} (hb : k.Bools s) (dest : k.Struct) :
    (pbDecode k.fields (k.wire s) dest = none ↔ ¬ k.WF s) ∧
      ∀ d, pbDecode k.fields (k.wire s) dest = some d → k.Same d s := by
  by_cases h : k.WF s
  · obtain ⟨u, hu, hs⟩ := k.coded h
    have hd : pbDecode k.fields (k.wire s) dest = some _ := hu.reads k.fields_wf _
    rw [hd]
    refine ⟨iff_of_false nofun (not_not.2 h), fun d hd => ?_⟩
    rw [← Option.some_inj.1 hd]
    exact hs dest
  · rw [k.decode_refused hb h dest]
    exact ⟨iff_of_true rfl h, nofun⟩

end Member

/-! ## Union messages -/

namespace UnionMessage

/-- The `bool`s of the members that are set hold 0 or 1. -/
def Bools (m : UnionMessage) : Prop := ∀ k : Member, k.has m = true → k.Bools (k.get m)

theorem length_fieldWire_le (m : UnionMessage) (k : Member) : (k.fieldWire m).length ≤ 262 := by
  rw [Member.fieldWire]
  split_ifs
  · have hl := k.length_wire_le (k.get m)
    have hd := length_delimit (w := k.wire (k.get m)) (by omega)
    have ht : k.tag < 15 := by cases k <;> decide
    rw [length_bytesWire ht]
    omega
  · exact Nat.zero_le _

theorem length_wire_le (m : UnionMessage) : m.wire.length ≤ 7 * 262 := by
  have h := List.sum_le_card_nsmul (Member.all.map fun k => (k.fieldWire m).length) 262 ?_
  · rw [wire, List.length_flatMap]
    rw [List.length_map] at h
    exact h
  · intro n hn
    obtain ⟨k, -, rfl⟩ := List.mem_map.1 hn
    exact length_fieldWire_le m k

theorem writes_members {m : UnionMessage} (h : m.Bools) (ks : List Member) :
    Writes (pbEncode m (ks.map Member.field)) (ks.flatMap fun k => k.fieldWire m) := by
  induction ks with
  | nil => exact .nil
  | cons k ks ih =>
    rw [List.map_cons, List.flatMap_cons]
    refine Writes.cons ?_ ih
    rw [Member.fieldWire]
    have htag : k.tag < 2 ^ 29 := by cases k <;> decide
    cases hk : k.has m with
    | false => exact writes_absent rfl hk
    | true =>
      have hlen := k.length_wire_le (k.get m)
      exact writes_present (f := k.field) (Or.inr hk) htag
        (writes_pbEncodeSubmessage (k.writes (h k hk)) (by omega))

/-- **Every union message is written whole.** -/
theorem writes {m : UnionMessage} (h : m.Bools) : Writes (pbEncode m fields) m.wire := by
  rw [unionMessage_fields]
  exact writes_members h Member.all

end UnionMessage

/-- The bytes that `marshal` makes of a message. -/
def UnionMessage.marshalled (m : UnionMessage) (delimited : Bool) : List UInt8 :=
  if delimited then delimit m.wire else m.wire

theorem UnionMessage.Bools.marshal_eq {m : UnionMessage} (h : m.Bools) (bufsize : ℕ)
    (delimited : Bool) :
    let w := m.marshalled delimited
    let r := marshal m UnionMessage.fields bufsize delimited
    if w.length ≤ bufsize then r = (w.length, w) else r.1 = sizeMax := by
  intro w r
  have hlen := m.length_wire_le
  have hw : Writes (fun st =>
      if delimited then pbEncodeSubmessage (pbEncode m UnionMessage.fields) st
      else pbEncode m UnionMessage.fields st) w := by
    cases delimited with
    | false => exact m.writes h
    | true => exact writes_pbEncodeSubmessage (m.writes h) (by omega)
  have hbuf := hw.fromBuffer bufsize
  simp only [r, marshal]
  by_cases hfit : w.length ≤ bufsize
  · rw [if_pos hfit] at hbuf
    rw [if_pos hfit, hbuf]
    rfl
  · rw [if_neg hfit] at hbuf
    rw [if_neg hfit, hbuf]
    rfl

/-- **`marshal` succeeds exactly where the wire form fits**: it then returns its length, and it is
    what the buffer holds; and otherwise it returns -1. -/
theorem marshal_any {m : UnionMessage} (h : m.Bools) (bufsize : ℕ) (delimited : Bool) :
    let w := m.marshalled delimited
    let r := marshal m UnionMessage.fields bufsize delimited
    r.1 = (if w.length ≤ bufsize then w.length else sizeMax) ∧ (w.length ≤ bufsize → r.2 = w) := by
  intro w r
  have hr := h.marshal_eq bufsize delimited
  dsimp only at hr
  by_cases hfit : w.length ≤ bufsize
  · rw [if_pos hfit] at hr
    rw [if_pos hfit]
    exact ⟨congrArg Prod.fst hr, fun _ => congrArg Prod.snd hr⟩
  · rw [if_neg hfit] at hr
    rw [if_neg hfit]
    exact ⟨hr, fun hle => absurd hle hfit⟩

/-- A message whose string fills its array. -/
def fullMessage : UnionMessage :=
  { UnionMessage.initZero with
    hasInputReport := true, inputReport := ⟨⟨List.replicate 64 0x41, by simp⟩⟩ }

theorem fullMessage_bools : fullMessage.Bools := by
  intro k hk
  cases k <;> first | exact absurd hk (by decide) | trivial

/-- Its 64 bytes are written behind two tags and three lengths. -/
theorem marshal_any_fullMessage :
    (marshal fullMessage UnionMessage.fields 69 true).1 = 69 ∧
      (marshal fullMessage UnionMessage.fields 68 true).1 = sizeMax :=
  ⟨(marshal_any fullMessage_bools 69 true).1.trans (by decide +kernel),
    (marshal_any fullMessage_bools 68 true).1.trans (by decide +kernel)⟩

/-- The bytes of a message in a buffer, and others behind it. -/
theorem unmarshal_marshalled {m : UnionMessage} (h : m.Bools) {k : Member}
    (hk : m.firstSet = some k) {reg : Registry} {fn : FnPtr}
    (hreg : reg.lookup (some k.ptr) = some fn) (delimited : Bool) (trailing : List UInt8) :
    let buf := m.marshalled delimited ++ trailing
    ∃ stream, unmarshal reg buf buf.length delimited = (true, [⟨fn, stream, some k.ptr⟩]) ∧
      ∀ dest : k.Struct, ((decodeUnion stream k.fields dest).1 = none ↔ ¬ k.WF (k.get m)) ∧
        ∀ d, (decodeUnion stream k.fields dest).1 = some d → k.Same d (k.get m) := by
  intro buf
  have hlen := m.length_wire_le
  -- the message in the buffer, and what follows in it
  obtain ⟨rest, hmsg⟩ : ∃ rest, messageOf buf buf.length delimited = some (m.wire ++ rest) := by
    cases delimited with
    | false => exact ⟨trailing, messageOf_plain _⟩
    | true =>
      refine ⟨[], ?_⟩
      rw [List.append_nil]
      exact messageOf_delimit (by omega) le_rfl
  obtain ⟨rest', hcall⟩ := unmarshalLookupCallback_wire hk hreg rest
  refine ⟨delimit (k.wire (k.get m)) ++ rest', ?_, fun dest => ?_⟩
  · rw [unmarshal, unmarshalWith_eq, hmsg]
    exact hcall
  · have hwire := k.length_wire_le (k.get m)
    rw [decodeUnion_append _ (by omega)]
    exact k.decode_iff (h k (UnionMessage.firstSet_spec hk).1) dest

/-- **What comes back of any message**: where `marshal` has succeeded, `unmarshal` calls the handler
    of the set member with the lowest tag, and `decode_union` fails in it exactly if a string of
    that member fills its array; and otherwise makes the same struct of it. -/
theorem unmarshal_marshal_iff {m : UnionMessage} (h : m.Bools) {k : Member}
    (hk : m.firstSet = some k) {reg : Registry} {fn : FnPtr}
    (hreg : reg.lookup (some k.ptr) = some fn) {bufsize : ℕ} {delimited : Bool}
    (hfit : (m.marshalled delimited).length ≤ bufsize) (trailing : List UInt8) :
    let buf := (marshal m UnionMessage.fields bufsize delimited).2 ++ trailing
    ∃ stream, unmarshal reg buf buf.length delimited = (true, [⟨fn, stream, some k.ptr⟩]) ∧
      ∀ dest : k.Struct, ((decodeUnion stream k.fields dest).1 = none ↔ ¬ k.WF (k.get m)) ∧
        ∀ d, (decodeUnion stream k.fields dest).1 = some d → k.Same d (k.get m) := by
  intro buf
  have hbuf : buf = m.marshalled delimited ++ trailing := by
    have hr := h.marshal_eq bufsize delimited
    rw [if_pos hfit] at hr
    exact congrArg (fun r => r.2 ++ trailing) hr
  rw [hbuf]
  exact unmarshal_marshalled h hk hreg delimited trailing

/-- The handler is called, but what it decodes fails. -/
theorem unmarshal_marshal_iff_fullMessage :
    let buf := (marshal fullMessage UnionMessage.fields 300 true).2 ++ [1, 2]
    ∃ stream, unmarshal sevenHandlers buf buf.length true =
        (true, [⟨3, stream, some .inputReport⟩]) ∧
      ∀ dest, (decodeUnion stream InputReport.fields dest).1 = none := by
  have hnot : ¬ Member.inputReport.WF fullMessage.inputReport := by
    show ¬ fullMessage.inputReport.data.strlen < 64
    decide +kernel
  obtain ⟨stream, hu, hd⟩ := unmarshal_marshal_iff fullMessage_bools (k := .inputReport) rfl
    (rfl : sevenHandlers.lookup (some .inputReport) = some 3)
    (show (fullMessage.marshalled true).length ≤ 300 by decide +kernel) [1, 2]
  exact ⟨stream, hu, fun dest => ((hd dest).1).2 hnot⟩

end PacketSerial

/-
  nanopb: field tables, `pb_encode` and `pb_decode`.

  A table (`pb_field_t[]`) describes a C struct `σ` field by field.  A field has a
  value type (`PbLtype`: its entries in `PB_DECODERS` and `PB_ENCODERS`, and its
  default) and a rule, required or optional; all fields here are static.  `π` is
  the type of the pointers to tables.

  Differences from C that nothing can observe: the search for a field starts at
  the head of the table and not at the last field found (tags are distinct); there
  are no extension fields; on failure the destination is not returned (no caller
  reads it); a table has fewer than 32 required fields, so `fields_seen` is one
  word.
-/
import PacketSerial.Lib.Buffer
import PacketSerial.Nanopb.Istream
import PacketSerial.Nanopb.Ostream

namespace PacketSerial

variable {π σ τ α : Type}

/-! ## Field types -/

/-- `PB_LTYPE_*`: the scalar types in use. -/
inductive Ltype where
  | varint
  | uvarint
  | bytes
  | string
  | submessage
deriving DecidableEq, Repr

def Ltype.code : Ltype → ℕ
  | varint => 0x00
  | uvarint => 0x01
  | bytes => 0x05
  | string => 0x06
  | submessage => 0x07

/-- The wire type that `pb_encode_tag_for_field` gives a scalar type. -/
def Ltype.wireType : Ltype → ℕ
  | varint | uvarint => 0
  | bytes | string | submessage => 2

/-- `PB_HTYPE_*`: the repetition rules in use. -/
inductive Htype where
  | required
  | optional
deriving DecidableEq, Repr

def Htype.code : Htype → ℕ
  | required => 0x00
  | optional => 0x10

/-- A value type: the entries of `PB_DECODERS` and `PB_ENCODERS` for it at the C
    type `α`, and what `pb_field_set_to_default` stores. -/
structure PbLtype (π α : Type) where
  ltype : Ltype
  /-- the table of a submessage -/
  ptr : Option π
  setToDefault : α → α
  decode : PbIstream → α → Option (α × PbIstream)
  encode : α → PbOstream → Bool × PbOstream
  decode_length : ∀ {stream d d' rest}, decode stream d = some (d', rest) →
    rest.length ≤ stream.length

/-- A member of the struct `σ`, of C type `α`. -/
structure PbMember (σ α : Type) where
  get : σ → α
  set : α → σ → σ

/-- `pb_field_t` -/
structure PbField (π σ : Type) where
  tag : ℕ
  htype : Htype
  ltype : Ltype
  ptr : Option π
  /-- `*(bool*)pSize` of an optional field -/
  has : σ → Bool
  setHas : σ → σ
  setToDefault : σ → σ
  decode : PbIstream → σ → Option (σ × PbIstream)
  encode : σ → PbOstream → Bool × PbOstream
  decode_length : ∀ {stream d d' rest}, decode stream d = some (d', rest) →
    rest.length ≤ stream.length

/-- `type`: the allocation (static, 0), the rule and the scalar type in one byte. -/
def PbField.type (f : PbField π σ) : ℕ := f.htype.code ||| f.ltype.code

/-- The value of a member, as a field value of the struct. -/
def PbLtype.decodeAt (l : PbLtype π α) (m : PbMember σ α) (stream : PbIstream) (d : σ) :
    Option (σ × PbIstream) :=
  (l.decode stream (m.get d)).map fun r => (m.set r.1 d, r.2)

theorem PbLtype.decodeAt_length (l : PbLtype π α) (m : PbMember σ α) {stream rest : PbIstream}
    {d d' : σ} (h : l.decodeAt m stream d = some (d', rest)) : rest.length ≤ stream.length := by
  simp only [decodeAt, Option.map_eq_some_iff, Prod.mk.injEq] at h
  obtain ⟨r, hr, -, rfl⟩ := h
  exact l.decode_length hr

/-- `PB_REQUIRED_STATIC` -/
def PbField.required (tag : ℕ) (l : PbLtype π α) (m : PbMember σ α) : PbField π σ where
  tag := tag
  htype := .required
  ltype := l.ltype
  ptr := l.ptr
  has _ := true
  setHas d := d
  setToDefault d := m.set (l.setToDefault (m.get d)) d
  decode := l.decodeAt m
  encode d := l.encode (m.get d)
  decode_length := l.decodeAt_length m

/-- `PB_OPTIONAL_STATIC`; `h` is the member `has_..`. -/
def PbField.optional (tag : ℕ) (l : PbLtype π α) (m : PbMember σ α) (h : PbMember σ Bool) :
    PbField π σ where
  tag := tag
  htype := .optional
  ltype := l.ltype
  ptr := l.ptr
  has := h.get
  setHas := h.set true
  setToDefault d := m.set (l.setToDefault (m.get d)) (h.set false d)
  decode := l.decodeAt m
  encode d := l.encode (m.get d)
  decode_length := l.decodeAt_length m

/-! ## Encoding a message -/

/-- `pb_encode_tag_for_field` -/
def pbEncodeTagForField (f : PbField π σ) : PbOstream → Bool × PbOstream :=
  pbEncodeTag f.ltype.wireType f.tag

/-- `encode_basic_field` -/
def encodeBasicField (f : PbField π σ) (src : σ) (stream : PbOstream) : Bool × PbOstream :=
  match f.htype with
  | .required => andThen (pbEncodeTagForField f stream) (f.encode src)
  | .optional =>
    if f.has src then andThen (pbEncodeTagForField f stream) (f.encode src) else (true, stream)

/-- `pb_encode` -/
def pbEncode (src : σ) : List (PbField π σ) → PbOstream → Bool × PbOstream
  | [], stream => (true, stream)
  | f :: fields, stream => andThen (encodeBasicField f src stream) (pbEncode src fields)

/-! ## Decoding a message -/

/-- `pb_message_set_to_defaults` -/
def pbMessageSetToDefaults (fields : List (PbField π σ)) (dest : σ) : σ :=
  fields.foldl (fun d f => f.setToDefault d) dest

/-- `pb_field_iter_find`: the field with the tag, and the number of required fields
    before it (`required_field_index`). -/
def pbFieldIterFind (tag : ℕ) : ℕ → List (PbField π σ) → Option (ℕ × PbField π σ)
  | _, [] => none
  | i, f :: fields =>
    if f.tag = tag then some (i, f)
    else pbFieldIterFind tag (if f.htype = .required then i + 1 else i) fields

/-- `req_field_count` -/
def reqFieldCount (fields : List (PbField π σ)) : ℕ := fields.countP (·.htype = .required)

/-- The check that all required fields were present. -/
def allFieldsSeen (fields : List (PbField π σ)) (fieldsSeen : ℕ) : Prop :=
  reqFieldCount fields % 32 ≠ 0 →
    fieldsSeen = (2 ^ 32 - 1) >>> (32 - reqFieldCount fields % 32)

instance (fields : List (PbField π σ)) (fieldsSeen : ℕ) :
    Decidable (allFieldsSeen fields fieldsSeen) :=
  inferInstanceAs (Decidable (_ → _))

/-- `decode_static_field` -/
def decodeStaticField (f : PbField π σ) (stream : PbIstream) (dest : σ) :
    Option (σ × PbIstream) :=
  match f.htype with
  | .required => f.decode stream dest
  | .optional => f.decode stream (f.setHas dest)

/-- The loop of `pb_decode_noinit`, for at most `fuel - 1` fields. -/
def pbDecodeLoop (fields : List (PbField π σ)) : ℕ → PbIstream → σ → ℕ → Option σ
  | 0, _, _, _ => none
  | fuel + 1, stream, dest, fieldsSeen =>
    let done := if allFieldsSeen fields fieldsSeen then some dest else none
    if stream = [] then done
    else
      match pbDecodeTag stream with
      | (none, eof, _) => if eof then done else none
      | (some (wireType, tag), _, stream) =>
        match pbFieldIterFind tag 0 fields with
        | none =>
          match pbSkipField stream wireType with
          | (false, _) => none
          | (true, stream) => pbDecodeLoop fields fuel stream dest fieldsSeen
        | some (i, f) =>
          let fieldsSeen := if f.htype = .required then fieldsSeen ||| 1 <<< i else fieldsSeen
          match decodeStaticField f stream dest with
          | none => none
          | some (dest, stream) => pbDecodeLoop fields fuel stream dest fieldsSeen

/-- `pb_decode_noinit`: every field takes a byte at least. -/
def pbDecodeNoinit (fields : List (PbField π σ)) (stream : PbIstream) (dest : σ) : Option σ :=
  pbDecodeLoop fields (stream.length + 1) stream dest 0

/-- `pb_decode` -/
def pbDecode (fields : List (PbField π σ)) (stream : PbIstream) (dest : σ) : Option σ :=
  pbDecodeNoinit fields stream (pbMessageSetToDefaults fields dest)

theorem decodeStaticField_length {f : PbField π σ} {stream rest : PbIstream} {d d' : σ}
    (h : decodeStaticField f stream d = some (d', rest)) : rest.length ≤ stream.length := by
  unfold decodeStaticField at h
  split at h <;> exact f.decode_length h

/-- **The loop never runs out of fuel**: with more of it, it does the same. -/
theorem pbDecodeLoop_fuel (fields : List (PbField π σ)) : ∀ {k n : ℕ} {stream : PbIstream}
    {dest : σ} {fieldsSeen : ℕ}, stream.length < k → stream.length < n →
    pbDecodeLoop fields k stream dest fieldsSeen = pbDecodeLoop fields n stream dest fieldsSeen
  | 0, _, _, _, _, hk, _ => by omega
  | _, 0, _, _, _, _, hn => by omega
  | k + 1, n + 1, stream, dest, fieldsSeen, hk, hn => by
    simp only [pbDecodeLoop]
    by_cases hs : stream = []
    · simp only [if_pos hs]
    · simp only [if_neg hs]
      rcases ht : pbDecodeTag stream with ⟨_ | ⟨wireType, tag⟩, eof, rest⟩
      · rfl
      · have hlt := pbDecodeTag_length ht
        dsimp only
        rcases pbFieldIterFind tag 0 fields with _ | ⟨i, f⟩
        · have hle := (pbSkipField_suffix rest wireType).length_le
          dsimp only
          rcases hk : pbSkipField rest wireType with ⟨_ | _, rest'⟩
          · rfl
          · have hle : rest'.length ≤ rest.length := by rwa [hk] at hle
            exact pbDecodeLoop_fuel fields (by omega) (by omega)
        · dsimp only
          rcases hd : decodeStaticField f rest dest with _ | ⟨dest', rest'⟩
          · rfl
          · have hle := decodeStaticField_length hd
            exact pbDecodeLoop_fuel fields (by omega) (by omega)

end PacketSerial

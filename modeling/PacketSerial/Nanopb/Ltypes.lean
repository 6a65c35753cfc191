/-
  nanopb: the value types, with their decoders and encoders (`pb_dec_*`,
  `pb_enc_*`), and what each writes and reads back.

  `RoundTrip l a w u`: the value `a` is written as the bytes `w`, and reading `w`
  over a destination `d` leaves `u d` there (`u d = a` for numbers; a string is
  copied with its terminator and leaves the rest of the array alone).  It also says
  what becomes of a value whose tail has been lost to zeros (`cut`).
-/
import PacketSerial.Integers
import PacketSerial.Nanopb.Fields

namespace PacketSerial

variable {π σ τ α : Type}

/-- The value `a` is written as `w`, and read back by the update `u`; if only the
    first `j` bytes of `w` are there, and zeros after them, no reader stops before
    the zeros. -/
structure RoundTrip (l : PbLtype π α) (a : α) (w : List UInt8) (u : α → α) : Prop where
  writes : Writes (l.encode a) w
  reads : ∀ d rest, l.decode (w ++ rest) d = some (u d, rest)
  cut : ∀ {d d' : α} {rest zs : PbIstream} {j : ℕ}, j < w.length → (∀ b ∈ zs, b = 0) →
    l.decode (w.take j ++ zs) d = some (d', rest) → rest <:+ zs

/-! ## Unsigned numbers -/

/-- `pb_dec_uvarint` into a number of `bits` bits -/
def pbDecUvarint (bits : ℕ) (stream : PbIstream) : Option (ℕ × PbIstream) :=
  match pbDecodeVarint stream with
  | (none, _) => none
  | (some value, stream) => if value % 2 ^ bits ≠ value then none else some (value, stream)

theorem pbDecUvarint_length {bits n : ℕ} {stream rest : PbIstream}
    (h : pbDecUvarint bits stream = some (n, rest)) : rest.length ≤ stream.length := by
  have hs := (pbDecodeVarint_suffix stream).length_le
  unfold pbDecUvarint at h
  split at h
  · cases h
  · rename_i heq
    rw [heq] at hs
    split_ifs at h
    cases h; exact hs

theorem pbDecUvarint_encode {bits n : ℕ} (h : n < 2 ^ bits) (hb : bits ≤ 64) (rest : PbIstream) :
    pbDecUvarint bits (Varint.encode n ++ rest) = some (n, rest) := by
  have h64 : n < 2 ^ 64 := h.trans_le (Nat.pow_le_pow_right (by omega) hb)
  simp [pbDecUvarint, pbDecodeVarint_encode h64, Nat.mod_eq_of_lt h]

theorem pbDecUvarint_cut {bits n v j : ℕ} {zs : List UInt8} {rest : PbIstream}
    (hj : j < (Varint.encode n).length) (hz : ∀ b ∈ zs, b = 0)
    (h : pbDecUvarint bits ((Varint.encode n).take j ++ zs) = some (v, rest)) : rest <:+ zs := by
  unfold pbDecUvarint at h
  rcases heq : pbDecodeVarint ((Varint.encode n).take j ++ zs) with ⟨_ | value, stream⟩ <;>
    rw [heq] at h
  · cases h
  · dsimp only at h
    split_ifs at h
    cases h
    exact pbDecodeVarint_cut hj hz heq

/-- `PB_LTYPE_UVARINT` with `data_size` 4 (`uint32_t`, enumerations) -/
def uint32Ltype : PbLtype π UInt32 where
  ltype := .uvarint
  ptr := none
  setToDefault _ := 0
  decode stream _ := (pbDecUvarint 32 stream).map fun r => (UInt32.ofNat r.1, r.2)
  encode a := pbEncodeVarint a.toNat
  decode_length h := by
    simp only [Option.map_eq_some_iff, Prod.mk.injEq] at h
    obtain ⟨r, hr, -, rfl⟩ := h
    exact pbDecUvarint_length hr

/-- `PB_LTYPE_UVARINT` with `data_size` 1 (`int_size:IS_8`) -/
def uint8Ltype : PbLtype π UInt8 where
  ltype := .uvarint
  ptr := none
  setToDefault _ := 0
  decode stream _ := (pbDecUvarint 8 stream).map fun r => (UInt8.ofNat r.1, r.2)
  encode a := pbEncodeVarint a.toNat
  decode_length h := by
    simp only [Option.map_eq_some_iff, Prod.mk.injEq] at h
    obtain ⟨r, hr, -, rfl⟩ := h
    exact pbDecUvarint_length hr

theorem uint32Ltype_roundTrip (a : UInt32) :
    RoundTrip (uint32Ltype (π := π)) a (Varint.encode a.toNat) fun _ => a where
  writes := writes_pbEncodeVarint (a.toNat_lt.trans (by norm_num))
  reads d rest := by simp [uint32Ltype, pbDecUvarint_encode a.toNat_lt (by norm_num)]
  cut hj hz h := by
    simp only [uint32Ltype, Option.map_eq_some_iff, Prod.mk.injEq] at h
    obtain ⟨r, hr, -, rfl⟩ := h
    exact pbDecUvarint_cut hj hz hr

theorem uint8Ltype_roundTrip (a : UInt8) :
    RoundTrip (uint8Ltype (π := π)) a (Varint.encode a.toNat) fun _ => a where
  writes := writes_pbEncodeVarint (a.toNat_lt.trans (by norm_num))
  reads d rest := by simp [uint8Ltype, pbDecUvarint_encode a.toNat_lt (by norm_num)]
  cut hj hz h := by
    simp only [uint8Ltype, Option.map_eq_some_iff, Prod.mk.injEq] at h
    obtain ⟨r, hr, -, rfl⟩ := h
    exact pbDecUvarint_cut hj hz hr

/-! ## Booleans -/

/-- `pb_dec_varint` with `data_size` 1; the result is the byte stored. -/
def pbDecVarint8 (stream : PbIstream) : Option (UInt8 × PbIstream) :=
  match pbDecodeVarint stream with
  | (none, _) => none
  | (some value, stream) =>
    let svalue := toInt32 value
    let clamped := toInt8 svalue
    if clamped ≠ svalue then none else some (UInt8.ofNat (clamped % 256).toNat, stream)

theorem pbDecVarint8_length {a : UInt8} {stream rest : PbIstream}
    (h : pbDecVarint8 stream = some (a, rest)) : rest.length ≤ stream.length := by
  have hs := (pbDecodeVarint_suffix stream).length_le
  unfold pbDecVarint8 at h
  rcases heq : pbDecodeVarint stream with ⟨_ | value, stream'⟩ <;> rw [heq] at h hs
  · simp at h
  · simp only [Option.ite_none_left_eq_some, Option.some.injEq, Prod.mk.injEq] at h
    exact h.2.2 ▸ hs

theorem pbDecVarint8_cut {n j : ℕ} {a : UInt8} {zs : List UInt8} {rest : PbIstream}
    (hj : j < (Varint.encode n).length) (hz : ∀ b ∈ zs, b = 0)
    (h : pbDecVarint8 ((Varint.encode n).take j ++ zs) = some (a, rest)) : rest <:+ zs := by
  unfold pbDecVarint8 at h
  rcases heq : pbDecodeVarint ((Varint.encode n).take j ++ zs) with ⟨_ | value, stream⟩ <;>
    rw [heq] at h
  · simp at h
  · simp only [Option.ite_none_left_eq_some, Option.some.injEq, Prod.mk.injEq] at h
    exact h.2.2 ▸ pbDecodeVarint_cut hj hz heq

/-- The value of `pb_enc_varint` with `data_size` 1, as a `uint64_t`. -/
def encVarint8 (a : UInt8) : ℕ := (toInt8 a.toNat % 2 ^ 64).toNat

/-- `PB_LTYPE_VARINT` with `data_size` 1 (`bool`); the value is the byte of the `bool`. -/
def boolLtype : PbLtype π UInt8 where
  ltype := .varint
  ptr := none
  setToDefault _ := 0
  decode stream _ := pbDecVarint8 stream
  encode a := pbEncodeVarint (encVarint8 a)
  decode_length := pbDecVarint8_length

theorem pbDecVarint8_bool {n : ℕ} (h : n ≤ 1) (rest : PbIstream) :
    pbDecVarint8 (Varint.encode n ++ rest) = some (UInt8.ofNat n, rest) := by
  have h64 : n < 2 ^ 64 := by omega
  have h1 : toInt32 n = n := toInt32_of_lt (by omega)
  have h2 : toInt8 n = n := Int.bmod_eq_of_le (by omega) (by omega)
  simp only [pbDecVarint8, pbDecodeVarint_encode h64, h1, h2]
  rw [if_neg (by simp), show ((n : ℤ) % 256).toNat = n by omega]

theorem boolLtype_roundTrip {a : UInt8} (h : a.toNat ≤ 1) :
    RoundTrip (boolLtype (π := π)) a (Varint.encode a.toNat) fun _ => a where
  writes := by
    have h8 : toInt8 a.toNat = a.toNat := Int.bmod_eq_of_le (by omega) (by omega)
    have h2 : encVarint8 a = a.toNat := by rw [encVarint8, h8]; omega
    have h64 : a.toNat < 2 ^ 64 := by omega
    simp only [boolLtype, h2]
    exact writes_pbEncodeVarint h64
  reads d rest := by
    simp only [boolLtype, pbDecVarint8_bool h, UInt8.ofNat_toNat]
  cut hj hz h := pbDecVarint8_cut hj hz h

/-! ## Byte arrays -/

/-- The used part of a `PB_BYTES_ARRAY_T(n)`: `size` bytes of `bytes[n]`. -/
structure BytesArray (n : ℕ) where
  bytes : List UInt8
  size_le : bytes.length ≤ n
deriving DecidableEq, Repr

namespace BytesArray
variable {n : ℕ}

@[ext] theorem ext {a b : BytesArray n} (h : a.bytes = b.bytes) : a = b := by
  cases a; cases b; cases h; rfl

/-- `size` -/
def size (a : BytesArray n) : ℕ := a.bytes.length

def empty : BytesArray n := ⟨[], Nat.zero_le n⟩

/-- The array with the bytes of `l`, of which there is room for `n`. -/
def ofList (l : List UInt8) : BytesArray n := ⟨l.take n, by simp⟩

theorem bytes_ofList {l : List UInt8} (h : l.length ≤ n) : (ofList l : BytesArray n).bytes = l :=
  List.take_of_length_le h

end BytesArray

/-- `bytes` stands in the stream with its length in front. -/
def ReadSized (stream : PbIstream) (bytes : List UInt8) (rest : PbIstream) : Prop :=
  ∃ size stream', pbDecodeVarint32 stream = (some size, stream') ∧
    pbRead stream' size = (some bytes, rest)

theorem ReadSized.length {stream rest : PbIstream} {bytes : List UInt8}
    (h : ReadSized stream bytes rest) : rest.length ≤ stream.length := by
  obtain ⟨size, stream', hv, hr⟩ := h
  have hs := pbDecodeVarint32_suffix stream
  have hread := pbRead_suffix stream' size
  rw [hv] at hs
  rw [hr] at hread
  exact (hread.trans hs).length_le

theorem ReadSized.cut {s zs bytes : List UInt8} {j : ℕ} {rest : PbIstream} (hs : s.length < 2 ^ 32)
    (hz : ∀ b ∈ zs, b = 0) (h : ReadSized ((Varint.encode s.length ++ s).take j ++ zs) bytes rest) :
    rest <:+ zs := by
  obtain ⟨size, stream', hv, hr⟩ := h
  exact pbRead_cut hs hz hv hr

/-- `pb_dec_bytes`: `pb_size_t` has 16 bits, and the array type adds its two bytes
    to the `n` of `bytes`. -/
def pbDecBytes (n : ℕ) (stream : PbIstream) : Option (List UInt8 × PbIstream) :=
  match pbDecodeVarint32 stream with
  | (none, _) => none
  | (some size, stream) =>
    let allocSize := size + 2
    if size > 65535 then none
    else if allocSize > n + 2 then none
    else
      match pbRead stream size with
      | (none, _) => none
      | (some bytes, stream) => some (bytes, stream)

theorem pbDecBytes_read {n : ℕ} {stream rest : PbIstream} {bytes : List UInt8}
    (h : pbDecBytes n stream = some (bytes, rest)) : ReadSized stream bytes rest := by
  unfold pbDecBytes at h
  rcases hv : pbDecodeVarint32 stream with ⟨_ | size, stream'⟩ <;> rw [hv] at h
  · cases h
  · dsimp only at h
    split_ifs at h
    rcases hr : pbRead stream' size with ⟨_ | x, stream''⟩ <;> rw [hr] at h
    · cases h
    · cases h; exact ⟨size, stream', hv, hr⟩

/-- `PB_LTYPE_BYTES` -/
def bytesLtype (n : ℕ) : PbLtype π (BytesArray n) where
  ltype := .bytes
  ptr := none
  setToDefault _ := .empty
  decode stream _ := (pbDecBytes n stream).map fun r => (.ofList r.1, r.2)
  encode a := pbEncodeString a.bytes a.size
  decode_length h := by
    simp only [Option.map_eq_some_iff, Prod.mk.injEq] at h
    obtain ⟨r, hr, -, rfl⟩ := h
    exact (pbDecBytes_read hr).length

theorem pbDecBytes_encode {n : ℕ} {s : List UInt8} (hs : s.length ≤ n) (hn : n < 65536)
    (rest : PbIstream) :
    pbDecBytes n (Varint.encode s.length ++ (s ++ rest)) = some (s, rest) := by
  simp only [pbDecBytes, pbDecodeVarint32_encode (show s.length < 2 ^ 32 by omega)]
  rw [if_neg (by omega), if_neg (by omega)]
  simp [pbRead]

theorem bytesLtype_roundTrip {n : ℕ} (hn : n < 65536) (a : BytesArray n) :
    RoundTrip (bytesLtype (π := π) n) a (Varint.encode a.size ++ a.bytes) fun _ => a where
  writes := writes_pbEncodeString (a.size_le.trans_lt (by omega))
  reads d rest := by
    have h := pbDecBytes_encode a.size_le hn rest
    simp only [bytesLtype, List.append_assoc, BytesArray.size, h, Option.map_some,
      Option.some.injEq, Prod.mk.injEq, and_true]
    exact BytesArray.ext (BytesArray.bytes_ofList a.size_le)
  cut _ hz h := by
    simp only [bytesLtype, Option.map_eq_some_iff, Prod.mk.injEq] at h
    obtain ⟨r, hr, -, rfl⟩ := h
    exact (pbDecBytes_read hr).cut (a.size_le.trans_lt (by omega)) hz

/-! ## Strings -/

/-- `pb_dec_string` into an array of `n` bytes, up to the terminator. -/
def pbDecString (n : ℕ) (stream : PbIstream) : Option (List UInt8 × PbIstream) :=
  match pbDecodeVarint32 stream with
  | (none, _) => none
  | (some size, stream) =>
    let allocSize := (size + 1) % 2 ^ 32
    if allocSize < size then none
    else if allocSize > n then none
    else
      match pbRead stream size with
      | (none, _) => none
      | (some bytes, stream) => some (bytes, stream)

theorem pbDecString_read {n : ℕ} {stream rest : PbIstream} {bytes : List UInt8}
    (h : pbDecString n stream = some (bytes, rest)) : ReadSized stream bytes rest := by
  unfold pbDecString at h
  rcases hv : pbDecodeVarint32 stream with ⟨_ | size, stream'⟩ <;> rw [hv] at h
  · cases h
  · dsimp only at h
    split_ifs at h
    rcases hr : pbRead stream' size with ⟨_ | x, stream''⟩ <;> rw [hr] at h
    · cases h
    · cases h; exact ⟨size, stream', hv, hr⟩

/-- `PB_LTYPE_STRING`: a `char` array of `n` bytes -/
def stringLtype (n : ℕ) : PbLtype π (Buffer n) where
  ltype := .string
  ptr := none
  setToDefault _ := .zero n
  decode stream d := (pbDecString n stream).map fun r => (d.memcpy 0 (r.1 ++ [0]), r.2)
  encode a := pbEncodeString a.bytes a.strlen
  decode_length h := by
    simp only [Option.map_eq_some_iff, Prod.mk.injEq] at h
    obtain ⟨r, hr, -, rfl⟩ := h
    exact (pbDecString_read hr).length

theorem pbDecString_encode {n : ℕ} {s : List UInt8} (hs : s.length < n) (hn : n < 2 ^ 32)
    (rest : PbIstream) :
    pbDecString n (Varint.encode s.length ++ (s ++ rest)) = some (s, rest) := by
  simp only [pbDecString, pbDecodeVarint32_encode (show s.length < 2 ^ 32 by omega)]
  rw [Nat.mod_eq_of_lt (by omega), if_neg (by omega), if_neg (by omega)]
  simp [pbRead]

/-- A string terminated inside its array. -/
theorem stringLtype_roundTrip {n : ℕ} (hn : n < 2 ^ 32) {a : Buffer n} (ha : a.strlen < n) :
    RoundTrip (stringLtype (π := π) n) a (Varint.encode a.strlen ++ cstr a.bytes)
      fun d => d.memcpy 0 (cstr a.bytes ++ [0]) where
  writes := by
    have h := writes_pbEncodeString (s := cstr a.bytes) (show a.strlen < 2 ^ 64 by omega)
    have he : pbEncodeString a.bytes a.strlen = pbEncodeString (cstr a.bytes) a.strlen := by
      funext st
      simp only [pbEncodeString, pbWrite]
      rw [show a.bytes.take a.strlen = cstr a.bytes from take_cstr_length _,
        show (cstr a.bytes).take a.strlen = cstr a.bytes from List.take_length]
    show Writes (pbEncodeString a.bytes a.strlen) _
    rw [he]; exact h
  reads d rest := by
    have h := pbDecString_encode (s := cstr a.bytes) ha hn rest
    simp only [stringLtype, List.append_assoc]
    rw [show a.strlen = (cstr a.bytes).length from rfl, h]
    rfl
  cut _ hz h := by
    simp only [stringLtype, Option.map_eq_some_iff, Prod.mk.injEq] at h
    obtain ⟨r, hr, -, rfl⟩ := h
    exact (pbDecString_read hr).cut (ha.trans hn) hz

/-! ## Submessages -/

/-- `PB_LTYPE_SUBMESSAGE` with the table `fields`, found at `ptr` -/
def submessageLtype (ptr : π) (fields : List (PbField π τ)) : PbLtype π τ where
  ltype := .submessage
  ptr := some ptr
  setToDefault := pbMessageSetToDefaults fields
  decode stream d :=
    -- `pb_dec_submessage`
    match pbMakeStringSubstream stream with
    | (none, _) => none
    | (some substream, stream) =>
      (pbDecodeNoinit fields substream d).map fun d => (d, stream)
  encode a := pbEncodeSubmessage (pbEncode a fields)
  decode_length {stream _ _ _} h := by
    have hs := (pbMakeStringSubstream_suffix stream).length_le
    split at h
    · cases h
    · rename_i heq
      rw [heq] at hs
      simp only [Option.map_eq_some_iff, Prod.mk.injEq] at h
      obtain ⟨_, -, -, rfl⟩ := h
      exact hs

end PacketSerial

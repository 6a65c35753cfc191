/-
  nanopb: what `pb_decode` makes of a message, said of its fields.

  * `WireField.apply`: what one field does to the struct; a field that the table does not
    have does nothing;
  * `pbDecodeNoinit_wireBytes`: a message is decoded as its fields say, one after the other,
    if all required ones are there;
  * `PbField.Apart`: two fields that have no member of the struct in common;
  * `decode_same_fields`: if all fields of a table are apart, each is decoded from its own
    occurrences in the message, wherever they stand.
-/
import PacketSerial.Lib.Steps
import PacketSerial.Nanopb.Grammar
import PacketSerial.Nanopb.Required

namespace PacketSerial

variable {π σ τ α β : Type}

/-! ## Numbers -/

theorem varintLoop_numeral {l : List UInt8} {n : ℕ} (hl : Varint.Numeral l n) :
    ∀ {bitpos result : ℕ} (rest : PbIstream), result < 2 ^ bitpos →
    result + n * 2 ^ bitpos < 2 ^ 64 → bitpos + 7 * l.length ≤ 70 →
    varintLoop bitpos result (l ++ rest) = (some (result + n * 2 ^ bitpos), rest) := by
  induction hl with
  | @last b hb =>
    intro bitpos result rest hr h64 hlen
    have hlast : ¬ b &&& 0x80 ≠ 0 := by rw [Varint.and_0x80_ne_zero]; omega
    rw [List.length_singleton] at hlen
    rw [List.singleton_append, varintLoop, if_neg (by omega)]
    simp only [if_neg hlast, Varint.toNat_and_0x7F, Nat.mod_eq_of_lt hb]
    rw [Varint.or_shiftLeft_group hr, Nat.mod_eq_of_lt h64]
  | @more b l n hb hl ih =>
    intro bitpos result rest hr h64 hlen
    have hmore : b &&& 0x80 ≠ 0 := Varint.and_0x80_ne_zero.2 hb
    have hp : 2 ^ (bitpos + 7) = 128 * 2 ^ bitpos := by rw [pow_add]; ring
    have hg : b.toNat % 128 * 2 ^ bitpos ≤ 127 * 2 ^ bitpos := Nat.mul_le_mul_right _ (by omega)
    have hsum : result + b.toNat % 128 * 2 ^ bitpos + n * 2 ^ (bitpos + 7) =
        result + (b.toNat % 128 + 128 * n) * 2 ^ bitpos := by
      rw [hp]; ring
    have hpos := hl.length_pos
    rw [List.length_cons] at hlen
    rw [List.cons_append, varintLoop, if_neg (by omega)]
    simp only [if_pos hmore, Varint.toNat_and_0x7F]
    rw [Varint.or_shiftLeft_group hr, Nat.mod_eq_of_lt (by omega),
      ih rest (by omega) (by omega) (by omega), hsum]

/-- **A 64-bit number is read from any numeral of it** of usual length. -/
theorem pbDecodeVarint_numeral {l : List UInt8} {n : ℕ} (hl : IsNumeral l n) (h : n < 2 ^ 64)
    (rest : PbIstream) : pbDecodeVarint (l ++ rest) = (some n, rest) := by
  have hlen := hl.2
  rw [pbDecodeVarint, varintLoop_numeral hl.1 rest (by simp) (by simpa using h) (by omega)]
  simp

theorem pbDecodeVarint32_isNumeral {l : List UInt8} {n : ℕ} (hl : IsNumeral l n) (h : n < 2 ^ 32)
    (rest : PbIstream) : pbDecodeVarint32 (l ++ rest) = (some n, rest) :=
  pbDecodeVarint32_numeral hl.1 (hl.2.trans (by omega)) h rest

/-! ## Values -/

/-- Of a complete value the decoder reads all, and nothing else. -/
def PbLtype.Local (l : PbLtype π α) : Prop :=
  ∀ ⦃v : List UInt8⦄, CompleteValue (WireType.ofNat l.ltype.wireType) v →
    ∃ g : α → Option α, ∀ d rest, l.decode (v ++ rest) d = (g d).map fun d' => (d', rest)

theorem CompleteValue.of_varint {v : List UInt8} (h : CompleteValue (WireType.ofNat 0) v) :
    ∃ n, IsNumeral v n ∧ n < 2 ^ 64 := by
  cases h with
  | varint hl hn => exact ⟨_, hl, hn⟩

theorem CompleteValue.of_string {v : List UInt8} (h : CompleteValue (WireType.ofNat 2) v) :
    ∃ l s, v = l ++ s ∧ IsNumeral l s.length ∧ s.length < 2 ^ 32 := by
  cases h with
  | string hl hs => exact ⟨_, _, rfl, hl, hs⟩

theorem pbDecUvarint_local (bits : ℕ) {v : List UInt8} (h : CompleteValue (WireType.ofNat 0) v) :
    ∃ g : Option ℕ, ∀ rest, pbDecUvarint bits (v ++ rest) = g.map fun n => (n, rest) := by
  obtain ⟨n, hn, h64⟩ := h.of_varint
  refine ⟨if n % 2 ^ bits ≠ n then none else some n, fun rest => ?_⟩
  rw [pbDecUvarint, pbDecodeVarint_numeral hn h64]
  dsimp only
  split_ifs <;> rfl

@[simp] theorem uint32Ltype_local : (uint32Ltype (π := π)).Local := by
  intro v hv
  obtain ⟨g, hg⟩ := pbDecUvarint_local 32 hv
  refine ⟨fun _ => g.map UInt32.ofNat, fun d rest => ?_⟩
  show (pbDecUvarint 32 (v ++ rest)).map _ = _
  rw [hg, Option.map_map, Option.map_map]
  rfl

@[simp] theorem uint8Ltype_local : (uint8Ltype (π := π)).Local := by
  intro v hv
  obtain ⟨g, hg⟩ := pbDecUvarint_local 8 hv
  refine ⟨fun _ => g.map UInt8.ofNat, fun d rest => ?_⟩
  show (pbDecUvarint 8 (v ++ rest)).map _ = _
  rw [hg, Option.map_map, Option.map_map]
  rfl

@[simp] theorem boolLtype_local : (boolLtype (π := π)).Local := by
  intro v hv
  obtain ⟨n, hn, h64⟩ := CompleteValue.of_varint hv
  refine ⟨fun _ => if toInt8 (toInt32 n) ≠ toInt32 n then none
    else some (UInt8.ofNat (toInt8 (toInt32 n) % 256).toNat), fun d rest => ?_⟩
  show pbDecVarint8 (v ++ rest) = _
  rw [pbDecVarint8, pbDecodeVarint_numeral hn h64]
  dsimp only
  split_ifs <;> rfl

@[simp] theorem bytesLtype_local (n : ℕ) : (bytesLtype (π := π) n).Local := by
  intro v hv
  obtain ⟨l, s, rfl, hl, hs⟩ := CompleteValue.of_string hv
  refine ⟨fun _ => if s.length > 65535 ∨ s.length + 2 > n + 2 then none else some (.ofList s),
    fun d rest => ?_⟩
  show (pbDecBytes n (l ++ s ++ rest)).map _ = _
  rw [List.append_assoc, pbDecBytes, pbDecodeVarint32_isNumeral hl hs]
  dsimp only
  by_cases h1 : s.length > 65535
  · rw [if_pos h1, if_pos (Or.inl h1)]
    rfl
  · by_cases h2 : s.length + 2 > n + 2
    · rw [if_neg h1, if_pos h2, if_pos (Or.inr h2)]
      rfl
    · rw [if_neg h1, if_neg h2, if_neg (not_or.2 ⟨h1, h2⟩)]
      simp [pbRead]

@[simp] theorem stringLtype_local (n : ℕ) : (stringLtype (π := π) n).Local := by
  intro v hv
  obtain ⟨l, s, rfl, hl, hs⟩ := CompleteValue.of_string hv
  refine ⟨fun d => if (s.length + 1) % 2 ^ 32 < s.length ∨ (s.length + 1) % 2 ^ 32 > n then none
    else some (d.memcpy 0 (s ++ [0])), fun d rest => ?_⟩
  show (pbDecString n (l ++ s ++ rest)).map _ = _
  rw [List.append_assoc, pbDecString, pbDecodeVarint32_isNumeral hl hs]
  dsimp only
  by_cases h1 : (s.length + 1) % 2 ^ 32 < s.length
  · rw [if_pos h1, if_pos (Or.inl h1)]
    rfl
  · by_cases h2 : (s.length + 1) % 2 ^ 32 > n
    · rw [if_neg h1, if_pos h2, if_pos (Or.inr h2)]
      rfl
    · rw [if_neg h1, if_neg h2, if_neg (not_or.2 ⟨h1, h2⟩)]
      simp [pbRead]

@[simp] theorem submessageLtype_local (ptr : π) (fields : List (PbField π τ)) :
    (submessageLtype ptr fields).Local := by
  intro v hv
  obtain ⟨l, s, rfl, hl, hs⟩ := CompleteValue.of_string hv
  refine ⟨fun d => pbDecodeNoinit fields s d, fun d rest => ?_⟩
  have hsub : pbMakeStringSubstream (l ++ s ++ rest) = (some s, rest) := by
    rw [List.append_assoc, pbMakeStringSubstream, pbDecodeVarint32_isNumeral hl hs]
    simp [pbRead]
  simp only [submessageLtype, hsub]

/-! ## Fields -/

/-- What the value `v` of the field does to the struct. -/
def PbField.value (f : PbField π σ) (v : List UInt8) (d : σ) : Option σ :=
  (decodeStaticField f v d).map (·.1)

def PbField.Local (f : PbField π σ) : Prop :=
  ∀ ⦃v : List UInt8⦄, CompleteValue (WireType.ofNat f.ltype.wireType) v → ∀ d rest,
    decodeStaticField f (v ++ rest) d = (f.value v d).map fun d' => (d', rest)

theorem decodeAt_local {l : PbLtype π α} (h : l.Local) {v : List UInt8}
    (hv : CompleteValue (WireType.ofNat l.ltype.wireType) v) (m : PbMember σ α) (d : σ)
    (rest : PbIstream) : l.decodeAt m (v ++ rest) d =
      ((l.decodeAt m v d).map (·.1)).map fun d' => (d', rest) := by
  obtain ⟨g, hg⟩ := h hv
  have hnil := hg (m.get d) []
  rw [List.append_nil] at hnil
  rw [PbLtype.decodeAt, PbLtype.decodeAt, hg, hnil]
  cases g (m.get d) <;> rfl

@[simp] theorem PbLtype.Local.required {l : PbLtype π α} (h : l.Local) (tag : ℕ) (m : PbMember σ α) :
    (PbField.required tag l m).Local :=
  fun _ hv d rest => decodeAt_local h hv m d rest

@[simp] theorem PbLtype.Local.optional {l : PbLtype π α} (h : l.Local) (tag : ℕ) (m : PbMember σ α)
    (has : PbMember σ Bool) : (PbField.optional tag l m has).Local :=
  fun _ hv d rest => decodeAt_local h hv m (has.set true d) rest

/-- What a field of a message does to the struct. -/
def WireField.apply (fields : List (PbField π σ)) (w : WireField) (d : σ) : Option σ :=
  match pbFieldIterFind w.tag 0 fields with
  | none => some d
  | some (_, f) => f.value w.value d

/-- The fields of a message, one after the other. -/
def decodeFields (fields : List (PbField π σ)) : List WireField → σ → Option σ :=
  Steps.run (WireField.apply fields)

/-- Fields that the table has, have the wire type of their entries. -/
def WellTyped (fields : List (PbField π σ)) (ws : List WireField) : Prop :=
  ∀ w ∈ ws, ∀ i f, pbFieldIterFind w.tag 0 fields = some (i, f) →
    w.wireType = WireType.ofNat f.ltype.wireType

/-- Every required field is there. -/
def HasRequired (fields : List (PbField π σ)) (ws : List WireField) : Prop :=
  ∀ f ∈ fields, f.htype = .required → ∃ w ∈ ws, w.tag = f.tag

instance (fields : List (PbField π σ)) (ws : List WireField) :
    Decidable (HasRequired fields ws) :=
  inferInstanceAs (Decidable (∀ _ ∈ _, _ → ∃ _ ∈ _, _))

/-! ## Required fields -/

/-- `fields_seen` after one more field. -/
def seenAfter (fields : List (PbField π σ)) (seen : ℕ) (w : WireField) : ℕ :=
  match pbFieldIterFind w.tag 0 fields with
  | none => seen
  | some (i, f) => if f.htype = .required then seen ||| 1 <<< i else seen

theorem find_of_mem {fields : List (PbField π σ)} (hwf : TableWF fields) {f : PbField π σ}
    (hf : f ∈ fields) : ∃ i, pbFieldIterFind f.tag 0 fields = some (i, f) := by
  obtain ⟨pre, post, rfl⟩ := List.append_of_mem hf
  have hnot : f.tag ∉ pre.map (·.tag) := by
    have := hwf.nodup
    rw [List.map_append, List.map_cons, List.nodup_append] at this
    exact fun hin => this.2.2 _ hin _ List.mem_cons_self rfl
  exact ⟨_, pbFieldIterFind_append post 0 hnot⟩

/-- The index of a required field is its own. -/
theorem find_required {fields : List (PbField π σ)} {tag tag' i : ℕ} {f f' : PbField π σ}
    (h : pbFieldIterFind tag 0 fields = some (i, f)) (hf : f.htype = .required)
    (h' : pbFieldIterFind tag' 0 fields = some (i, f')) (hf' : f'.htype = .required) :
    i < reqFieldCount fields ∧ f = f' := by
  obtain ⟨pre, post, rfl, -, hi⟩ := exists_of_find h
  obtain ⟨pre', post', heq, -, hi'⟩ := exists_of_find h'
  have hone : reqFieldCount [f] = 1 := by rw [reqFieldCount_singleton, if_pos hf]
  have hone' : reqFieldCount [f'] = 1 := by rw [reqFieldCount_singleton, if_pos hf']
  rw [zero_add] at hi hi'
  refine ⟨?_, ?_⟩
  · rw [reqFieldCount_append, ← List.singleton_append, reqFieldCount_append]
    omega
  · rcases List.append_eq_append_iff.1 heq with ⟨as, rfl, has⟩ | ⟨as, rfl, has⟩
    · rcases as with _ | ⟨a, as⟩
      · exact (List.cons.inj has).1
      · obtain ⟨rfl, -⟩ := List.cons.inj has
        rw [reqFieldCount_append, ← List.singleton_append, reqFieldCount_append] at hi'
        omega
    · rcases as with _ | ⟨a, as⟩
      · exact (List.cons.inj has).1.symm
      · obtain ⟨rfl, -⟩ := List.cons.inj has
        rw [reqFieldCount_append, ← List.singleton_append, reqFieldCount_append] at hi
        omega

/-- Every index below the number of required fields is that of one. -/
theorem exists_required : ∀ {fields : List (PbField π σ)} {i : ℕ}, i < reqFieldCount fields →
    ∃ pre f post, fields = pre ++ f :: post ∧ f.htype = .required ∧ reqFieldCount pre = i
  | [], i, h => by cases h
  | g :: fields, i, h => by
    rw [← List.singleton_append, reqFieldCount_append, reqFieldCount_singleton] at h
    by_cases hg : g.htype = .required
    · rw [if_pos hg] at h
      rcases i with _ | i
      · exact ⟨[], g, fields, rfl, hg, rfl⟩
      · obtain ⟨pre, f, post, rfl, hf, hi⟩ := @exists_required fields i (by omega)
        refine ⟨g :: pre, f, post, rfl, hf, ?_⟩
        rw [← List.singleton_append, reqFieldCount_append, reqFieldCount_singleton, if_pos hg]
        omega
    · rw [if_neg hg] at h
      obtain ⟨pre, f, post, rfl, hf, hi⟩ := @exists_required fields i (by omega)
      refine ⟨g :: pre, f, post, rfl, hf, ?_⟩
      rw [← List.singleton_append, reqFieldCount_append, reqFieldCount_singleton, if_neg hg]
      omega

/-- The bits of `fields_seen` are the indexes of the required fields in the message. -/
theorem testBit_seen (fields : List (PbField π σ)) (i : ℕ) : ∀ (ws : List WireField) (seen : ℕ),
    (ws.foldl (seenAfter fields) seen).testBit i = true ↔ seen.testBit i = true ∨
      ∃ w ∈ ws, ∃ f, pbFieldIterFind w.tag 0 fields = some (i, f) ∧ f.htype = .required
  | [], seen => by simp
  | w :: ws, seen => by
    rw [List.foldl_cons, testBit_seen fields i ws]
    have hone : (seenAfter fields seen w).testBit i = true ↔ seen.testBit i = true ∨
        ∃ f, pbFieldIterFind w.tag 0 fields = some (i, f) ∧ f.htype = .required := by
      rw [seenAfter]
      rcases pbFieldIterFind w.tag 0 fields with _ | ⟨j, f⟩
      · simp
      · dsimp only
        split_ifs with hf
        · rw [Nat.testBit_or, Nat.one_shiftLeft, Nat.testBit_two_pow, Bool.or_eq_true,
            decide_eq_true_iff]
          simp [hf]
        · simp [hf]
    rw [hone]
    simp only [List.mem_cons, exists_eq_or_imp, or_assoc]

/-- **The check at the end is that all required fields were there.** -/
theorem allFieldsSeen_iff {fields : List (PbField π σ)} (hwf : TableWF fields)
    (ws : List WireField) :
    allFieldsSeen fields (ws.foldl (seenAfter fields) 0) ↔ HasRequired fields ws := by
  have hbit := testBit_seen fields
  constructor
  · intro h f hf hreq
    obtain ⟨i, hi⟩ := find_of_mem hwf hf
    have hlt := (find_required hi hreq hi hreq).1
    have hnone := missing_of_allFieldsSeen hwf.count h
    have hset : (ws.foldl (seenAfter fields) 0).testBit i = true := by
      by_contra hfalse
      have hmem : i ∈ missing fields (ws.foldl (seenAfter fields) 0) :=
        Finset.mem_filter.2 ⟨Finset.mem_range.2 hlt, Bool.not_eq_true _ ▸ hfalse⟩
      rw [hnone] at hmem
      exact absurd hmem (Finset.notMem_empty i)
    rcases (hbit i ws 0).1 hset with h0 | ⟨w, hw, f', hf', hreq'⟩
    · rw [Nat.zero_testBit] at h0
      cases h0
    · obtain ⟨-, rfl⟩ := find_required hi hreq hf' hreq'
      obtain ⟨-, -, -, htag, -⟩ := exists_of_find hf'
      exact ⟨w, hw, htag.symm⟩
  · intro h hne
    rw [(allFieldsSeen_all hwf.count hne).symm]
    refine Nat.eq_of_testBit_eq fun i => ?_
    rw [Nat.testBit_two_pow_sub_one, Bool.eq_iff_iff, decide_eq_true_iff, hbit]
    constructor
    · rintro (h0 | ⟨w, -, f, hf, hreq⟩)
      · rw [Nat.zero_testBit] at h0
        cases h0
      · exact (find_required hf hreq hf hreq).1
    · intro hi
      obtain ⟨pre, f, post, rfl, hreq, rfl⟩ := exists_required hi
      obtain ⟨w, hw, htag⟩ := h f (by simp) hreq
      refine Or.inr ⟨w, hw, f, ?_, hreq⟩
      have hnot : f.tag ∉ pre.map (·.tag) := by
        have := hwf.nodup
        rw [List.map_append, List.map_cons, List.nodup_append] at this
        exact fun hin => this.2.2 _ hin _ List.mem_cons_self rfl
      have hfind := pbFieldIterFind_append post 0 hnot
      rw [zero_add] at hfind
      rw [htag, hfind]

/-! ## Messages -/

/-- The loop does what the fields say, one after the other. -/
theorem pbDecodeLoop_wireBytes {fields : List (PbField π σ)} (hl : ∀ f ∈ fields, f.Local) :
    ∀ {ws : List WireField}, WellTyped fields ws → ∀ {k : ℕ} (d : σ) (seen : ℕ),
    (wireBytes ws).length < k → pbDecodeLoop fields k (wireBytes ws) d seen =
      if allFieldsSeen fields (ws.foldl (seenAfter fields) seen) then decodeFields fields ws d
        else none
  | _, _, 0, _, _, hk => by omega
  | [], _, k + 1, d, seen, _ => rfl
  | w :: ws, ht, k + 1, d, seen, hk => by
    obtain ⟨hw, hws⟩ := List.forall_mem_cons.1 ht
    have hpos := w.length_pos
    have hne : w.bytes ++ wireBytes ws ≠ [] := by
      rw [← List.length_pos_iff, List.length_append]; omega
    rw [wireBytes_cons, List.length_append] at hk
    rw [pbDecodeLoop, wireBytes_cons]
    simp only [if_neg hne]
    rw [WireField.bytes, List.append_assoc, w.decode_key, List.foldl_cons, seenAfter, decodeFields,
      Steps.run_cons, WireField.apply]
    rcases hf : pbFieldIterFind w.tag 0 fields with _ | ⟨i, f⟩ <;> simp only [hf]
    · rw [w.skip_value]
      exact pbDecodeLoop_wireBytes hl hws d seen (by omega)
    · have hv : CompleteValue (WireType.ofNat f.ltype.wireType) w.value := hw i f hf ▸ w.complete
      rw [hl f (pbFieldIterFind_mem hf) hv]
      rcases f.value w.value d with _ | d'
      · exact (ite_self none).symm
      · exact pbDecodeLoop_wireBytes hl hws d' _ (by omega)

/-- **A message is decoded as its fields say**, one after the other, if all required ones
    are there. -/
theorem pbDecodeNoinit_wireBytes {fields : List (PbField π σ)} (hwf : TableWF fields)
    (hl : ∀ f ∈ fields, f.Local) {ws : List WireField} (ht : WellTyped fields ws) (d : σ) :
    pbDecodeNoinit fields (wireBytes ws) d =
      if HasRequired fields ws then decodeFields fields ws d else none := by
  rw [pbDecodeNoinit, pbDecodeLoop_wireBytes hl ht d 0 (Nat.lt_succ_self _)]
  exact if_congr (allFieldsSeen_iff hwf ws) rfl rfl

/-! ## Fields apart -/

/-- Two members, neither of which is a part of the other. -/
@[mk_iff]
structure PbMember.Apart (m : PbMember σ α) (m' : PbMember σ β) : Prop where
  get_set : ∀ b d, m.get (m'.set b d) = m.get d
  get_set' : ∀ a d, m'.get (m.set a d) = m'.get d
  comm : ∀ a b d, m.set a (m'.set b d) = m'.set b (m.set a d)

/-- A step on one member. -/
def PbMember.modify (m : PbMember σ α) (g : α → Option α) (d : σ) : Option σ :=
  (g (m.get d)).map fun a => m.set a d

theorem PbMember.Apart.commute {m : PbMember σ α} {m' : PbMember σ β} (h : m.Apart m')
    (g : α → Option α) (g' : β → Option β) : Steps.Commute (m.modify g) (m'.modify g') := by
  intro d
  rw [PbMember.modify, PbMember.modify]
  rcases hg : g (m.get d) with _ | a <;> rcases hg' : g' (m'.get d) with _ | b <;>
    simp [PbMember.modify, hg, hg', h.get_set, h.get_set', h.comm]

/-- Two fields that can be decoded in either order. -/
def PbField.Apart (f g : PbField π σ) : Prop := ∀ v w, Steps.Commute (f.value v) (g.value w)

theorem PbField.Apart.symm {f g : PbField π σ} (h : f.Apart g) : g.Apart f :=
  fun v w => (h w v).symm

instance : Std.Symm (PbField.Apart (π := π) (σ := σ)) := ⟨fun _ _ h => h.symm⟩

theorem required_value (tag : ℕ) (l : PbLtype π α) (m : PbMember σ α) (v : List UInt8) :
    (PbField.required tag l m).value v = m.modify fun a => (l.decode v a).map (·.1) := by
  funext d
  show (l.decodeAt m v d).map _ = _
  rw [PbLtype.decodeAt, PbMember.modify, Option.map_map, Option.map_map]
  rfl

theorem optional_value (tag : ℕ) (l : PbLtype π α) (m : PbMember σ α) (has : PbMember σ Bool)
    (v : List UInt8) : (PbField.optional tag l m has).value v = fun d =>
      (has.modify (fun _ => some true) d).bind (m.modify fun a => (l.decode v a).map (·.1)) := by
  funext d
  show (l.decodeAt m v (has.set true d)).map _ = _
  rw [PbLtype.decodeAt, PbMember.modify, Option.map_map, Option.map_some, Option.bind_some,
    PbMember.modify, Option.map_map]
  rfl

section
variable {tag tag' : ℕ} {l : PbLtype π α} {l' : PbLtype π β} {m : PbMember σ α} {m' : PbMember σ β}
  {has has' : PbMember σ Bool}

@[simp] theorem PbMember.Apart.required (h : m.Apart m') :
    (PbField.required tag l m).Apart (.required tag' l' m') := by
  intro v w
  rw [required_value, required_value]
  exact h.commute _ _

@[simp] theorem PbMember.Apart.required_optional (h : m.Apart m') (hhas : m.Apart has') :
    (PbField.required tag l m).Apart (.optional tag' l' m' has') := by
  intro v w
  rw [required_value, optional_value]
  exact (hhas.commute _ _).bind (h.commute _ _)

@[simp] theorem PbMember.Apart.optional_required (h : m.Apart m') (hhas : has.Apart m') :
    (PbField.optional tag l m has).Apart (.required tag' l' m') := by
  intro v w
  rw [required_value, optional_value]
  exact ((hhas.commute _ _).symm.bind (h.commute _ _).symm).symm

@[simp] theorem PbMember.Apart.optional (h : m.Apart m') (hhas : m.Apart has') (hhas' : has.Apart m')
    (hh : has.Apart has') :
    (PbField.optional tag l m has).Apart (.optional tag' l' m' has') := by
  intro v w
  rw [optional_value, optional_value]
  exact ((((hh.commute _ _).bind (hhas'.commute _ _)).symm).bind
    ((hhas.commute _ _).bind (h.commute _ _)).symm).symm

end

/-- A table whose fields are decoded one by one: no value reads on behind its end, and no two
    fields have a member in common. -/
@[mk_iff]
structure Separate (fields : List (PbField π σ)) : Prop where
  loc : ∀ f ∈ fields, f.Local
  apart : fields.Pairwise PbField.Apart

section
variable {fields : List (PbField π σ)}

theorem WireField.apply_none {w : WireField} (h : pbFieldIterFind w.tag 0 fields = none) :
    w.apply fields = some := by
  funext d
  rw [WireField.apply, h]

theorem WireField.apply_some {w : WireField} {i : ℕ} {f : PbField π σ}
    (h : pbFieldIterFind w.tag 0 fields = some (i, f)) : w.apply fields = f.value w.value := by
  funext d
  rw [WireField.apply, h]

/-- Fields with different tags can be decoded in either order. -/
theorem Separate.commute (h : Separate fields) {w w' : WireField} (hne : w.tag ≠ w'.tag) :
    Steps.Commute (w.apply fields) (w'.apply fields) := by
  rcases hf : pbFieldIterFind w.tag 0 fields with _ | ⟨i, f⟩
  · rw [WireField.apply_none hf]
    exact Steps.Commute.some _
  rcases hf' : pbFieldIterFind w'.tag 0 fields with _ | ⟨j, f'⟩
  · rw [WireField.apply_none hf']
    exact (Steps.Commute.some _).symm
  obtain ⟨-, -, -, ht, -⟩ := exists_of_find hf
  obtain ⟨-, -, -, ht', -⟩ := exists_of_find hf'
  have hff : f ≠ f' := fun he => hne (by rw [← ht, ← ht', he])
  rw [WireField.apply_some hf, WireField.apply_some hf']
  exact h.apart.forall (pbFieldIterFind_mem hf) (pbFieldIterFind_mem hf') hff _ _

/-- Each field of the table is decoded from its own occurrences. -/
theorem decodeFields_by_field (hwf : TableWF fields) (h : Separate fields) (ws : List WireField)
    (d : σ) : decodeFields fields ws d = Steps.run
      (fun tag => decodeFields fields (ws.filter fun w => w.tag = tag)) (fields.map (·.tag)) d := by
  refine Steps.run_by_key WireField.tag hwf.nodup (fun w _ w' _ => h.commute) (fun w _ hw => ?_) d
  refine WireField.apply_none ?_
  rcases hf : pbFieldIterFind w.tag 0 fields with _ | ⟨i, f⟩
  · rfl
  · obtain ⟨-, -, -, ht, -⟩ := exists_of_find hf
    exact absurd (ht ▸ List.mem_map_of_mem (pbFieldIterFind_mem hf)) hw

theorem HasRequired.of_filter {ws ws' : List WireField}
    (hsame : ∀ f ∈ fields, ws.filter (fun w => w.tag = f.tag) = ws'.filter fun w => w.tag = f.tag)
    (h : HasRequired fields ws) : HasRequired fields ws' := by
  intro f hf hreq
  obtain ⟨w, hw, ht⟩ := h f hf hreq
  have hmem : w ∈ ws'.filter fun w => w.tag = f.tag :=
    hsame f hf ▸ List.mem_filter.2 ⟨hw, decide_eq_true ht⟩
  exact ⟨w, List.mem_of_mem_filter hmem, ht⟩

/-- **Only the order of each field's own occurrences matters**: neither how different fields are
    interleaved nor fields that the table does not have. -/
theorem decode_same_fields (hwf : TableWF fields) (h : Separate fields) {ws ws' : List WireField}
    (ht : WellTyped fields ws) (ht' : WellTyped fields ws')
    (hsame : ∀ f ∈ fields, ws.filter (fun w => w.tag = f.tag) = ws'.filter fun w => w.tag = f.tag)
    (d : σ) :
    pbDecodeNoinit fields (wireBytes ws) d = pbDecodeNoinit fields (wireBytes ws') d := by
  have hfields : decodeFields fields ws d = decodeFields fields ws' d := by
    rw [decodeFields_by_field hwf h, decodeFields_by_field hwf h]
    refine congrFun (Steps.run_congr fun tag htag => ?_) d
    obtain ⟨f, hf, rfl⟩ := List.mem_map.1 htag
    rw [hsame f hf]
  rw [pbDecodeNoinit_wireBytes hwf h.loc ht, pbDecodeNoinit_wireBytes hwf h.loc ht', hfields]
  exact if_congr ⟨.of_filter hsame, .of_filter fun f hf => (hsame f hf).symm⟩ rfl rfl

end

end PacketSerial

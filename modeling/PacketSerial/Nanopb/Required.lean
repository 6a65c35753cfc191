/-
  nanopb: what a message takes at the least.

  * `PbField.Consumes`: reading the field's value takes a byte at least;
  * `missing`: the required fields that `fields_seen` does not have;
  * `pbDecodeNoinit_length`: so a message that is decoded has two bytes for each required
    field, a tag and a value.
-/
import PacketSerial.Nanopb.Codec

namespace PacketSerial

variable {π σ α : Type}

/-! ## Values -/

theorem pbDecodeVarint_length {stream rest : PbIstream} {n : ℕ}
    (h : pbDecodeVarint stream = (some n, rest)) : rest.length < stream.length := by
  cases stream with
  | nil => cases h
  | cons byte stream =>
    rw [pbDecodeVarint, varintLoop, if_neg (by omega)] at h
    dsimp only at h
    split_ifs at h with hmore
    · have hs := (varintLoop_suffix stream (0 + 7)
        ((0 ||| (byte &&& 0x7F).toNat <<< 0) % 2 ^ 64)).length_le
      rw [h] at hs
      exact Nat.lt_succ_of_le hs
    · cases h
      exact Nat.lt_succ_self _

theorem pbDecodeVarint32_length {stream rest : PbIstream} {n : ℕ}
    (h : pbDecodeVarint32 stream = (some n, rest)) : rest.length < stream.length := by
  cases stream with
  | nil => cases h
  | cons byte stream =>
    have hs := (pbDecodeVarint32Eof_suffix byte stream).length_le
    have hr : (pbDecodeVarint32Eof (byte :: stream)).2.2 = rest := congrArg Prod.snd h
    rw [hr] at hs
    exact Nat.lt_succ_of_le hs

/-- Reading the value takes a byte at least. -/
def PbLtype.Consumes (l : PbLtype π α) : Prop :=
  ∀ ⦃stream d d' rest⦄, l.decode stream d = some (d', rest) → rest.length < stream.length

theorem pbDecUvarint_consumes {bits n : ℕ} {stream rest : PbIstream}
    (h : pbDecUvarint bits stream = some (n, rest)) : rest.length < stream.length := by
  unfold pbDecUvarint at h
  rcases heq : pbDecodeVarint stream with ⟨_ | value, stream'⟩ <;> rw [heq] at h
  · cases h
  · dsimp only at h
    split_ifs at h
    cases h
    exact pbDecodeVarint_length heq

theorem uint32Ltype_consumes : (uint32Ltype (π := π)).Consumes := by
  intro stream d d' rest h
  obtain ⟨r, hr, he⟩ := Option.map_eq_some_iff.1 h
  cases he
  exact pbDecUvarint_consumes hr

theorem uint8Ltype_consumes : (uint8Ltype (π := π)).Consumes := by
  intro stream d d' rest h
  obtain ⟨r, hr, he⟩ := Option.map_eq_some_iff.1 h
  cases he
  exact pbDecUvarint_consumes hr

theorem ReadSized.consumes {stream rest : PbIstream} {bytes : List UInt8}
    (h : ReadSized stream bytes rest) : rest.length < stream.length := by
  obtain ⟨size, stream', hv, hr⟩ := h
  have hlt := pbDecodeVarint32_length hv
  have hread := (pbRead_suffix stream' size).length_le
  rw [hr] at hread
  exact hread.trans_lt hlt

theorem bytesLtype_consumes (n : ℕ) : (bytesLtype (π := π) n).Consumes := by
  intro stream d d' rest h
  obtain ⟨r, hr, he⟩ := Option.map_eq_some_iff.1 h
  cases he
  exact (pbDecBytes_read hr).consumes

/-! ## Fields -/

def PbField.Consumes (f : PbField π σ) : Prop :=
  ∀ ⦃stream d d' rest⦄, f.decode stream d = some (d', rest) → rest.length < stream.length

theorem PbLtype.Consumes.required {l : PbLtype π α} (h : l.Consumes) (tag : ℕ)
    (m : PbMember σ α) : (PbField.required tag l m).Consumes := by
  intro stream d d' rest hd
  obtain ⟨r, hr, he⟩ := Option.map_eq_some_iff.1 hd
  cases he
  exact h hr

theorem PbField.Consumes.static {f : PbField π σ} (h : f.Consumes) {stream rest : PbIstream}
    {d d' : σ} (hd : decodeStaticField f stream d = some (d', rest)) :
    rest.length < stream.length := by
  unfold decodeStaticField at hd
  split at hd <;> exact h hd

theorem pbFieldIterFind_mem {tag : ℕ} : ∀ {fields : List (PbField π σ)} {i j : ℕ}
    {f : PbField π σ}, pbFieldIterFind tag i fields = some (j, f) → f ∈ fields
  | [], _, _, _, h => by cases h
  | g :: fields, i, j, f, h => by
    rw [pbFieldIterFind] at h
    split_ifs at h
    · cases h
      exact List.mem_cons_self
    all_goals exact List.mem_cons_of_mem _ (pbFieldIterFind_mem h)

/-- The search finds the first field with the tag. -/
theorem exists_of_find {tag : ℕ} : ∀ {fields : List (PbField π σ)} {i j : ℕ} {f : PbField π σ},
    pbFieldIterFind tag i fields = some (j, f) →
    ∃ pre post, fields = pre ++ f :: post ∧ f.tag = tag ∧ j = i + reqFieldCount pre
  | [], _, _, _, h => by cases h
  | g :: fields, i, j, f, h => by
    rw [pbFieldIterFind] at h
    by_cases hg : g.tag = tag
    · rw [if_pos hg] at h
      cases h
      exact ⟨[], fields, rfl, hg, rfl⟩
    · rw [if_neg hg] at h
      obtain ⟨pre, post, rfl, hf, hj⟩ := exists_of_find h
      refine ⟨g :: pre, post, rfl, hf, ?_⟩
      rw [hj, ← List.singleton_append, reqFieldCount_append, reqFieldCount_singleton]
      split_ifs <;> omega

/-- The required fields that are not among those seen. -/
def missing (fields : List (PbField π σ)) (fieldsSeen : ℕ) : Finset ℕ :=
  (Finset.range (reqFieldCount fields)).filter fun i => fieldsSeen.testBit i = false

/-- One more field is seen. -/
theorem card_missing_le (fields : List (PbField π σ)) (fieldsSeen i : ℕ) :
    (missing fields fieldsSeen).card ≤ (missing fields (fieldsSeen ||| 1 <<< i)).card + 1 := by
  refine (Finset.card_le_card ?_).trans (Finset.card_insert_le i _)
  intro j hj
  rw [missing, Finset.mem_filter] at hj
  by_cases hij : j = i
  · rw [hij]
    exact Finset.mem_insert_self _ _
  · refine Finset.mem_insert_of_mem (Finset.mem_filter.2 ⟨hj.1, ?_⟩)
    rw [Nat.testBit_or, hj.2, Nat.one_shiftLeft, Nat.testBit_two_pow_of_ne (Ne.symm hij)]
    rfl

/-- None is missing when the check at the end is passed. -/
theorem missing_of_allFieldsSeen {fields : List (PbField π σ)} {fieldsSeen : ℕ}
    (hcount : reqFieldCount fields < 32) (h : allFieldsSeen fields fieldsSeen) :
    missing fields fieldsSeen = ∅ := by
  rcases Nat.eq_zero_or_pos (reqFieldCount fields) with h0 | hpos
  · rw [missing, h0]
    rfl
  · have hne : reqFieldCount fields % 32 ≠ 0 := by omega
    have hseen := (h hne).trans (allFieldsSeen_all hcount hne).symm
    refine Finset.filter_eq_empty_iff.2 fun i hi => ?_
    rw [hseen, Nat.testBit_two_pow_sub_one, decide_eq_true (Finset.mem_range.1 hi)]
    exact Bool.true_eq_false_eq_False

/-! ## Messages -/

/-- Every turn of the loop that sees a field takes its tag and its value. -/
theorem pbDecodeLoop_length {fields : List (PbField π σ)} (hcount : reqFieldCount fields < 32)
    (hc : ∀ f ∈ fields, f.Consumes) : ∀ {k : ℕ} {stream : PbIstream} {d r : σ} {seen : ℕ},
    pbDecodeLoop fields k stream d seen = some r → 2 * (missing fields seen).card ≤ stream.length
  | 0, _, _, _, _, h => by cases h
  | k + 1, stream, d, r, seen, h => by
    have hdone : ∀ {r' : σ}, (if allFieldsSeen fields seen then some d else none) = some r' →
        2 * (missing fields seen).card ≤ stream.length := by
      intro r' hr
      split_ifs at hr with hall
      rw [missing_of_allFieldsSeen hcount hall]
      exact Nat.zero_le _
    rw [pbDecodeLoop] at h
    dsimp only at h
    by_cases hs : stream = []
    · rw [if_pos hs] at h
      exact hdone h
    · rw [if_neg hs] at h
      rcases ht : pbDecodeTag stream with ⟨_ | ⟨wireType, tag⟩, eof, rest⟩ <;> rw [ht] at h
      · cases eof with
        | true => exact hdone h
        | false => cases h
      · have hlt := pbDecodeTag_length ht
        dsimp only at h
        rcases hf : pbFieldIterFind tag 0 fields with _ | ⟨i, f⟩ <;> rw [hf] at h <;> dsimp only at h
        · -- a field that the table does not have
          have hle := (pbSkipField_suffix rest wireType).length_le
          rcases hskip : pbSkipField rest wireType with ⟨_ | _, rest'⟩ <;> rw [hskip] at h hle
          · cases h
          · have ih := pbDecodeLoop_length hcount hc h
            dsimp only at hle
            omega
        · have hmem := pbFieldIterFind_mem hf
          rcases hd : decodeStaticField f rest d with _ | ⟨d', rest'⟩ <;> rw [hd] at h
          · cases h
          · have hval := (hc f hmem).static hd
            have ih := pbDecodeLoop_length hcount hc h
            have hcard := card_missing_le fields seen i
            split_ifs at ih <;> omega

/-- **A message that is decoded has two bytes for each required field.** -/
theorem pbDecodeNoinit_length {fields : List (PbField π σ)} (hcount : reqFieldCount fields < 32)
    (hc : ∀ f ∈ fields, f.Consumes) {stream : PbIstream} {d r : σ}
    (h : pbDecodeNoinit fields stream d = some r) : 2 * reqFieldCount fields ≤ stream.length := by
  have hall : missing fields 0 = Finset.range (reqFieldCount fields) :=
    Finset.filter_true_of_mem fun i _ => Nat.zero_testBit i
  have hlen := pbDecodeLoop_length hcount hc h
  rwa [hall, Finset.card_range] at hlen

end PacketSerial

/-
  The handlers of `ProtoBuff` are a finite map of capacity 16, from types to callbacks.

  * `HandlerMap`: what the table of handlers is for, and its two operations;
  * `Registry.Refines`: the slots in use hold the map, none of them with the type `NULL`;
  * `run_refines`: every sequence of calls returns what the map returns, and keeps it so;
  * `handlers_refine`: and a message is then handed to the handler that the map has for
    its first member.
-/
import PacketSerial.Lib.SlotMap
import PacketSerial.Lib.Machine
import PacketSerial.UnionScan

namespace PacketSerial

/-! ## The map -/

/-- The callbacks by their types. -/
abbrev HandlerMap := Finmap fun _ : FieldsPtr => FnPtr

/-- A call that changes the handlers; types are not `NULL`. -/
inductive RegistryCall where
  | addHandler (type : FieldsPtr) (callback : FnPtr)
  | clearHandlers

namespace HandlerMap

/-- What the call returns and does, said of the map; `none` for `void`. -/
def call (m : HandlerMap) : RegistryCall → Option Bool × HandlerMap
  | .addHandler type callback =>
    let r := SlotMap.add protobuffMaxHandlers m type callback
    (some r.1, r.2)
  | .clearHandlers => (none, ∅)

/-- `unmarshal` of a message of complete fields: the handler for its first member is
    called, with the stream after the member's tag. -/
def unmarshal (m : HandlerMap) : List WireField → Bool × List Call
  | [] => (false, [])
  | f :: fs =>
    match f.member with
    | none => unmarshal m fs
    | some k =>
      match m.lookup k.ptr with
      | some callback => (true, [⟨callback, f.value ++ wireBytes fs, some k.ptr⟩])
      | none => (false, [])

end HandlerMap

/-- The bytes given to `unmarshal` for a message, with its length in front where it is
    delimited, and then with any bytes after it. -/
inductive MessageEncoding (msg : List UInt8) : Bool → List UInt8 → Prop
  | plain : MessageEncoding msg false msg
  | delimited {size : List UInt8} (trailing : List UInt8) : IsNumeral size msg.length →
      msg.length < 2 ^ 32 → MessageEncoding msg true (size ++ (msg ++ trailing))

theorem MessageEncoding.messageOf {msg buf : List UInt8} {delimited : Bool}
    (h : MessageEncoding msg delimited buf) :
    messageOf buf buf.length delimited = some msg := by
  cases h with
  | plain => exact messageOf_plain msg
  | delimited trailing hsize hlt =>
    rw [PacketSerial.messageOf, if_pos rfl, List.take_length, pbMakeStringSubstream,
      pbDecodeVarint32_numeral hsize.1 (hsize.2.trans (by omega)) hlt]
    simp [pbRead]

/-! ## The slots -/

namespace Registry

/-- What a call returns and does. -/
def call (reg : Registry) : RegistryCall → Option Bool × Registry
  | .addHandler type callback =>
    let r := reg.addHandler (some type) callback
    (some r.1, r.2)
  | .clearHandlers => (none, reg.clearHandlers)

instance (reg : Registry) : DecidablePred reg.Used :=
  fun _ => inferInstanceAs (Decidable (_ = true))

/-- The slots in use. -/
def slots (reg : Registry) (i : Fin protobuffMaxHandlers) : Option (FieldsPtr × FnPtr) :=
  if reg.Used i then (reg.handlers i).type.map fun type => (type, (reg.handlers i).callback)
  else none

/-- The registry holds the map. -/
structure Refines (reg : Registry) (m : HandlerMap) : Prop where
  represents : SlotMap.Represents reg.slots m
  typed : ∀ i, reg.Used i → (reg.handlers i).type ≠ none

variable {reg : Registry} {m : HandlerMap}

theorem slots_eq_some {i : Fin protobuffMaxHandlers} {type : FieldsPtr} {callback : FnPtr} :
    reg.slots i = some (type, callback) ↔ reg.Used i ∧ reg.handlers i = ⟨some type, callback⟩ := by
  unfold slots
  rcases reg.handlers i with ⟨t, c⟩
  split_ifs with h
  · cases t <;> simp [h]
  · simp [h]

theorem slots_of_type {i : Fin protobuffMaxHandlers} {type : FieldsPtr} (hu : reg.Used i)
    (ht : (reg.handlers i).type = some type) :
    reg.slots i = some (type, (reg.handlers i).callback) :=
  slots_eq_some.2 ⟨hu, by rw [← ht]⟩

/-- No type stands in two slots. -/
theorem Refines.distinct (h : reg.Refines m) {i j : Fin protobuffMaxHandlers} (hi : reg.Used i)
    (hj : reg.Used j) (hij : (reg.handlers i).type = (reg.handlers j).type) : i = j := by
  obtain ⟨type, ht⟩ := Option.ne_none_iff_exists'.1 (h.typed i hi)
  exact h.represents.distinct i j type _ _ (slots_of_type hi ht) (slots_of_type hj (hij ▸ ht))

theorem Refines.used_iff (h : reg.Refines m) {i : Fin protobuffMaxHandlers} :
    reg.Used i ↔ reg.slots i ≠ none := by
  unfold slots
  split_ifs with hu
  · simpa [hu] using h.typed i hu
  · simp [hu]

theorem findHandler_some {type : Option FieldsPtr} {i : Fin protobuffMaxHandlers}
    (h : reg.findHandler type = some i) : reg.Used i ∧ (reg.handlers i).type = type := by
  have := List.find?_some h
  rwa [decide_eq_true_eq, bitRead_eq_one] at this

/-- **No slot is found for `NULL`**, in use or cleared. -/
theorem Refines.findHandler_null (h : reg.Refines m) : reg.findHandler none = none := by
  rcases hf : reg.findHandler none with _ | i
  · rfl
  · obtain ⟨hu, ht⟩ := findHandler_some hf
    exact absurd ht (h.typed i hu)

theorem Refines.lookup_eq (h : reg.Refines m) (type : FieldsPtr) :
    reg.lookup (some type) = m.lookup type := by
  unfold Registry.lookup
  rcases hf : reg.findHandler (some type) with _ | i
  · rw [Option.map_none, eq_comm, Finmap.lookup_eq_none, h.represents.mem_iff]
    rintro ⟨i, callback, hi⟩
    obtain ⟨hu, hh⟩ := slots_eq_some.1 hi
    exact findHandler_none hf i hu (by rw [hh])
  · obtain ⟨hu, ht⟩ := findHandler_some hf
    rw [Option.map_some, eq_comm, h.represents.lookup]
    exact ⟨i, slots_of_type hu ht⟩

theorem Refines.findHandler_eq_none (h : reg.Refines m) (type : FieldsPtr) :
    reg.findHandler (some type) = none ↔ type ∉ m := by
  rw [← Finmap.lookup_eq_none, ← h.lookup_eq, Registry.lookup, Option.map_eq_none_iff]

theorem getUnusedIdx_none {reg' : Registry} (h : reg.getUnusedIdx = (none, reg')) :
    reg' = reg ∧ ∀ i, reg.Used i := by
  unfold getUnusedIdx at h
  rcases hf : (List.finRange protobuffMaxHandlers).find? fun i =>
      bitRead reg.handlersUsageMask i = 0 with _ | i <;> rw [hf] at h
  · cases h
    refine ⟨rfl, fun i => ?_⟩
    have := List.find?_eq_none.1 hf i (List.mem_finRange i)
    rwa [decide_eq_true_eq, bitRead_eq_zero, not_not] at this
  · cases h

theorem refines_empty : empty.Refines ∅ := by
  have hslots : empty.slots = fun _ => none := by
    funext i
    simp [slots, Used, empty]
  constructor
  · rw [hslots]
    exact SlotMap.represents_empty
  · intro i hu
    simp [Used, empty] at hu

/-- A type that is not mapped yet is added, as long as there is a free slot. -/
theorem Refines.addHandler_new (h : reg.Refines m) {type : FieldsPtr} (callback : FnPtr)
    (ht : type ∉ m) (hcard : m.keys.card < protobuffMaxHandlers) :
    (reg.addHandler (some type) callback).1 = true ∧
      (reg.addHandler (some type) callback).2.Refines (m.insert type callback) := by
  unfold addHandler
  rw [(h.findHandler_eq_none type).2 ht]
  rcases hu : reg.getUnusedIdx with ⟨_ | idx, reg'⟩
  · -- then the capacity would be reached
    obtain ⟨-, hall⟩ := getUnusedIdx_none hu
    exact absurd hcard (h.represents.full_iff.1 fun i => h.used_iff.1 (hall i))
  obtain ⟨hfree, hh, hused⟩ := getUnusedIdx_some hu
  have hslots : slots ⟨Function.update reg'.handlers idx ⟨some type, callback⟩,
      reg'.handlersUsageMask⟩ = Function.update reg.slots idx (some (type, callback)) := by
    funext j
    by_cases hj : j = idx
    · rw [hj, Function.update_self, slots_eq_some]
      exact ⟨(hused idx).2 (Or.inl rfl), Function.update_self idx _ _⟩
    · have hiff : reg'.Used j ↔ reg.Used j := by
        rw [hused]
        exact or_iff_right (Ne.symm hj)
      rw [Function.update_of_ne hj]
      simp only [slots, Used, Function.update_of_ne hj, hh]
      exact if_congr hiff rfl rfl
  refine ⟨rfl, ?_, fun j hj => ?_⟩
  · have hnone : reg.slots idx = none := by
      by_contra hne
      exact hfree (h.used_iff.2 hne)
    rw [hslots]
    exact h.represents.insert callback hnone ht
  · by_cases hji : j = idx
    · simp [hji]
    · have hu' := ((hused j).1 hj).resolve_left (Ne.symm hji)
      simpa [Function.update_of_ne hji, hh] using h.typed j hu'

/-- Otherwise nothing changes. -/
theorem Refines.addHandler_refused (h : reg.Refines m) {type : FieldsPtr} (callback : FnPtr)
    (hno : ¬ (type ∉ m ∧ m.keys.card < protobuffMaxHandlers)) :
    reg.addHandler (some type) callback = (false, reg) := by
  unfold addHandler
  rcases hf : reg.findHandler (some type) with _ | i
  · have hcard : ¬ m.keys.card < protobuffMaxHandlers :=
      fun hc => hno ⟨(h.findHandler_eq_none type).1 hf, hc⟩
    rcases hu : reg.getUnusedIdx with ⟨_ | idx, reg'⟩
    · rw [(getUnusedIdx_none hu).1]
    · obtain ⟨hfree, -, -⟩ := getUnusedIdx_some hu
      exact absurd (h.used_iff.2 (h.represents.full_iff.2 hcard idx)) hfree
  · rfl

/-- One call. -/
theorem Refines.call (h : reg.Refines m) (c : RegistryCall) :
    (reg.call c).1 = (m.call c).1 ∧ (reg.call c).2.Refines (m.call c).2 := by
  cases c with
  | clearHandlers => exact ⟨rfl, refines_empty⟩
  | addHandler type callback =>
    by_cases hnew : type ∉ m ∧ m.keys.card < protobuffMaxHandlers
    · obtain ⟨hr, hreg⟩ := h.addHandler_new callback hnew.1 hnew.2
      simp only [Registry.call, HandlerMap.call, SlotMap.add, if_pos hnew, hr]
      exact ⟨trivial, hreg⟩
    · simp only [Registry.call, HandlerMap.call, SlotMap.add, if_neg hnew,
        h.addHandler_refused callback hnew]
      exact ⟨trivial, h⟩

/-- **Every sequence of calls does to the registry what it does to the map.** -/
theorem run_refines (calls : List RegistryCall) :
    (Machine.run call empty calls).1 = (Machine.run HandlerMap.call ∅ calls).1 ∧
      (Machine.run call empty calls).2.Refines (Machine.run HandlerMap.call ∅ calls).2 := by
  obtain ⟨ho, hr⟩ := Machine.run_simulates (P := fun _ _ => True) (O := Eq) (Q := Eq)
    (fun (reg : Registry) (m : HandlerMap) c c' (h : reg.Refines m) hc _ => by
      subst hc; exact h.call c)
    (List.forall₂_same.2 fun _ _ => rfl : List.Forall₂ Eq calls calls) refines_empty
    (Machine.along_of _ fun _ _ => trivial)
  exact ⟨List.forall₂_eq_eq_eq ▸ ho, hr⟩

/-! ## Messages -/

theorem Refines.unmarshalLookupCallback (h : reg.Refines m) (fs : List WireField) :
    unmarshalLookupCallback reg (wireBytes fs) = m.unmarshal fs := by
  induction fs with
  | nil => simp [PacketSerial.unmarshalLookupCallback, h.findHandler_null, HandlerMap.unmarshal]
  | cons f fs ih =>
    rw [wireBytes_cons, HandlerMap.unmarshal]
    rcases hm : f.member with _ | k
    · rw [← ih, PacketSerial.unmarshalLookupCallback, scan_field hm]
      rfl
    · rw [PacketSerial.unmarshalLookupCallback, scan_member hm]
      dsimp only
      rw [← h.lookup_eq, Registry.lookup]
      rcases reg.findHandler (some k.ptr) with _ | idx <;> rfl

end Registry

/-- **The registry is a finite map of capacity 16.**  After any calls of `add_handler` and
    `clear_handlers` from the start: what they returned is what the map returns; the types
    in use are distinct, and are those of the map with its callbacks; a type is added
    exactly if it is new and the capacity is not reached, and nothing changes otherwise;
    `unmarshal` of well-formed fields calls the handler of the first member, once. -/
theorem handlers_refine (calls : List RegistryCall) :
    let reg := (Machine.run Registry.call .empty calls).2
    let m := (Machine.run HandlerMap.call ∅ calls).2
    (Machine.run Registry.call .empty calls).1 = (Machine.run HandlerMap.call ∅ calls).1 ∧
      (∀ i j, reg.Used i → reg.Used j → (reg.handlers i).type = (reg.handlers j).type → i = j) ∧
      (∀ type, reg.lookup (some type) = m.lookup type) ∧
      m.keys.card ≤ protobuffMaxHandlers ∧
      (∀ type callback, (reg.addHandler (some type) callback).1 = true ↔
        type ∉ m ∧ m.keys.card < protobuffMaxHandlers) ∧
      (∀ type callback, (reg.addHandler (some type) callback).1 = false →
        (reg.addHandler (some type) callback).2 = reg) ∧
      ∀ (fs : List WireField) (delimited : Bool) (buf : List UInt8),
        MessageEncoding (wireBytes fs) delimited buf →
        unmarshal reg buf buf.length delimited = m.unmarshal fs := by
  intro reg m
  obtain ⟨hout, href⟩ := Registry.run_refines calls
  change Registry.Refines reg m at href
  have hadd : ∀ type callback, (reg.addHandler (some type) callback).1 = true ↔
      type ∉ m ∧ m.keys.card < protobuffMaxHandlers := by
    intro type callback
    by_cases hnew : type ∉ m ∧ m.keys.card < protobuffMaxHandlers
    · exact iff_of_true (href.addHandler_new callback hnew.1 hnew.2).1 hnew
    · rw [href.addHandler_refused callback hnew]
      exact iff_of_false Bool.false_ne_true hnew
  refine ⟨hout, fun _ _ => href.distinct, href.lookup_eq, href.represents.card_le, hadd, ?_, ?_⟩
  · intro type callback hfalse
    have hno : ¬ (type ∉ m ∧ m.keys.card < protobuffMaxHandlers) := by
      rw [← hadd type callback, hfalse]
      exact Bool.false_ne_true
    rw [href.addHandler_refused callback hno]
  · intro fs delimited buf hbuf
    rw [unmarshal, unmarshalWith_eq, hbuf.messageOf]
    exact href.unmarshalLookupCallback fs

theorem handlers_refine_timeMsg :
    let calls : List RegistryCall :=
      [.addHandler .timeMsg 5, .addHandler .timeMsg 6, .clearHandlers, .addHandler .timeMsg 7]
    let reg := (Machine.run Registry.call .empty calls).2
    (Machine.run Registry.call .empty calls).1 = [some true, some false, none, some true] ∧
      ∃ stream, unmarshal reg [42, 0] 2 false = (true, [⟨7, stream, some .timeMsg⟩]) := by
  intro calls reg
  obtain ⟨hreturned, -, -, -, -, -, hun⟩ := handlers_refine calls
  obtain ⟨f, hbytes, hmember⟩ := Member.time.exists_field (x := []) (by decide)
  have hwire : wireBytes [f] = [42, 0] := by
    rw [wireBytes_cons, wireBytes_nil, List.append_nil, hbytes]
    decide +kernel
  have hlookup : (Machine.run HandlerMap.call ∅ calls).2.lookup FieldsPtr.timeMsg = some 7 := by
    decide +kernel
  have hfirst := hun [f] false [42, 0] (hwire ▸ .plain)
  rw [HandlerMap.unmarshal, hmember] at hfirst
  dsimp only at hfirst
  rw [show Member.time.ptr = FieldsPtr.timeMsg from rfl, hlookup] at hfirst
  exact ⟨hreturned.trans (by decide +kernel), _, hfirst⟩

end PacketSerial

/-
  From `marshal` to the message handler: a union message, sent through a
  `tx_handler` that feeds the receiver.

  * `splitTx`: such a handler, with any way to split the frames into chunks;
  * `run_link`: under it, `send` and `process` together run like `frameStep` on the
    packets;
  * `run_message`: the packets of one message end in one call of `unmarshal`, on their
    data;
  * `sendMessage_calls`: so the handler of a message is called once, and `send` returns
    true;
  * `delivered_iff`: and the message arrives, unless `send` loses the end of it.
-/
import PacketSerial.Cutting
import PacketSerial.LostTail

namespace PacketSerial

open Receiver

/-! ## Sender and receiver -/

/-- The world of a `tx_handler` that feeds a receiver: how often it was called, what the
    calls of `process` returned and did, and the receiver. -/
structure Link where
  txCalls : ℕ
  outs : List (Bool × List Event)
  receiver : Receiver

/-- The `tx_handler` that splits what it is given into chunks, its `n`-th buffer by
    `split n`, and passes each to `process`. -/
def splitTx (split : ℕ → List UInt8 → List ProcessCall) : TxHandler Link := fun frame l =>
  let r := Machine.run step l.receiver (split l.txCalls frame)
  (r.1.all (·.1), ⟨l.txCalls + 1, l.outs ++ r.1, r.2⟩)

/-- **Sender and receiver run like the receiver of frames.** -/
theorem run_link {split : ℕ → List UInt8 → List ProcessCall}
    (hsplit : ∀ n frame, (split n frame).flatMap (·.buffer) = frame) {ps : List Packet} :
    ∀ {l : Link} {s : PacketStore × ℤ}, (∀ packet ∈ ps, packet.WF) → BetweenFrames l.receiver s →
    Machine.Along frameStep FrameFits s ps →
    let r := Machine.run (fun l packet => splitTx split (encodePacket packet) l) l ps
    let t := Machine.run frameStep s ps
    r.1 = t.1.map (·.1) ∧ storeEvents r.2.outs = storeEvents l.outs ++ t.1.flatMap (·.2) := by
  induction ps with
  | nil => intro l s _ _ _; simp
  | cons packet ps ih =>
    rintro l s hps h ⟨hfit, hrest⟩
    have hp := hps packet List.mem_cons_self
    have hd : Divides (split l.txCalls (encodePacket packet)) packet :=
      ⟨hp, (hsplit l.txCalls _).trans (encodePacket_eq hp)⟩
    obtain ⟨hev, hret, hnext⟩ := feed_frame_fits h hd hfit
    obtain ⟨hrets, hevs⟩ := ih (l := (splitTx split (encodePacket packet) l).2)
      (fun q hq => hps q (List.mem_cons_of_mem _ hq)) hnext hrest
    refine ⟨?_, ?_⟩
    · rw [Machine.run_cons, Machine.run_cons, List.map_cons, hrets]
      exact congrArg (· :: _) hret
    · rw [Machine.run_cons, Machine.run_cons, List.flatMap_cons, hevs, ← List.append_assoc, ← hev]
      exact congrArg (· ++ _) (storeEvents_append _ _)

/-! ## One message -/

/-- The calls of message handlers among some events. -/
def handlerCalls (events : List Event) : List Call :=
  events.filterMap fun
    | .call call => some call
    | _ => none

theorem handlerCalls_storeEvents (outs : List (Bool × List Event)) :
    handlerCalls (storeEvents outs) = handlerCalls (outs.flatMap (·.2)) :=
  filterMap_storeEvents (fun e he => by cases e <;> first | rfl | cases he) outs

theorem handlerCalls_map_call (calls : List Call) : handlerCalls (calls.map .call) = calls := by
  rw [handlerCalls, List.filterMap_map]
  exact List.filterMap_some

/-- **The packets of one message end in one call of `unmarshal`**, on their data. -/
theorem run_message {last : Packet} (hlast : last.isLast = true) :
    ∀ {body : List Packet} {store : PacketStore} {held : List UInt8},
    (∀ packet ∈ body ++ [last], packet.WF) → (∀ packet ∈ body, packet.isLast = false) →
    HeldBy store held → store.rxHandler = none →
    (held ++ (body ++ [last]).flatMap Packet.bytes).length ≤ packetBufferSize →
    let t := Machine.run frameStep (store, (rxBufferSize : ℤ)) (body ++ [last])
    let u := unmarshal store.registry (padded (held ++ (body ++ [last]).flatMap Packet.bytes))
      packetBufferSize true
    Machine.Along frameStep FrameFits (store, (rxBufferSize : ℤ)) (body ++ [last]) ∧
      t.1.all (·.1) = u.1 ∧ handlerCalls (t.1.flatMap (·.2)) = u.2
  | [], store, held, hwf, _, h, hrx, hlen => by
    have hl := Packet.length_frame_le (hwf last (by simp))
    rw [List.nil_append, List.flatMap_singleton] at hlen ⊢
    have hbytes := (append_holds h hlen).bytes
    have hstore := storePacket_union hlast hrx
    rw [hbytes] at hstore
    refine ⟨⟨?_, trivial⟩, ?_, ?_⟩
    · simp only [FrameFits, rxBufferSize, Packet.size]; omega
    · simp [frameStep, hstore]
    · simp only [Machine.run_cons, Machine.run_nil, List.flatMap_singleton, frameStep, hstore]
      exact handlerCalls_map_call _
  | packet :: body, store, held, hwf, hnot, h, hrx, hlen => by
    have hl := Packet.length_frame_le (hwf packet (by simp))
    rw [List.cons_append] at hwf
    rw [List.cons_append, List.flatMap_cons, ← List.append_assoc] at hlen ⊢
    have hstep : frameStep (store, (rxBufferSize : ℤ)) packet =
        ((true, [.packet packet, .memcpy store.packetBufferOffset packet.data.size]),
          (store.append packet, (rxBufferSize : ℤ))) := by
      simp [frameStep, storePacket_notLast store (hnot packet List.mem_cons_self)]
    have happ : HeldBy (store.append packet) (held ++ packet.bytes) := by
      refine append_holds h ?_
      rw [List.length_append] at hlen
      omega
    obtain ⟨hfit, hret, hcalls⟩ := run_message hlast
      (fun q hq => hwf q (List.mem_cons_of_mem _ hq))
      (fun q hq => hnot q (List.mem_cons_of_mem _ hq)) happ hrx hlen
    refine ⟨⟨?_, by rw [hstep]; exact hfit⟩, ?_, ?_⟩
    · simp only [FrameFits, rxBufferSize, Packet.size]; omega
    · rw [Machine.run_cons, hstep, List.all_cons, Bool.true_and]
      exact hret
    · rw [Machine.run_cons, hstep, List.flatMap_cons]
      exact hcalls

/-- **A payload that is sent arrives as one call of `unmarshal`**, on as much of it as the
    packets carry. -/
theorem send_link {split : ℕ → List UInt8 → List ProcessCall}
    (hsplit : ∀ n frame, (split n frame).flatMap (·.buffer) = frame) (registry : Registry)
    {buffer : List UInt8} {size : ℕ} (h0 : 0 < size) (hsize : size ≤ packetBufferSize) :
    let r := send (some (splitTx split)) buffer size ⟨0, [], .init none registry⟩
    let u := unmarshal registry (padded (buffer.take (sentSize size))) packetBufferSize true
    r.returnStatus = u.1 ∧ handlerCalls (r.world.outs.flatMap (·.2)) = u.2 := by
  intro r u
  have hlt : size < 2 ^ 31 := by rw [packetBufferSize] at hsize; omega
  obtain ⟨n, hn⟩ := Nat.exists_eq_add_one_of_ne_zero (totalChunks_pos h0 hlt).ne'
  have hpackets : r.packets = (List.range n).map (sentPacket buffer size) ++
      [sentPacket buffer size n] := by
    rw [send_packets hlt, hn, List.range_succ, List.map_append, List.map_singleton]
  have hbytes : r.packets.flatMap Packet.bytes = buffer.take (sentSize size) :=
    send_bytes h0 hlt _
  have hwf : ∀ packet ∈ r.packets, packet.WF := by
    rw [send_packets hlt]
    exact map_sentPacket_wf _
  have hbody : ∀ packet ∈ (List.range n).map (sentPacket buffer size), packet.isLast = false := by
    intro packet hm
    obtain ⟨i, hi, rfl⟩ := List.mem_map.1 hm
    rw [List.mem_range] at hi
    exact sentPacket_notLast hlt (by omega)
  have hlen : (buffer.take (sentSize size)).length ≤ packetBufferSize := by
    have hle : sentSize size ≤ size := by rw [sentSize_eq]; split_ifs <;> omega
    rw [List.length_take]; omega
  have hmessage := run_message (sentPacket_last hn.symm) (hpackets ▸ hwf) hbody
    (heldBy_init none registry) rfl (by rw [← hpackets, List.nil_append, hbytes]; exact hlen)
  rw [← hpackets, List.nil_append, hbytes] at hmessage
  obtain ⟨hfit, hret, hcalls⟩ := hmessage
  obtain ⟨hrets, hevents⟩ := run_link hsplit (l := ⟨0, [], .init none registry⟩) hwf
    (betweenFrames_init none registry) hfit
  obtain ⟨hstatus, hworld⟩ :=
    @send_tx Link (splitTx split) buffer size ⟨0, [], .init none registry⟩
  refine ⟨?_, ?_⟩
  · refine hstatus.trans ((congrArg (·.all id) hrets).trans ?_)
    rw [List.all_map]
    exact hret
  · rw [← handlerCalls_storeEvents, hworld, hevents]
    exact hcalls

/-! ## Union messages -/

/-- The message `m` marshalled with its length in front into a 300-byte buffer of zeros,
    and sent. -/
def sendMessage {σ : Type} (txHandler : TxHandler σ) (m : UnionMessage) (world : σ) :
    SendResult σ :=
  let r := marshal m UnionMessage.fields 300 true
  send (some txHandler) ((Buffer.zero 300).memcpy 0 r.2).bytes r.1 world

/-- The message arrived: `send` returned true, the handler `fn` of the member `k` was
    called once and no other, and `decode_union` makes of its stream what `m` has. -/
structure Delivered (m : UnionMessage) (k : Member) (fn : FnPtr) (r : SendResult Link) : Prop where
  returned : r.returnStatus = true
  called : ∃ stream, handlerCalls (r.world.outs.flatMap (·.2)) = [⟨fn, stream, some k.ptr⟩] ∧
    ∀ dest, ∃ d, (decodeUnion stream k.fields dest).1 = some d ∧ k.Same d (k.get m)

/-- A message with one member. -/
theorem UnionMessage.wire_of_one {m : UnionMessage} {k : Member}
    (hone : ∀ k' : Member, k'.has m = true ↔ k' = k) :
    m.wire = bytesWire k.tag (k.wire (k.get m)) := by
  have hfield : ∀ k' : Member,
      k'.fieldWire m = if k' = k then bytesWire k.tag (k.wire (k.get m)) else [] := by
    intro k'
    rw [Member.fieldWire]
    by_cases h : k' = k
    · subst h; rw [if_pos ((hone k').2 rfl), if_pos rfl]
    · rw [if_neg (fun hh => h ((hone k').1 hh)), if_neg h]
  simp only [wire, hfield]
  cases k <;> simp [Member.all]

/-- What `unmarshal` makes of a buffer that starts with a member. -/
theorem unmarshal_member {registry : Registry} {k : Member} {fn : FnPtr}
    (hreg : registry.lookup (some k.ptr) = some fn) (x rest : List UInt8)
    (hlen : (delimit (bytesWire k.tag x) ++ rest).length = packetBufferSize) :
    unmarshal registry (delimit (bytesWire k.tag x) ++ rest) packetBufferSize true =
      (true, [⟨fn, delimit x, some k.ptr⟩]) := by
  have hw : (bytesWire k.tag x).length < 2 ^ 32 := by
    rw [delimit, List.length_append, List.length_append, packetBufferSize] at hlen
    omega
  have hcall := unmarshalLookupCallback_member hreg x []
  rw [List.append_nil, List.append_nil] at hcall
  rw [unmarshal, unmarshalWith_eq, messageOf_delimit hw hlen.le]
  exact hcall

/-- The end of `data` is missing, and zeros stand for it anyway. -/
theorem padded_take {data : List UInt8} {n : ℕ} (hn : n ≤ data.length)
    (hlen : data.length ≤ packetBufferSize) :
    padded (data.take (data.length - n)) =
      zeroTail n data ++ List.replicate (packetBufferSize - data.length) 0 := by
  rw [padded, zeroTail, List.append_assoc, List.replicate_append_replicate, List.length_take]
  congr 2
  omega

theorem length_padded {data : List UInt8} (hlen : data.length ≤ packetBufferSize) :
    (padded data).length = packetBufferSize := by
  rw [padded, List.length_append, List.length_replicate]; omega

/-- The length of a message with one member. -/
theorem length_one {k : Member} {x : List UInt8} (hx : x.length ≤ 258) :
    x.length + 3 ≤ (delimit (bytesWire k.tag x)).length ∧
      (delimit (bytesWire k.tag x)).length ≤ x.length + 5 := by
  have htag : k.tag < 15 := by cases k <;> decide
  have h1 := length_delimit (w := x) (by omega)
  have h2 := length_bytesWire htag x
  have h3 := length_delimit (w := bytesWire k.tag x) (by omega)
  omega

section
variable {m : UnionMessage} {k : Member} {registry : Registry} {fn : FnPtr}
  {split : ℕ → List UInt8 → List ProcessCall}

/-- What the receiver makes of a message: one call of `unmarshal`, on what was sent of it. -/
theorem sendMessage_eq (hwf : m.WF) (hone : ∀ k' : Member, k'.has m = true ↔ k' = k)
    (hsplit : ∀ n frame, (split n frame).flatMap (·.buffer) = frame) :
    let r := sendMessage (splitTx split) m ⟨0, [], .init none registry⟩
    let u := unmarshal registry
      (padded ((delimit m.wire).take (sentSize (delimit m.wire).length))) packetBufferSize true
    r.returnStatus = u.1 ∧ handlerCalls (r.world.outs.flatMap (·.2)) = u.2 := by
  have hx := k.length_wire (hwf k ((hone k).2 rfl))
  have hlen := @length_one k _ hx
  rw [← UnionMessage.wire_of_one hone] at hlen
  have hm : marshal m UnionMessage.fields 300 true =
      ((delimit m.wire).length, delimit m.wire) :=
    (marshal_delimited hwf 300).resolve_left fun h => absurd h.2 (by omega)
  have hle : sentSize (delimit m.wire).length ≤ (delimit m.wire).length := by
    rw [sentSize_eq]; split_ifs <;> omega
  have htake : ((Buffer.zero 300).memcpy 0 (delimit m.wire)).bytes.take
      (sentSize (delimit m.wire).length) =
        (delimit m.wire).take (sentSize (delimit m.wire).length) := by
    have h := (Buffer.zero 300).take_memcpy 0 (delimit m.wire) (by omega)
    rw [zero_add, List.take_zero, List.nil_append] at h
    have h' := congrArg (List.take (sentSize (delimit m.wire).length)) h
    rwa [List.take_take, min_eq_left hle] at h'
  have hsend := @send_link split hsplit registry
    ((Buffer.zero 300).memcpy 0 (delimit m.wire)).bytes (delimit m.wire).length (by omega)
    (by rw [packetBufferSize]; omega)
  rw [htake] at hsend
  simp only [sendMessage, hm]
  exact hsend

/-- The bytes of a member that the receiver gets: zeros stand for the last fifteen when the
    last packet of the message is empty. -/
def receivedMember (m : UnionMessage) (k : Member) : List UInt8 :=
  if 15 ∣ (delimit m.wire).length ∧ 15 < (delimit m.wire).length then
    zeroTail 15 (k.wire (k.get m))
  else k.wire (k.get m)

/-- The buffer that is handed to `unmarshal` has the bytes received in the place of the
    member. -/
theorem padded_sent (hwf : m.WF) (hone : ∀ k' : Member, k'.has m = true ↔ k' = k) :
    padded ((delimit m.wire).take (sentSize (delimit m.wire).length)) =
      delimit (bytesWire k.tag (receivedMember m k)) ++
        List.replicate (packetBufferSize - (delimit m.wire).length) 0 := by
  have hw := UnionMessage.wire_of_one hone
  have hx := k.length_wire (hwf k ((hone k).2 rfl))
  have hlen := @length_one k _ hx
  rw [← hw] at hlen
  have hsize : (delimit m.wire).length ≤ packetBufferSize := by rw [packetBufferSize]; omega
  rw [receivedMember, sentSize_eq]
  by_cases hfull : 15 ∣ (delimit m.wire).length ∧ 15 < (delimit m.wire).length
  · have hb : 15 ≤ (bytesWire k.tag (k.wire (k.get m))).length := by
      rw [bytesWire, fieldWire, List.length_append, delimit, List.length_append]; omega
    have hcut : zeroTail 15 (delimit m.wire) =
        delimit (bytesWire k.tag (zeroTail 15 (k.wire (k.get m)))) := by
      rw [hw, zeroTail_delimit hb, zeroTail_bytesWire _ (by omega)]
    rw [if_pos hfull, if_pos ⟨Nat.mod_eq_zero_of_dvd hfull.1, hfull.2⟩,
      padded_take (by omega) hsize, hcut]
  · rw [if_neg hfull, if_neg (fun h => hfull ⟨Nat.dvd_of_mod_eq_zero h.1, h.2⟩), List.take_length,
      padded, hw]

/-- **A message always ends in one call of its handler**, and `send` returns true, also
    when the end of the message was lost. -/
theorem sendMessage_calls (hwf : m.WF) (hone : ∀ k' : Member, k'.has m = true ↔ k' = k)
    (hreg : registry.lookup (some k.ptr) = some fn)
    (hsplit : ∀ n frame, (split n frame).flatMap (·.buffer) = frame) :
    let r := sendMessage (splitTx split) m ⟨0, [], .init none registry⟩
    r.returnStatus = true ∧ handlerCalls (r.world.outs.flatMap (·.2)) =
      [⟨fn, delimit (receivedMember m k), some k.ptr⟩] := by
  have hpad := padded_sent hwf hone
  have hx := k.length_wire (hwf k ((hone k).2 rfl))
  have hlen := @length_one k _ hx
  rw [← UnionMessage.wire_of_one hone] at hlen
  have hsize : ((delimit m.wire).take (sentSize (delimit m.wire).length)).length ≤
      packetBufferSize := by
    rw [List.length_take, packetBufferSize]; omega
  have hu := unmarshal_member hreg (receivedMember m k)
    (List.replicate (packetBufferSize - (delimit m.wire).length) 0)
    (by rw [← hpad]; exact length_padded hsize)
  obtain ⟨hret, hcalls⟩ := @sendMessage_eq m k registry split hwf hone hsplit
  rw [hpad, hu] at hret hcalls
  exact ⟨hret, hcalls⟩

/-- **When a message arrives.**  With any division of the frames into chunks, it arrives
    unless its marshalled form is longer than one packet and fills its last packet. -/
theorem delivered_iff (hwf : m.WF) (hone : ∀ k' : Member, k'.has m = true ↔ k' = k)
    (hadd : (registry.addHandler (some k.ptr) fn).1 = true)
    (hsplit : ∀ n frame, (split n frame).flatMap (·.buffer) = frame) :
    Delivered m k fn (sendMessage (splitTx split) m
        ⟨0, [], .init none (registry.addHandler (some k.ptr) fn).2⟩) ↔
      ¬ (15 ∣ (delimit m.wire).length ∧ 15 < (delimit m.wire).length) := by
  have hk := hwf k ((hone k).2 rfl)
  have hx := k.length_wire hk
  have hlen := @length_one k _ hx
  rw [← UnionMessage.wire_of_one hone] at hlen
  obtain ⟨hret, hcalls⟩ := sendMessage_calls hwf hone (Registry.lookup_addHandler hadd) hsplit
  rw [receivedMember] at hcalls
  by_cases hfull : 15 ∣ (delimit m.wire).length ∧ 15 < (delimit m.wire).length
  · -- the last packet is empty: what is decoded is not what was sent
    rw [if_pos hfull] at hcalls
    refine iff_of_false ?_ (not_not_intro hfull)
    rintro ⟨-, stream, hcall, hdec⟩
    rw [hcall] at hcalls
    obtain rfl : stream = delimit (zeroTail 15 (k.wire (k.get m))) := by simpa using hcalls
    obtain ⟨d, hd, hsame⟩ := hdec (k.get m)
    have hread := decodeUnion_append k.fields (x := zeroTail 15 (k.wire (k.get m)))
      (by rw [length_zeroTail (by omega)]; omega) [] (k.get m)
    rw [List.append_nil] at hread
    rw [hread] at hd
    exact k.not_same_zeroTail hk (by omega) (k.get m) ⟨d, hd, hsame⟩
  · rw [if_neg hfull] at hcalls
    refine iff_of_true ⟨hret, _, hcalls, fun dest => ?_⟩ hfull
    obtain ⟨d, hd, hsame⟩ := decodeUnion_delimit hk [] dest
    rw [List.append_nil] at hd
    exact ⟨d, congrArg Prod.fst hd, hsame⟩

end

/-- A handler that sends one byte at a time, as in the usage example. -/
def sendBytes (m : UnionMessage) (k : Member) : SendResult Link :=
  sendMessage (splitTx fun _ => ProcessCall.byteAtATime) m
    ⟨0, [], .init none (Registry.empty.addHandler (some k.ptr) 9).2⟩

/-- Twenty-five letters: with their tags and lengths in front, two full packets. -/
def letters : List UInt8 := (List.range 25).map fun i => UInt8.ofNat (97 + i)

def lettersMessage : UnionMessage :=
  { UnionMessage.initZero with
    hasHidReport := true, hidReport := ⟨(Buffer.zero 256).memcpy 0 letters⟩ }

/-- With twenty of them, the second packet is not full. -/
def twentyLettersMessage : UnionMessage :=
  { UnionMessage.initZero with
    hasHidReport := true, hidReport := ⟨(Buffer.zero 256).memcpy 0 (letters.take 20)⟩ }

theorem delivered_iff_twentyLetters : 15 < (delimit twentyLettersMessage.wire).length ∧
    Delivered twentyLettersMessage .hidReport 9 (sendBytes twentyLettersMessage .hidReport) := by
  have hone : ∀ k : Member, k.has twentyLettersMessage = true ↔ k = .hidReport := by
    intro k; cases k <;> decide
  have hwf : twentyLettersMessage.WF := by
    intro k hk
    obtain rfl := (hone k).1 hk
    show (HIDReport.data _).Terminated
    decide +kernel
  have hsplit : ∀ (n : ℕ) frame, (ProcessCall.byteAtATime frame).flatMap (·.buffer) = frame :=
    fun _ frame => ProcessCall.flatMap_byteAtATime frame
  exact ⟨by decide +kernel, (delivered_iff hwf hone rfl hsplit).2 (by decide +kernel)⟩

/-- Of the twenty-five, only ten arrive, though `send` returns true. -/
theorem lettersMessage_truncated :
    lettersMessage.WF ∧ (∀ k : Member, k.has lettersMessage = true ↔ k = .hidReport) ∧
    (sendBytes lettersMessage .hidReport).returnStatus = true ∧
    ¬ Delivered lettersMessage .hidReport 9 (sendBytes lettersMessage .hidReport) := by
  have hone : ∀ k : Member, k.has lettersMessage = true ↔ k = .hidReport := by
    intro k; cases k <;> decide
  have hdecoded : ∀ call ∈ handlerCalls
      ((sendBytes lettersMessage .hidReport).world.outs.flatMap (·.2)), ∀ d ∈
        (decodeUnion call.decodeStream HIDReport.fields ⟨.zero 256⟩).1,
          cstr d.data.bytes = letters.take 10 := by
    decide +kernel
  refine ⟨fun k hk => ?_, hone, by decide +kernel, ?_⟩
  · obtain rfl := (hone k).1 hk
    show (HIDReport.data _).Terminated
    decide +kernel
  · rintro ⟨-, stream, hcall, hdec⟩
    rw [hcall] at hdecoded
    obtain ⟨d, hd, hsame⟩ := hdec ⟨.zero 256⟩
    have hten := hdecoded _ List.mem_cons_self d hd
    have hall : cstr lettersMessage.hidReport.data.bytes = letters := by decide +kernel
    exact absurd (hten.symm.trans (Eq.trans hsame hall)) (by decide +kernel)

end PacketSerial

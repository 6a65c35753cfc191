/-
  The messages (`src/messages`) and their nanopb tables.

  * `Packet`: what one frame carries;
  * `UnionMessage`: the message a sequence of packets carries, with seven optional
    members (`Member`);
  * `FieldsPtr`: the pointers to tables, by which members are told apart.
-/
import PacketSerial.Nanopb.Ltypes

namespace PacketSerial

/-- The addresses of the tables; `other` stands for addresses of anything else. -/
inductive FieldsPtr where
  | packet
  | unionMessage
  | deviceDescriptor
  | hidReport
  | inputReport
  | speechSynthMsg
  | timeMsg
  | alarmMsg
  | neoPixelMsg
  | neoPixelMsgColor
  | other (n : ℕ)
deriving DecidableEq, Repr

/-! ## Packets -/

/-- `Packet_Flag` -/
inductive PacketFlag where
  | first
  | cont
  | last
  | firstLast
deriving DecidableEq, Repr

def PacketFlag.code : PacketFlag → UInt32
  | first => 0
  | cont => 1
  | last => 2
  | firstLast => 3

/-- `flag` is a `uint32_t`: the decoder stores any number in it. -/
structure Packet where
  data : BytesArray 16
  sequenceNumber : UInt8
  crc : UInt8
  flag : UInt32
deriving DecidableEq, Repr

namespace Packet

/-- `Packet_init_zero` -/
def initZero : Packet := ⟨.empty, 0, 0, 0⟩

def fields : List (PbField FieldsPtr Packet) := [
  .required 1 (bytesLtype 16) ⟨data, fun v p => { p with data := v }⟩,
  .required 2 uint8Ltype ⟨sequenceNumber, fun v p => { p with sequenceNumber := v }⟩,
  .required 3 uint8Ltype ⟨crc, fun v p => { p with crc := v }⟩,
  .required 4 uint32Ltype ⟨flag, fun v p => { p with flag := v }⟩]

/-- `Packet_size`, the most bytes an encoded packet takes. -/
def size : ℕ := 32

end Packet

/-! ## Members of the union -/

structure DeviceDescriptor where
  iManufacturer : Buffer 64
  iProduct : Buffer 64
  bMaxPacketSize0 : UInt32
deriving DecidableEq, Repr

def DeviceDescriptor.fields : List (PbField FieldsPtr DeviceDescriptor) := [
  .required 1 (stringLtype 64) ⟨iManufacturer, fun v d => { d with iManufacturer := v }⟩,
  .required 2 (stringLtype 64) ⟨iProduct, fun v d => { d with iProduct := v }⟩,
  .required 3 uint32Ltype ⟨bMaxPacketSize0, fun v d => { d with bMaxPacketSize0 := v }⟩]

structure HIDReport where
  data : Buffer 256
deriving DecidableEq, Repr

def HIDReport.fields : List (PbField FieldsPtr HIDReport) :=
  [.required 1 (stringLtype 256) ⟨data, fun v d => { d with data := v }⟩]

structure InputReport where
  data : Buffer 64
deriving DecidableEq, Repr

def InputReport.fields : List (PbField FieldsPtr InputReport) :=
  [.required 1 (stringLtype 64) ⟨data, fun v d => { d with data := v }⟩]

structure SpeechSynthMsg where
  data : Buffer 256
deriving DecidableEq, Repr

def SpeechSynthMsg.fields : List (PbField FieldsPtr SpeechSynthMsg) :=
  [.required 1 (stringLtype 256) ⟨data, fun v d => { d with data := v }⟩]

structure TimeMsg where
  hours : UInt32
  minutes : UInt32
  seconds : UInt32
deriving DecidableEq, Repr

def TimeMsg.fields : List (PbField FieldsPtr TimeMsg) := [
  .required 1 uint32Ltype ⟨hours, fun v d => { d with hours := v }⟩,
  .required 2 uint32Ltype ⟨minutes, fun v d => { d with minutes := v }⟩,
  .required 3 uint32Ltype ⟨seconds, fun v d => { d with seconds := v }⟩]

/-- `enabled` is the byte of the `bool`: the decoder stores any byte in it. -/
structure AlarmMsg where
  hours : UInt32
  minutes : UInt32
  seconds : UInt32
  enabled : UInt8
deriving DecidableEq, Repr

def AlarmMsg.fields : List (PbField FieldsPtr AlarmMsg) := [
  .required 1 uint32Ltype ⟨hours, fun v d => { d with hours := v }⟩,
  .required 2 uint32Ltype ⟨minutes, fun v d => { d with minutes := v }⟩,
  .required 3 uint32Ltype ⟨seconds, fun v d => { d with seconds := v }⟩,
  .required 4 boolLtype ⟨enabled, fun v d => { d with enabled := v }⟩]

/-- `NeoPixelMsg_Color` -/
structure NeoPixelMsgColor where
  green : UInt32
  red : UInt32
  blue : UInt32
deriving DecidableEq, Repr

def NeoPixelMsgColor.fields : List (PbField FieldsPtr NeoPixelMsgColor) := [
  .required 1 uint32Ltype ⟨green, fun v d => { d with green := v }⟩,
  .required 2 uint32Ltype ⟨red, fun v d => { d with red := v }⟩,
  .required 3 uint32Ltype ⟨blue, fun v d => { d with blue := v }⟩]

structure NeoPixelMsg where
  startColor : NeoPixelMsgColor
  hasEndColor : Bool
  endColor : NeoPixelMsgColor
  brightness : UInt32
  pattern : UInt32
  hasDelay : Bool
  delay : UInt32
deriving DecidableEq, Repr

def NeoPixelMsg.fields : List (PbField FieldsPtr NeoPixelMsg) := [
  .required 1 (submessageLtype .neoPixelMsgColor NeoPixelMsgColor.fields)
    ⟨startColor, fun v d => { d with startColor := v }⟩,
  .optional 2 (submessageLtype .neoPixelMsgColor NeoPixelMsgColor.fields)
    ⟨endColor, fun v d => { d with endColor := v }⟩
    ⟨hasEndColor, fun v d => { d with hasEndColor := v }⟩,
  .required 3 uint32Ltype ⟨brightness, fun v d => { d with brightness := v }⟩,
  .required 4 uint32Ltype ⟨pattern, fun v d => { d with pattern := v }⟩,
  .optional 5 uint32Ltype ⟨delay, fun v d => { d with delay := v }⟩
    ⟨hasDelay, fun v d => { d with hasDelay := v }⟩]

/-! ## The union -/

structure UnionMessage where
  hasDeviceDescriptor : Bool
  deviceDescriptor : DeviceDescriptor
  hasHidReport : Bool
  hidReport : HIDReport
  hasInputReport : Bool
  inputReport : InputReport
  hasSpeechSynth : Bool
  speechSynth : SpeechSynthMsg
  hasTime : Bool
  time : TimeMsg
  hasAlarm : Bool
  alarm : AlarmMsg
  hasNeopixel : Bool
  neopixel : NeoPixelMsg
deriving DecidableEq, Repr

/-- `UnionMessage_init_zero`; the pattern is `COLOR_WIPE`, the least one. -/
def UnionMessage.initZero : UnionMessage where
  hasDeviceDescriptor := false
  deviceDescriptor := ⟨.zero 64, .zero 64, 0⟩
  hasHidReport := false
  hidReport := ⟨.zero 256⟩
  hasInputReport := false
  inputReport := ⟨.zero 64⟩
  hasSpeechSynth := false
  speechSynth := ⟨.zero 256⟩
  hasTime := false
  time := ⟨0, 0, 0⟩
  hasAlarm := false
  alarm := ⟨0, 0, 0, 0⟩
  hasNeopixel := false
  neopixel := ⟨⟨0, 0, 0⟩, false, ⟨0, 0, 0⟩, 0, 1, false, 0⟩

def UnionMessage.fields : List (PbField FieldsPtr UnionMessage) := [
  .optional 1 (submessageLtype .deviceDescriptor DeviceDescriptor.fields)
    ⟨deviceDescriptor, fun v m => { m with deviceDescriptor := v }⟩
    ⟨hasDeviceDescriptor, fun v m => { m with hasDeviceDescriptor := v }⟩,
  .optional 2 (submessageLtype .hidReport HIDReport.fields)
    ⟨hidReport, fun v m => { m with hidReport := v }⟩
    ⟨hasHidReport, fun v m => { m with hasHidReport := v }⟩,
  .optional 3 (submessageLtype .inputReport InputReport.fields)
    ⟨inputReport, fun v m => { m with inputReport := v }⟩
    ⟨hasInputReport, fun v m => { m with hasInputReport := v }⟩,
  .optional 4 (submessageLtype .speechSynthMsg SpeechSynthMsg.fields)
    ⟨speechSynth, fun v m => { m with speechSynth := v }⟩
    ⟨hasSpeechSynth, fun v m => { m with hasSpeechSynth := v }⟩,
  .optional 5 (submessageLtype .timeMsg TimeMsg.fields)
    ⟨time, fun v m => { m with time := v }⟩
    ⟨hasTime, fun v m => { m with hasTime := v }⟩,
  .optional 6 (submessageLtype .alarmMsg AlarmMsg.fields)
    ⟨alarm, fun v m => { m with alarm := v }⟩
    ⟨hasAlarm, fun v m => { m with hasAlarm := v }⟩,
  .optional 7 (submessageLtype .neoPixelMsg NeoPixelMsg.fields)
    ⟨neopixel, fun v m => { m with neopixel := v }⟩
    ⟨hasNeopixel, fun v m => { m with hasNeopixel := v }⟩]

/-- The members of the union, in the order of their tags. -/
inductive Member where
  | deviceDescriptor
  | hidReport
  | inputReport
  | speechSynth
  | time
  | alarm
  | neopixel
deriving DecidableEq, Repr

namespace Member

/-- The C struct of a member. -/
def Struct : Member → Type
  | deviceDescriptor => DeviceDescriptor
  | hidReport => HIDReport
  | inputReport => InputReport
  | speechSynth => SpeechSynthMsg
  | time => TimeMsg
  | alarm => AlarmMsg
  | neopixel => NeoPixelMsg

/-- The table of a member. -/
def fields : (k : Member) → List (PbField FieldsPtr k.Struct)
  | deviceDescriptor => DeviceDescriptor.fields
  | hidReport => HIDReport.fields
  | inputReport => InputReport.fields
  | speechSynth => SpeechSynthMsg.fields
  | time => TimeMsg.fields
  | alarm => AlarmMsg.fields
  | neopixel => NeoPixelMsg.fields

/-- The address of that table. -/
def ptr : Member → FieldsPtr
  | deviceDescriptor => .deviceDescriptor
  | hidReport => .hidReport
  | inputReport => .inputReport
  | speechSynth => .speechSynthMsg
  | time => .timeMsg
  | alarm => .alarmMsg
  | neopixel => .neoPixelMsg

def tag : Member → ℕ
  | deviceDescriptor => 1
  | hidReport => 2
  | inputReport => 3
  | speechSynth => 4
  | time => 5
  | alarm => 6
  | neopixel => 7

def all : List Member :=
  [deviceDescriptor, hidReport, inputReport, speechSynth, time, alarm, neopixel]

theorem mem_all (k : Member) : k ∈ all := by cases k <;> decide

/-- The member of a union message, and its `has_..`. -/
def member : (k : Member) → PbMember UnionMessage k.Struct
  | deviceDescriptor => ⟨fun m => m.deviceDescriptor, fun v m => { m with deviceDescriptor := v }⟩
  | hidReport => ⟨fun m => m.hidReport, fun v m => { m with hidReport := v }⟩
  | inputReport => ⟨fun m => m.inputReport, fun v m => { m with inputReport := v }⟩
  | speechSynth => ⟨fun m => m.speechSynth, fun v m => { m with speechSynth := v }⟩
  | time => ⟨fun m => m.time, fun v m => { m with time := v }⟩
  | alarm => ⟨fun m => m.alarm, fun v m => { m with alarm := v }⟩
  | neopixel => ⟨fun m => m.neopixel, fun v m => { m with neopixel := v }⟩

def hasMember : Member → PbMember UnionMessage Bool
  | deviceDescriptor => ⟨(·.hasDeviceDescriptor), fun v m => { m with hasDeviceDescriptor := v }⟩
  | hidReport => ⟨(·.hasHidReport), fun v m => { m with hasHidReport := v }⟩
  | inputReport => ⟨(·.hasInputReport), fun v m => { m with hasInputReport := v }⟩
  | speechSynth => ⟨(·.hasSpeechSynth), fun v m => { m with hasSpeechSynth := v }⟩
  | time => ⟨(·.hasTime), fun v m => { m with hasTime := v }⟩
  | alarm => ⟨(·.hasAlarm), fun v m => { m with hasAlarm := v }⟩
  | neopixel => ⟨(·.hasNeopixel), fun v m => { m with hasNeopixel := v }⟩

def get (k : Member) (m : UnionMessage) : k.Struct := k.member.get m

def has (k : Member) (m : UnionMessage) : Bool := k.hasMember.get m

/-- The entry of a member in the table of the union. -/
def field (k : Member) : PbField FieldsPtr UnionMessage :=
  .optional k.tag (submessageLtype k.ptr k.fields) k.member k.hasMember

end Member

/-- The table of the union has one entry for each member. -/
theorem unionMessage_fields : UnionMessage.fields = Member.all.map Member.field := rfl

end PacketSerial

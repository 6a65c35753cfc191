/-
  The tables of the messages, with the decoders and encoders of their fields in memory.

  * `Packet.table`, `UnionMessage.table`: the tables of the two messages on the line;
  * `Member.table`: those of the members;
  * the `list_table` lemmas: they list the fields of the model on lists.
-/
import PacketSerial.MessageCodec
import PacketSerial.Nanopb.BufFields

namespace PacketSerial

def Packet.table : PbBufTable FieldsPtr Packet where
  fields := [
    .required 1 (bytesBufLtype 16) ⟨data, fun v p => { p with data := v }⟩,
    .required 2 uint8BufLtype ⟨sequenceNumber, fun v p => { p with sequenceNumber := v }⟩,
    .required 3 uint8BufLtype ⟨crc, fun v p => { p with crc := v }⟩,
    .required 4 uint32BufLtype ⟨flag, fun v p => { p with flag := v }⟩]
  wf := Packet.fields_wf
  pos := Nat.succ_pos _

theorem Packet.list_table : Packet.table.list = Packet.fields := rfl

def DeviceDescriptor.table : PbBufTable FieldsPtr DeviceDescriptor where
  fields := [
    .required 1 (stringBufLtype 64) ⟨iManufacturer, fun v d => { d with iManufacturer := v }⟩,
    .required 2 (stringBufLtype 64) ⟨iProduct, fun v d => { d with iProduct := v }⟩,
    .required 3 uint32BufLtype ⟨bMaxPacketSize0, fun v d => { d with bMaxPacketSize0 := v }⟩]
  wf := Member.fields_wf .deviceDescriptor
  pos := Nat.succ_pos _

def HIDReport.table : PbBufTable FieldsPtr HIDReport where
  fields := [.required 1 (stringBufLtype 256) ⟨data, fun v d => { d with data := v }⟩]
  wf := Member.fields_wf .hidReport
  pos := Nat.succ_pos _

def InputReport.table : PbBufTable FieldsPtr InputReport where
  fields := [.required 1 (stringBufLtype 64) ⟨data, fun v d => { d with data := v }⟩]
  wf := Member.fields_wf .inputReport
  pos := Nat.succ_pos _

def SpeechSynthMsg.table : PbBufTable FieldsPtr SpeechSynthMsg where
  fields := [.required 1 (stringBufLtype 256) ⟨data, fun v d => { d with data := v }⟩]
  wf := Member.fields_wf .speechSynth
  pos := Nat.succ_pos _

def TimeMsg.table : PbBufTable FieldsPtr TimeMsg where
  fields := [
    .required 1 uint32BufLtype ⟨hours, fun v d => { d with hours := v }⟩,
    .required 2 uint32BufLtype ⟨minutes, fun v d => { d with minutes := v }⟩,
    .required 3 uint32BufLtype ⟨seconds, fun v d => { d with seconds := v }⟩]
  wf := Member.fields_wf .time
  pos := Nat.succ_pos _

def AlarmMsg.table : PbBufTable FieldsPtr AlarmMsg where
  fields := [
    .required 1 uint32BufLtype ⟨hours, fun v d => { d with hours := v }⟩,
    .required 2 uint32BufLtype ⟨minutes, fun v d => { d with minutes := v }⟩,
    .required 3 uint32BufLtype ⟨seconds, fun v d => { d with seconds := v }⟩,
    .required 4 boolBufLtype ⟨enabled, fun v d => { d with enabled := v }⟩]
  wf := Member.fields_wf .alarm
  pos := Nat.succ_pos _

def NeoPixelMsgColor.table : PbBufTable FieldsPtr NeoPixelMsgColor where
  fields := [
    .required 1 uint32BufLtype ⟨green, fun v d => { d with green := v }⟩,
    .required 2 uint32BufLtype ⟨red, fun v d => { d with red := v }⟩,
    .required 3 uint32BufLtype ⟨blue, fun v d => { d with blue := v }⟩]
  wf := NeoPixelMsgColor.fields_wf
  pos := Nat.succ_pos _

def NeoPixelMsg.table : PbBufTable FieldsPtr NeoPixelMsg where
  fields := [
    .required 1 (submessageBufLtype .neoPixelMsgColor NeoPixelMsgColor.table)
      ⟨startColor, fun v d => { d with startColor := v }⟩,
    .optional 2 (submessageBufLtype .neoPixelMsgColor NeoPixelMsgColor.table)
      ⟨endColor, fun v d => { d with endColor := v }⟩
      ⟨hasEndColor, fun v d => { d with hasEndColor := v }⟩,
    .required 3 uint32BufLtype ⟨brightness, fun v d => { d with brightness := v }⟩,
    .required 4 uint32BufLtype ⟨pattern, fun v d => { d with pattern := v }⟩,
    .optional 5 uint32BufLtype ⟨delay, fun v d => { d with delay := v }⟩
      ⟨hasDelay, fun v d => { d with hasDelay := v }⟩]
  wf := Member.fields_wf .neopixel
  pos := Nat.succ_pos _

/-- The table of a member. -/
def Member.table : (k : Member) → PbBufTable FieldsPtr k.Struct
  | .deviceDescriptor => DeviceDescriptor.table
  | .hidReport => HIDReport.table
  | .inputReport => InputReport.table
  | .speechSynth => SpeechSynthMsg.table
  | .time => TimeMsg.table
  | .alarm => AlarmMsg.table
  | .neopixel => NeoPixelMsg.table

theorem Member.list_table (k : Member) : k.table.list = k.fields := by cases k <;> rfl

def UnionMessage.table : PbBufTable FieldsPtr UnionMessage where
  fields := [
    .optional 1 (submessageBufLtype .deviceDescriptor DeviceDescriptor.table)
      ⟨deviceDescriptor, fun v m => { m with deviceDescriptor := v }⟩
      ⟨hasDeviceDescriptor, fun v m => { m with hasDeviceDescriptor := v }⟩,
    .optional 2 (submessageBufLtype .hidReport HIDReport.table)
      ⟨hidReport, fun v m => { m with hidReport := v }⟩
      ⟨hasHidReport, fun v m => { m with hasHidReport := v }⟩,
    .optional 3 (submessageBufLtype .inputReport InputReport.table)
      ⟨inputReport, fun v m => { m with inputReport := v }⟩
      ⟨hasInputReport, fun v m => { m with hasInputReport := v }⟩,
    .optional 4 (submessageBufLtype .speechSynthMsg SpeechSynthMsg.table)
      ⟨speechSynth, fun v m => { m with speechSynth := v }⟩
      ⟨hasSpeechSynth, fun v m => { m with hasSpeechSynth := v }⟩,
    .optional 5 (submessageBufLtype .timeMsg TimeMsg.table)
      ⟨time, fun v m => { m with time := v }⟩
      ⟨hasTime, fun v m => { m with hasTime := v }⟩,
    .optional 6 (submessageBufLtype .alarmMsg AlarmMsg.table)
      ⟨alarm, fun v m => { m with alarm := v }⟩
      ⟨hasAlarm, fun v m => { m with hasAlarm := v }⟩,
    .optional 7 (submessageBufLtype .neoPixelMsg NeoPixelMsg.table)
      ⟨neopixel, fun v m => { m with neopixel := v }⟩
      ⟨hasNeopixel, fun v m => { m with hasNeopixel := v }⟩]
  wf := UnionMessage.fields_wf
  pos := Nat.succ_pos _

theorem UnionMessage.list_table : UnionMessage.table.list = UnionMessage.fields := rfl

end PacketSerial

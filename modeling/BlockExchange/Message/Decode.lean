import BlockExchange.Message.Basic
import BlockExchange.Protobuf.Reader

/-!
# Decoding messages

A schema for each kind of record says what a field does to what has been read so far: a repeated
number, flag or byte string replaces the earlier one, a repeated record is one more record, and a
repeated wantlist adds its fields to the earlier one.
-/

namespace BlockExchange

open Protobuf

def Entry.schema : Schema Entry where
  name := "Entry"
  field?
    | 1 => some ("block", fun _ w e => do return { e with block := ← Reader.bytes w })
    | 2 => some ("priority", fun _ w e => do return { e with priority := ← Reader.signed w })
    | 3 => some ("cancel", fun _ w e => do return { e with cancel := ← Reader.flag w })
    | 4 => some ("want_type", fun _ w e => do return { e with wantType := ← Reader.signed w })
    | 5 => some ("send_dont_have", fun _ w e => do return { e with sendDontHave := ← Reader.flag w })
    | 6 => some ("auth", fun _ w e => do return { e with auth := ← Reader.bytes w })
    | _ => none

def Wantlist.schema : Schema Wantlist where
  name := "Wantlist"
  field?
    | 1 => some ("entries", fun depth w l => do
        let e ← Entry.schema.readMessage depth w {}
        return { l with entries := l.entries ++ [e] })
    | 2 => some ("full", fun _ w l => do return { l with full := ← Reader.flag w })
    | _ => none

def BlockRecord.schema : Schema BlockRecord where
  name := "Block"
  field?
    | 1 => some ("prefix", fun _ w b => do return { b with cidPrefix := ← Reader.bytes w })
    | 2 => some ("data", fun _ w b => do return { b with data := ← Reader.bytes w })
    | 3 => some ("auth", fun _ w b => do return { b with auth := ← Reader.bytes w })
    | _ => none

def Presence.schema : Schema Presence where
  name := "BlockPresence"
  field?
    | 1 => some ("cid", fun _ w p => do return { p with cid := ← Reader.bytes w })
    | 2 => some ("r#type", fun _ w p => do return { p with type := ← Reader.signed w })
    | 3 => some ("auth", fun _ w p => do return { p with auth := ← Reader.bytes w })
    | _ => none

def Message.schema : Schema Message where
  name := "Message"
  field?
    | 1 => some ("wantlist", fun depth w m => do
        let l ← Wantlist.schema.readMessage depth w (m.wantlist.getD {})
        return { m with wantlist := some l })
    | 3 => some ("payload", fun depth w m => do
        let b ← BlockRecord.schema.readMessage depth w {}
        return { m with payload := m.payload ++ [b] })
    | 4 => some ("block_presences", fun depth w m => do
        let p ← Presence.schema.readMessage depth w {}
        return { m with presences := m.presences ++ [p] })
    | 5 => some ("pending_bytes", fun _ w m => do
        return { m with pendingBytes := ← Reader.signed w })
    | 6 => some ("trace_id", fun _ w m => do return { m with traceId := ← Reader.text w })
    | _ => none

namespace Message

def decode (b : Bytes) : Except DecodeError Message :=
  schema.decode {} b

end Message
end BlockExchange

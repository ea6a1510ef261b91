import BlockExchange.Duration
import BlockExchange.Frame
import BlockExchange.Toml.Document

/-!
# Settings

What a node reads when it starts, in three sections: the exchange, the trace log and the block
store. The settings are kept in a TOML file (`load`, `save`). There durations are whole
milliseconds, a field that is missing has its default, and a field that nobody knows is passed over.
-/

namespace BlockExchange

inductive SettingsError
  | messageSizeZero
  | messageSizeTooLarge (n : Nat)
  | flushIntervalZero
deriving DecidableEq, Repr

def SettingsError.message : SettingsError → String
  | .messageSizeZero => "max_message_size must be non-zero"
  | .messageSizeTooLarge n =>
    "max_message_size " ++ toString n ++ " exceeds the " ++ toString maxFrameSize
      ++ " byte frame limit"
  | .flushIntervalZero => "trace flush_interval_ms must be non-zero"

structure ExchangeSettings where
  maxMessageSize : Nat := 2 * 1024 * 1024
  /-- How long a want is worth telling a single peer about. -/
  wantRecency : Duration := .ofSeconds 300
deriving DecidableEq, Repr

/-- A message has at least one byte and fits a frame. -/
def ExchangeSettings.validate (s : ExchangeSettings) : Except SettingsError Unit :=
  if s.maxMessageSize = 0 then .error .messageSizeZero
  else if maxFrameSize < s.maxMessageSize then .error (.messageSizeTooLarge s.maxMessageSize)
  else .ok ()

structure TraceSettings where
  enabled : Bool := false
  dir : String := "traces"
  maxFileSize : Nat := 16 * 1024 * 1024
  flushInterval : Duration := .ofSeconds 1
deriving DecidableEq, Repr

def TraceSettings.validate (s : TraceSettings) : Except SettingsError Unit :=
  if s.flushInterval.isZero then .error .flushIntervalZero else .ok ()

structure StoreSettings where
  /-- Where the blocks are kept; without it they are kept in memory. -/
  path : Option String := none
deriving DecidableEq, Repr

structure Settings where
  exchange : ExchangeSettings := {}
  trace : TraceSettings := {}
  store : StoreSettings := {}
deriving DecidableEq, Repr

namespace Settings

/-! ### Reading -/

open Toml (Value Fields)

/-- The values of the named fields of a section, if a value can be one. Items of an array are the
fields in order, and a date is a section without any of them. -/
def fields? (names : List String) : Value → Option (List (Option Value))
  | .table _ t => some (names.map (Fields.get? t))
  | .array items => some (names.mapIdx fun i _ => items[i]?)
  | .tables items => some (names.mapIdx fun i _ => items[i]?.map (.table .header))
  | .datetime => some (names.map fun _ => none)
  | _ => none

def nat? : Value → Option Nat
  | .integer n => if 0 ≤ n then some n.toNat else none
  | _ => none

def millis? (v : Value) : Option Duration :=
  (nat? v).map Duration.ofMillis

def boolean? : Value → Option Bool
  | .boolean b => some b
  | _ => none

def string? : Value → Option String
  | .string s => some s
  | _ => none

/-- A field's value, or the default if the field is missing. -/
def orDefault {α : Type} (read : Value → Option α) (default : α) : Option Value → Option α
  | none => some default
  | some v => read v

def exchangeOfValue? (v : Value) : Option ExchangeSettings := do
  let [size, recency] ← fields? ["max_message_size", "want_recency_ms"] v | none
  let d : ExchangeSettings := {}
  return { maxMessageSize := ← orDefault nat? d.maxMessageSize size
           wantRecency := ← orDefault millis? d.wantRecency recency }

def traceOfValue? (v : Value) : Option TraceSettings := do
  let [enabled, dir, size, interval] ←
    fields? ["enabled", "dir", "max_file_size", "flush_interval_ms"] v | none
  let d : TraceSettings := {}
  return { enabled := ← orDefault boolean? d.enabled enabled
           dir := ← orDefault string? d.dir dir
           maxFileSize := ← orDefault nat? d.maxFileSize size
           flushInterval := ← orDefault millis? d.flushInterval interval }

def storeOfValue? (v : Value) : Option StoreSettings := do
  let [path] ← fields? ["path"] v | none
  return { path := ← orDefault (fun v => (string? v).map some) none path }

def ofFields? (t : Fields) : Option Settings := do
  return { exchange := ← orDefault exchangeOfValue? {} (Fields.get? t "exchange")
           trace := ← orDefault traceOfValue? {} (Fields.get? t "trace")
           store := ← orDefault storeOfValue? {} (Fields.get? t "blockstore") }

inductive LoadError
  | unreadable
  | malformed
  | invalid (e : SettingsError)
deriving DecidableEq, Repr

/-- Reads settings from the bytes of their file, which may be missing. -/
def load (file : Option Bytes) : Except LoadError Settings := do
  let some text := file.bind Text.ofUtf8? | .error .unreadable
  let some settings := (Toml.parse text).bind ofFields? | .error .malformed
  (settings.exchange.validate).mapError .invalid
  (settings.trace.validate).mapError .invalid
  return settings

/-! ### Writing -/

inductive SaveError
  /-- A number is larger than the file can tell. -/
  | numberTooLarge
  /-- A duration has more milliseconds than 64 bits can tell. -/
  | durationTooLong
  | writeFailed
deriving DecidableEq, Repr

/-- The text of an error, if it has one of its own. -/
def SaveError.message? : SaveError → Option String
  | .numberTooLarge => some "out-of-range value for u64 type"
  | .durationTooLong => some "number too large to fit in target type"
  | .writeFailed => none

def numberText (n : Nat) : Except SaveError String :=
  if n ≤ Toml.Number.maxInteger then .ok (toString n) else .error .numberTooLarge

def millisText (d : Duration) : Except SaveError String :=
  if d.toMillis ≤ 0xffffffffffffffff then numberText d.toMillis else .error .durationTooLong

def quoted (s : String) : String :=
  String.ofList (Toml.Quoted.write s.toList)

def line (key value : String) : String :=
  key ++ " = " ++ value ++ "\n"

def text (s : Settings) : Except SaveError String := do
  let size ← numberText s.exchange.maxMessageSize
  let recency ← millisText s.exchange.wantRecency
  let fileSize ← numberText s.trace.maxFileSize
  let interval ← millisText s.trace.flushInterval
  return "[exchange]\n" ++ line "max_message_size" size ++ line "want_recency_ms" recency
    ++ "\n[trace]\n" ++ line "enabled" (toString s.trace.enabled)
    ++ line "dir" (quoted s.trace.dir) ++ line "max_file_size" fileSize
    ++ line "flush_interval_ms" interval
    ++ "\n[blockstore]\n" ++ (match s.store.path with
      | none => ""
      | some path => line "path" (quoted path))

/-- The bytes of the file, which can be written only if its directory is there. -/
def save (s : Settings) (directoryExists : Bool) : Except SaveError Bytes := do
  let text ← s.text
  if directoryExists then return Text.utf8 text else .error .writeFailed

/-! ### Single values -/

def keys : List String := [
  "exchange.max_message_size", "exchange.want_recency_ms", "trace.enabled", "trace.dir",
  "trace.max_file_size", "trace.flush_interval_ms", "blockstore.path"]

def value? (s : Settings) (key : String) : Option String :=
  match key with
  | "exchange.max_message_size" => some (toString s.exchange.maxMessageSize)
  | "exchange.want_recency_ms" => some (toString s.exchange.wantRecency.toMillis)
  | "trace.enabled" => some (toString s.trace.enabled)
  | "trace.dir" => some s.trace.dir
  | "trace.max_file_size" => some (toString s.trace.maxFileSize)
  | "trace.flush_interval_ms" => some (toString s.trace.flushInterval.toMillis)
  | "blockstore.path" => s.store.path
  | _ => none

end Settings
end BlockExchange

import BlockExchange.Proofs.CidBytes
import BlockExchange.Proofs.TomlSections
import BlockExchange.Settings
import Mathlib

/-!
# Saved settings load back

The file holds durations in whole milliseconds, so what it can tell of settings is `rounded`. Reading
the file checks the rounded settings once more (`load_of_save`). They agree with the saved ones under
every key, and a flush interval of less than a millisecond is the one thing that passes the check
before and not after (`load_of_saved`).
-/

namespace BlockExchange

open Toml (Fields Line Section IsBare Tells document)

namespace Settings

/-- What the file tells of the settings. -/
def rounded (s : Settings) : Settings where
  exchange := { s.exchange with wantRecency := .ofMillis s.exchange.wantRecency.toMillis }
  trace := { s.trace with flushInterval := .ofMillis s.trace.flushInterval.toMillis }
  store := s.store

theorem value?_rounded (s : Settings) (key : String) : s.rounded.value? key = s.value? key := by
  simp only [value?, rounded, Duration.toMillis_ofMillis]

/-! ### The document -/

def natLine (key : String) (bare : IsBare key) (n : Nat) (hn : n ≤ Toml.Number.maxInteger) : Line :=
  ⟨key, (toString n).toList, .integer n, bare, Toml.tells_nat hn⟩

def boolLine (key : String) (bare : IsBare key) (b : Bool) : Line :=
  ⟨key, (toString b).toList, .boolean b, bare, Toml.tells_bool b⟩

def stringLine (key : String) (bare : IsBare key) (s : String) : Line :=
  ⟨key, Toml.Quoted.write s.toList, .string s, bare, Toml.tells_write s⟩

/-- The numbers of the settings are ones that the file can tell. -/
structure Fits (s : Settings) : Prop where
  maxMessageSize : s.exchange.maxMessageSize ≤ Toml.Number.maxInteger
  wantRecency : s.exchange.wantRecency.toMillis ≤ Toml.Number.maxInteger
  maxFileSize : s.trace.maxFileSize ≤ Toml.Number.maxInteger
  flushInterval : s.trace.flushInterval.toMillis ≤ Toml.Number.maxInteger

def exchangeSection (s : Settings) (h : s.Fits) : Section where
  name := "exchange"
  lines := [natLine "max_message_size" ⟨by simp, rfl⟩ s.exchange.maxMessageSize h.maxMessageSize,
    natLine "want_recency_ms" ⟨by simp, rfl⟩ s.exchange.wantRecency.toMillis h.wantRecency]
  bare := ⟨by simp, rfl⟩
  nodup_keys := by simp [natLine]

def traceSection (s : Settings) (h : s.Fits) : Section where
  name := "trace"
  lines := [boolLine "enabled" ⟨by simp, rfl⟩ s.trace.enabled,
    stringLine "dir" ⟨by simp, rfl⟩ s.trace.dir,
    natLine "max_file_size" ⟨by simp, rfl⟩ s.trace.maxFileSize h.maxFileSize,
    natLine "flush_interval_ms" ⟨by simp, rfl⟩ s.trace.flushInterval.toMillis h.flushInterval]
  bare := ⟨by simp, rfl⟩
  nodup_keys := by simp [natLine, boolLine, stringLine]

def storeSection (s : Settings) : Section where
  name := "blockstore"
  lines := s.store.path.toList.map (stringLine "path" ⟨by simp, rfl⟩)
  bare := ⟨by simp, rfl⟩
  nodup_keys := by cases s.store.path <;> simp

def sections (s : Settings) (h : s.Fits) : List Section :=
  [s.exchangeSection h, s.traceSection h, s.storeSection]

theorem numberText_eq_ok_iff {n : Nat} {t : String} :
    numberText n = .ok t ↔ (n : Int) ≤ Toml.Number.maxInteger ∧ toString n = t := by
  unfold numberText
  split <;> simp [*]

theorem millisText_eq_ok {d : Duration} {t : String} (h : millisText d = .ok t) :
    numberText d.toMillis = .ok t := by
  unfold millisText at h
  split at h
  · exact h
  · cases h

/-- The text of the file is a document of three plain sections. -/
theorem text_eq_document {s : Settings} {t : String} (h : s.text = .ok t) :
    ∃ hs : s.Fits, t = String.ofList (document (s.sections hs)) := by
  simp only [text, bind_eq_ok_iff] at h
  obtain ⟨size, hsize, recency, hrecency, fileSize, hfileSize, interval, hinterval, ht⟩ := h
  obtain ⟨hsizeFits, rfl⟩ := numberText_eq_ok_iff.mp hsize
  obtain ⟨hrecencyFits, rfl⟩ := numberText_eq_ok_iff.mp (millisText_eq_ok hrecency)
  obtain ⟨hfileSizeFits, rfl⟩ := numberText_eq_ok_iff.mp hfileSize
  obtain ⟨hintervalFits, rfl⟩ := numberText_eq_ok_iff.mp (millisText_eq_ok hinterval)
  refine ⟨⟨hsizeFits, hrecencyFits, hfileSizeFits, hintervalFits⟩, ?_⟩
  -- both sides spell the same characters, with a path and without
  cases ht
  rw [← String.toList_inj, String.toList_ofList]
  cases hpath : s.store.path <;>
    simp [line, quoted, document, Toml.following, sections, exchangeSection, traceSection,
      storeSection, Section.chars, Line.chars, natLine, boolLine, stringLine, hpath]

theorem millisText_of_le {d : Duration} (h : d.toMillis ≤ Toml.Number.maxInteger) :
    millisText d = .ok (toString d.toMillis) := by
  have hmax : Toml.Number.maxInteger ≤ 0xffffffffffffffff := by decide
  rw [millisText, if_pos (by omega)]
  exact numberText_eq_ok_iff.mpr ⟨h, rfl⟩

/-- Nothing but a number that does not fit keeps settings from being saved where there is a directory. -/
theorem exists_save {s : Settings} (h : s.Fits) : ∃ file, s.save true = .ok file := by
  obtain ⟨t, ht⟩ : ∃ t, s.text = .ok t := by
    simp only [text, bind_eq_ok_iff]
    exact ⟨_, _, numberText_eq_ok_iff.mpr ⟨h.maxMessageSize, rfl⟩, _, millisText_of_le h.wantRecency,
      _, numberText_eq_ok_iff.mpr ⟨h.maxFileSize, rfl⟩, _, millisText_of_le h.flushInterval, rfl⟩
  exact ⟨_, bind_eq_ok_iff.mpr ⟨t, ht, rfl⟩⟩

/-! ### Reading the tables -/

theorem nat?_cast (n : Nat) : nat? (.integer n) = some n := by
  simp [nat?]

theorem exchangeOfValue?_section {s : Settings} (h : s.Fits) :
    exchangeOfValue? (.table .header (s.exchangeSection h).fields) = some s.rounded.exchange := by
  simp [exchangeOfValue?, fields?, Section.fields, exchangeSection, Fields.get?, natLine,
    Table.lookup_pair, orDefault, millis?, nat?_cast, rounded]

theorem traceOfValue?_section {s : Settings} (h : s.Fits) :
    traceOfValue? (.table .header (s.traceSection h).fields) = some s.rounded.trace := by
  simp [traceOfValue?, fields?, Section.fields, traceSection, Fields.get?, natLine, boolLine,
    stringLine, Table.lookup_pair, orDefault, millis?, nat?_cast, boolean?, string?, rounded]

theorem storeOfValue?_section (s : Settings) :
    storeOfValue? (.table .header s.storeSection.fields) = some s.rounded.store := by
  obtain ⟨exchange, trace, ⟨path⟩⟩ := s
  cases path with
  | none => rfl
  | some path =>
    simp [storeOfValue?, fields?, Section.fields, storeSection, Fields.get?, stringLine, orDefault,
      string?, rounded]

theorem ofFields?_sections {s : Settings} (h : s.Fits) :
    ofFields? ((s.sections h).map fun p => (p.name, .table .header p.fields)) = some s.rounded := by
  have hnames : (s.exchangeSection h).name = "exchange" ∧ (s.traceSection h).name = "trace" ∧
      s.storeSection.name = "blockstore" := ⟨rfl, rfl, rfl⟩
  simp [ofFields?, sections, hnames, Fields.get?, Table.lookup_pair, orDefault,
    exchangeOfValue?_section, traceOfValue?_section, storeOfValue?_section]

/-! ### Loading -/

theorem parse_text {s : Settings} {t : String} (h : s.text = .ok t) :
    (Toml.parse t).bind ofFields? = some s.rounded := by
  obtain ⟨hs, rfl⟩ := text_eq_document h
  rw [Toml.parse_document (by simp [sections, exchangeSection, traceSection, storeSection]),
    Option.bind_some, ofFields?_sections]

/-- Rounding leaves a flush interval only if it had a whole millisecond. -/
theorem validate_rounded (t : TraceSettings) :
    { t with flushInterval := .ofMillis t.flushInterval.toMillis : TraceSettings }.validate =
      if t.flushInterval.toMillis = 0 then .error .flushIntervalZero else .ok () := by
  simp [TraceSettings.validate, Duration.isZero, Duration.ofMillis, Duration.nanosPerMilli]

section
variable {s : Settings} {directoryExists : Bool} {file : Bytes}

theorem load_of_save (h : s.save directoryExists = .ok file) : load (some file) = (do
    (s.exchange.validate).mapError .invalid
    (s.rounded.trace.validate).mapError .invalid
    return s.rounded) := by
  obtain ⟨t, ht, hfile⟩ := bind_eq_ok_iff.mp h
  split at hfile
  · cases hfile
    simp only [load, Option.bind_some, Text.ofUtf8?_utf8, parse_text ht]
    rfl
  · cases hfile

theorem load_eq_rounded (hexchange : s.exchange.validate = .ok ())
    (hsave : s.save directoryExists = .ok file) (hpos : 0 < s.trace.flushInterval.toMillis) :
    load (some file) = .ok s.rounded := by
  have htrace : s.rounded.trace.validate = .ok () :=
    (validate_rounded s.trace).trans (if_neg (by omega))
  rw [load_of_save hsave, hexchange, htrace]
  rfl

theorem load_eq_error (hexchange : s.exchange.validate = .ok ())
    (hsave : s.save directoryExists = .ok file) (hzero : s.trace.flushInterval.toMillis = 0) :
    load (some file) = .error (.invalid .flushIntervalZero) := by
  have htrace : s.rounded.trace.validate = .error .flushIntervalZero :=
    (validate_rounded s.trace).trans (if_pos hzero)
  rw [load_of_save hsave, hexchange, htrace]
  rfl

/-- Saved settings load back if a flush takes at least a millisecond to fall due. A shorter interval is
written as zero, and the file is refused. -/
theorem load_of_saved (hexchange : s.exchange.validate = .ok ())
    (hsave : s.save directoryExists = .ok file) :
    (0 < s.trace.flushInterval.toMillis →
      ∃ s', load (some file) = .ok s' ∧ ∀ key, s'.value? key = s.value? key) ∧
    (s.trace.flushInterval.toMillis = 0 →
      load (some file) = .error (.invalid .flushIntervalZero)) :=
  ⟨fun hpos => ⟨s.rounded, load_eq_rounded hexchange hsave hpos, value?_rounded s⟩,
    load_eq_error hexchange hsave⟩

end

theorem load_of_saved_quoted_path :
    let s : Settings :=
      { trace := { flushInterval := ⟨1500000⟩ }, store := { path := some "it's \"mine\"\n" } }
    s.exchange.validate = .ok () ∧ 0 < s.trace.flushInterval.toMillis ∧
      ∃ file, s.save true = .ok file ∧
        ∃ s', load (some file) = .ok s' ∧ ∀ key, s'.value? key = s.value? key := by
  intro s
  obtain ⟨file, hsave⟩ := exists_save (s := s) ⟨by decide, by decide, by decide, by decide⟩
  exact ⟨rfl, by decide, file, hsave, (load_of_saved rfl hsave).1 (by decide)⟩

/-- Half a millisecond passes the check before it is saved. -/
theorem half_millisecond_not_loaded :
    let s : Settings := { trace := { flushInterval := ⟨500000⟩ } }
    s.exchange.validate = .ok () ∧ s.trace.validate = .ok () ∧
      ∃ file, s.save true = .ok file ∧
        load (some file) = .error (.invalid .flushIntervalZero) := by
  intro s
  obtain ⟨file, hsave⟩ := exists_save (s := s) ⟨by decide, by decide, by decide, by decide⟩
  exact ⟨rfl, rfl, file, hsave, load_eq_error rfl hsave (by decide)⟩

end Settings
end BlockExchange

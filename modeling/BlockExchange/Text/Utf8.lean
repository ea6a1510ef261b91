import BlockExchange.Bytes

/-!
# Text as bytes

`utf8` writes a string as UTF-8 and `ofUtf8?` reads it back, refusing every byte string that is not
UTF-8. The two are inverse to each other (`ofUtf8?_eq_some_iff`).
-/

namespace BlockExchange.Text

def utf8 (s : String) : Bytes :=
  s.toByteArray.data.toList

def ofUtf8? (b : Bytes) : Option String :=
  String.fromUTF8? ⟨b.toArray⟩

@[simp] theorem length_utf8 (s : String) : (utf8 s).length = s.utf8ByteSize := by
  rw [utf8, Array.length_toList]
  rfl

theorem ofUtf8?_eq_some_iff {b : Bytes} {s : String} : ofUtf8? b = some s ↔ utf8 s = b := by
  unfold ofUtf8? utf8 String.fromUTF8?
  constructor
  · intro h
    split at h
    · simp only [Option.some.injEq] at h
      subst h
      simp [String.fromUTF8]
    · simp at h
  · rintro rfl
    have h : (⟨s.toByteArray.data.toList.toArray⟩ : ByteArray) = s.toByteArray := rfl
    rw [h]
    simp [String.fromUTF8, s.isValidUTF8]

@[simp] theorem ofUtf8?_utf8 (s : String) : ofUtf8? (utf8 s) = some s :=
  ofUtf8?_eq_some_iff.mpr rfl

end BlockExchange.Text

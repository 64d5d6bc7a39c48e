import Chunkwise.Text.Basic

/-!
# Bytes

The names of files and the paths to them are bytes, which need not be the encoding of a text. `Bytes.text?` is the text
that they encode, if they encode one. What is shown of them, in any case, is `shown`: a piece that begins like the
encoding of a character and does not go on like it is shown as one mark, as long a piece as there is.

* `text?_bytesOf`: the bytes of a string encode it.
* `shown_bytesOf`: a string is shown as it is.
-/

namespace Chunkwise

/-- Some bytes. -/
abbrev Bytes := List UInt8

/-- The bytes of a string. -/
def bytesOf (s : String) : Bytes := s.toByteArray.data.toList

namespace Bytes

/-- The text that bytes encode, if they encode one. -/
def text? (bytes : Bytes) : Option Text := (String.fromUTF8? ⟨bytes.toArray⟩).map String.toList

/-! ## What is shown of them -/

/-- Where a reader of bytes stands. -/
inductive Reader where
  /-- Between characters. -/
  | between
  /-- Inside a character of which the code is known so far. One more byte is owed, in a range, and then some others. -/
  | inside (least greatest others code : Nat)
deriving DecidableEq, Repr

/-- The mark in place of bytes that encode no character. -/
def mark : Char := Char.ofNat 0xFFFD

namespace Reader

/-- What comes of the first byte of a character. -/
def opened (byte : Nat) : Text × Reader :=
  if byte < 0x80 then ([Char.ofNat byte], between)
  else if byte < 0xC2 then ([mark], between)
  else if byte < 0xE0 then ([], inside 0x80 0xBF 0 (byte - 0xC0))
  else if byte < 0xF0 then
    ([], inside (if byte = 0xE0 then 0xA0 else 0x80) (if byte = 0xED then 0x9F else 0xBF) 1 (byte - 0xE0))
  else if byte < 0xF5 then
    ([], inside (if byte = 0xF0 then 0x90 else 0x80) (if byte = 0xF4 then 0x8F else 0xBF) 2 (byte - 0xF0))
  else ([mark], between)

/-- What comes of the next byte. One out of range breaks a character off, and is the first of another one. -/
def next : Reader → Nat → Text × Reader
  | between, byte => opened byte
  | inside least greatest others code, byte =>
    if least ≤ byte ∧ byte ≤ greatest then
      match others with
      | 0 => ([Char.ofNat (code * 64 + (byte - 0x80))], between)
      | others + 1 => ([], inside 0x80 0xBF others (code * 64 + (byte - 0x80)))
    else (mark :: (opened byte).1, (opened byte).2)

/-- What is shown of the bytes to come. -/
def read : Reader → Bytes → Text
  | between, [] => []
  | inside .., [] => [mark]
  | reader, byte :: rest => (reader.next byte.toNat).1 ++ (reader.next byte.toNat).2.read rest

end Reader

end Bytes

/-- What is shown of bytes. -/
def shown (bytes : Bytes) : String := String.ofList (Bytes.Reader.between.read bytes)

/-! ## Laws -/

theorem bytesOf_eq (s : String) : bytesOf s = s.toList.flatMap String.utf8EncodeChar := by
  rw [bytesOf, ← String.utf8Encode_toList, List.utf8Encode, List.toList_data_toByteArray]

namespace Bytes

/-- The bytes of a string encode it. -/
theorem text?_bytesOf (s : String) : text? (bytesOf s) = some s.toList := by
  have hbytes : (⟨(bytesOf s).toArray⟩ : ByteArray) = s.toByteArray := rfl
  rw [text?, hbytes, String.fromUTF8?, dif_pos s.isValidUTF8]
  rfl

/-- Bytes that encode a text are those of the text. -/
theorem eq_bytesOf_of_text? {bytes : Bytes} {text : Text} (h : text? bytes = some text) :
    bytes = bytesOf (String.ofList text) := by
  obtain ⟨s, hs, rfl⟩ := Option.map_eq_some_iff.1 h
  rw [String.fromUTF8?] at hs
  split at hs
  · cases hs
    rw [String.ofList_toList]
    rfl
  · cases hs

namespace Reader

/-- The last byte of a character. -/
theorem read_last {least greatest code : Nat} {byte : UInt8} (rest : Bytes)
    (h : least ≤ byte.toNat ∧ byte.toNat ≤ greatest) : (inside least greatest 0 code).read (byte :: rest) =
      Char.ofNat (code * 64 + (byte.toNat - 0x80)) :: between.read rest := by
  rw [read, next, if_pos h]
  rfl

/-- A byte of a character with others to come. -/
theorem read_inner {least greatest others code : Nat} {byte : UInt8} (rest : Bytes)
    (h : least ≤ byte.toNat ∧ byte.toNat ≤ greatest) : (inside least greatest (others + 1) code).read (byte :: rest) =
      (inside 0x80 0xBF others (code * 64 + (byte.toNat - 0x80))).read rest := by
  rw [read, next, if_pos h]
  rfl

/-- A character is read from its encoding. -/
theorem read_encode (c : Char) (rest : Bytes) :
    between.read (String.utf8EncodeChar c ++ rest) = c :: between.read rest := by
  have hvalid := c.valid
  simp only [UInt32.isValidChar, Nat.isValidChar] at hvalid
  have hchar : ∀ n, n = c.val.toNat → Char.ofNat n :: between.read rest = c :: between.read rest := by
    rintro n rfl
    rw [show Char.ofNat c.val.toNat = c from Char.ofNat_toNat c]
  unfold String.utf8EncodeChar
  simp only
  generalize c.val.toNat = v at hvalid hchar ⊢
  -- One case for each number of bytes. The range of the second byte is what the code of a character allows.
  split
  · simp only [List.cons_append, List.nil_append, read, next, opened, UInt8.toNat_ofNat']
    rw [if_pos (by omega)]
    exact hchar _ (by omega)
  split
  · simp only [List.cons_append, List.nil_append]
    rw [read, next, opened, UInt8.toNat_ofNat', if_neg (by omega), if_neg (by omega), if_pos (by omega)]
    rw [List.nil_append, read_last _ (by rw [UInt8.toNat_ofNat']; omega), UInt8.toNat_ofNat']
    exact hchar _ (by omega)
  split
  · simp only [List.cons_append, List.nil_append]
    rw [read, next, opened, UInt8.toNat_ofNat', if_neg (by omega), if_neg (by omega), if_neg (by omega),
      if_pos (by omega)]
    rw [List.nil_append, read_inner _ (by rw [UInt8.toNat_ofNat']; split <;> split <;> omega),
      read_last _ (by rw [UInt8.toNat_ofNat']; omega), UInt8.toNat_ofNat', UInt8.toNat_ofNat']
    exact hchar _ (by omega)
  · simp only [List.cons_append, List.nil_append]
    rw [read, next, opened, UInt8.toNat_ofNat', if_neg (by omega), if_neg (by omega), if_neg (by omega),
      if_neg (by omega), if_pos (by omega)]
    rw [List.nil_append, read_inner _ (by rw [UInt8.toNat_ofNat']; split <;> split <;> omega),
      read_inner _ (by rw [UInt8.toNat_ofNat']; omega), read_last _ (by rw [UInt8.toNat_ofNat']; omega),
      UInt8.toNat_ofNat', UInt8.toNat_ofNat', UInt8.toNat_ofNat']
    exact hchar _ (by omega)

end Reader

end Bytes

/-- A string is shown as it is. -/
theorem shown_bytesOf (s : String) : shown (bytesOf s) = s := by
  have hread : ∀ text : Text, Bytes.Reader.between.read (text.flatMap String.utf8EncodeChar) = text := by
    intro text
    induction text with
    | nil => rfl
    | cons c text ih => rw [List.flatMap_cons, Bytes.Reader.read_encode, ih]
  rw [shown, bytesOf_eq, hread, String.ofList_toList]

end Chunkwise

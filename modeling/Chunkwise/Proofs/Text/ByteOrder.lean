import Chunkwise.Bytes

/-!
# The order of bytes

Of two characters the lesser one has the lesser encoding, however many bytes it takes and whatever follows
(`encode_lt`). So strings are in the order of their characters exactly if they are in the order of their bytes
(`lt_iff_bytesOf_lt`).
-/

namespace Chunkwise

theorem toNat_lt_size (c : Char) : c.val.toNat < 1114112 := by
  have hvalid := c.valid
  simp only [UInt32.isValidChar, Nat.isValidChar] at hvalid
  omega

/-- Of two characters the lesser one has the lesser encoding, whatever follows. -/
theorem encode_lt {c d : Char} (h : c < d) (s t : List UInt8) :
    String.utf8EncodeChar c ++ s < String.utf8EncodeChar d ++ t := by
  have hval : c.val.toNat < d.val.toNat := h
  have hsize := toNat_lt_size d
  unfold String.utf8EncodeChar
  simp only
  -- Where the numbers of bytes differ, the first bytes do; where they are the same, some byte does.
  repeat' split
  all_goals
    simp only [List.cons_append, List.nil_append, List.cons_lt_cons_iff, UInt8.lt_iff_toNat_lt, ← UInt8.toNat_inj,
      UInt8.toNat_ofNat']
    simp (disch := omega) only [Nat.mod_eq_of_lt]
    omega

theorem encode_ne_nil (c : Char) : String.utf8EncodeChar c ≠ [] := by
  unfold String.utf8EncodeChar
  simp only
  repeat' split
  all_goals exact List.cons_ne_nil _ _

theorem flatMap_encode_lt {s t : List Char} (h : s < t) :
    s.flatMap String.utf8EncodeChar < t.flatMap String.utf8EncodeChar := by
  induction h with
  | nil =>
    rename_i d t
    rw [List.flatMap_cons]
    obtain ⟨byte, bytes, hbytes⟩ := List.exists_cons_of_ne_nil (encode_ne_nil d)
    rw [hbytes]
    exact List.nil_lt_cons _ _
  | cons _ ih =>
    rw [List.flatMap_cons, List.flatMap_cons]
    exact List.append_left_lt ih
  | rel h => exact encode_lt h _ _

theorem bytesOf_lt {s t : String} (h : s < t) : bytesOf s < bytesOf t := by
  rw [bytesOf_eq, bytesOf_eq]
  exact flatMap_encode_lt (String.lt_iff.1 h)

/-- **Strings are in the order of their bytes.** -/
theorem lt_iff_bytesOf_lt {s t : String} : s < t ↔ bytesOf s < bytesOf t := by
  refine ⟨bytesOf_lt, fun h => ?_⟩
  rcases Std.lt_trichotomy s t with hlt | rfl | hlt
  · exact hlt
  · exact absurd h (List.lt_irrefl _)
  · exact absurd h (List.lt_asymm (bytesOf_lt hlt))

end Chunkwise

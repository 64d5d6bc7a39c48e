import Chunkwise.Proofs.Text.ByteOrder
import Chunkwise.Text.Line

/-!
# Rows and columns by bytes

A newline is one byte, and no other character has this byte in its encoding (`newlineByte_not_mem_encode`). So the row of
an offset is the number of newline bytes before it (`rowAt_eq_count`) and its column the number of bytes behind the last
of them (`columnAt_eq_sinceNewline`), between two characters as well as inside one. A byte further on they are what the
byte makes of them (`rowAt_succ`, `columnAt_succ`).
-/

namespace Chunkwise
namespace Text

variable {text s : Text} {c : Char} {b : UInt8} {pos n : Nat}

/-! ## Bytes -/

/-- The bytes of a text. -/
def bytes (text : Text) : List UInt8 := bytesOf (String.ofList text)

/-- The byte of a newline. -/
def newlineByte : UInt8 := 10

/-- Number of bytes behind the last newline among some bytes, all of them if there is none. -/
def sinceNewline (bs : List UInt8) : Nat := (bs.reverse.takeWhile (· != newlineByte)).length

theorem bytes_cons (c : Char) (s : Text) : bytes (c :: s) = String.utf8EncodeChar c ++ bytes s := by
  rw [bytes, bytes, bytesOf_eq, bytesOf_eq, String.toList_ofList, String.toList_ofList, List.flatMap_cons]

@[simp] theorem bytes_nil : bytes [] = [] := by rw [bytes, bytesOf_eq]; rfl

@[simp] theorem length_bytes (text : Text) : (bytes text).length = byteLen text := by
  induction text with
  | nil => rfl
  | cons c text ih => rw [bytes_cons, List.length_append, String.length_utf8EncodeChar, ih, byteLen_cons]

theorem newlineByte_not_mem_encode (hc : c ≠ '\n') : newlineByte ∉ String.utf8EncodeChar c := by
  have hsize := toNat_lt_size c
  have hbyte : newlineByte.toNat = 10 := rfl
  have hne : c.val.toNat ≠ 10 := fun heq => hc (Char.ext (UInt32.toNat_inj.1 heq))
  unfold String.utf8EncodeChar
  simp only
  -- A character of one byte is that byte; the bytes of longer encodings are all 128 or more.
  repeat' split
  all_goals
    simp only [List.mem_cons, List.not_mem_nil, or_false, not_or, ← UInt8.toNat_inj, UInt8.toNat_ofNat']
    simp (disch := omega) only [Nat.mod_eq_of_lt]
    omega

theorem encode_newline : String.utf8EncodeChar '\n' = [newlineByte] := rfl

/-- The first bytes of a text are bytes of its first character, and first bytes of the rest. -/
theorem take_bytes_cons (c : Char) (s : Text) (n : Nat) :
    (bytes (c :: s)).take n = (String.utf8EncodeChar c).take n ++ (bytes s).take (n - c.utf8Size) := by
  rw [bytes_cons, List.take_append, String.length_utf8EncodeChar]

/-- **The row of an offset is the number of newline bytes before it**, inside a character as well. -/
theorem rowAt_eq_count (text : Text) (n : Nat) : text.rowAt n = ((bytes text).take n).count newlineByte := by
  induction text generalizing n with
  | nil => rw [bytes_nil, List.take_nil, List.count_nil, rowAt]
  | cons c text ih =>
    rw [rowAt]
    split
    · rename_i hn
      rw [hn, List.take_zero, List.count_nil]
    · rename_i hn
      rw [take_bytes_cons, List.count_append, ih]
      congr 1
      split
      · rename_i hc
        rw [hc, encode_newline, List.take_of_length_le (Nat.pos_of_ne_zero hn), List.count_singleton_self]
      · rename_i hc
        exact (List.count_eq_zero.2 fun hmem => newlineByte_not_mem_encode hc (List.mem_of_mem_take hmem)).symm

theorem sinceNewline_append (as bs : List UInt8) :
    sinceNewline (as ++ bs) = if newlineByte ∈ bs then sinceNewline bs else sinceNewline as + bs.length := by
  rw [sinceNewline, List.reverse_append]
  split
  · rename_i hmem
    have hstops : ¬ (bs.reverse.takeWhile (· != newlineByte)).length = bs.reverse.length := by
      intro hlength
      have hall : (bs.reverse.takeWhile (· != newlineByte)).all (· != newlineByte) := List.all_takeWhile
      rw [(List.takeWhile_prefix _).eq_of_length hlength, List.all_reverse] at hall
      simpa using List.all_eq_true.1 hall _ hmem
    rw [List.takeWhile_append, if_neg hstops, sinceNewline]
  · rename_i hmem
    rw [List.takeWhile_append_of_pos, List.length_append, List.length_reverse, sinceNewline, Nat.add_comm]
    intro b hb
    rw [bne_iff_ne]
    rintro rfl
    exact hmem (List.mem_reverse.1 hb)

/-- In a text whose start has a column, the column of an offset is the number of bytes behind the last newline before it,
or else of those behind where the line of the start begins. -/
theorem columnFrom_eq (col : Nat) (s : Text) (n : Nat) : columnFrom col s n =
    if newlineByte ∈ (bytes s).take n then sinceNewline ((bytes s).take n) else col + ((bytes s).take n).length := by
  induction s generalizing col n with
  | nil => simp [columnFrom]
  | cons c s ih =>
    rw [columnFrom]
    split
    · rename_i hn
      rw [hn, List.take_zero, if_neg List.not_mem_nil]
      rfl
    · rename_i hn
      rw [take_bytes_cons]
      split
      · rename_i hc
        have hfirst : (String.utf8EncodeChar c).take n = [newlineByte] := by
          rw [hc, encode_newline, List.take_of_length_le (Nat.pos_of_ne_zero hn)]
        have hzero : sinceNewline [newlineByte] = 0 := rfl
        rw [ih, hfirst, sinceNewline_append, hzero, if_pos (List.mem_append_left _ List.mem_cons_self)]
      · rename_i hc
        have hfirst : newlineByte ∉ (String.utf8EncodeChar c).take n :=
          fun hmem => newlineByte_not_mem_encode hc (List.mem_of_mem_take hmem)
        rw [ih]
        by_cases hmem : newlineByte ∈ (bytes s).take (n - c.utf8Size)
        · rw [if_pos hmem, if_pos (List.mem_append_right _ hmem), sinceNewline_append, if_pos hmem]
        · rw [if_neg hmem, if_neg fun h => (List.mem_append.1 h).elim hfirst hmem, List.length_append,
            List.length_take (l := String.utf8EncodeChar c), String.length_utf8EncodeChar, Nat.add_assoc]

/-- **The column of an offset is the number of bytes behind the last newline before it.** -/
theorem columnAt_eq_sinceNewline (text : Text) (n : Nat) : text.columnAt n = sinceNewline ((bytes text).take n) := by
  rw [columnAt, columnFrom_eq]
  split
  · rfl
  · rename_i hmem
    have hall := sinceNewline_append [] ((bytes text).take n)
    rw [if_neg hmem] at hall
    exact hall.symm

theorem take_bytes_succ (h : (bytes text)[pos]? = some b) :
    (bytes text).take (pos + 1) = (bytes text).take pos ++ [b] := by
  rw [List.take_add_one, h, Option.toList_some]

/-- Behind a byte the row is one more if the byte is a newline. -/
theorem rowAt_succ (h : (bytes text)[pos]? = some b) :
    text.rowAt (pos + 1) = text.rowAt pos + if b = newlineByte then 1 else 0 := by
  rw [rowAt_eq_count, rowAt_eq_count, take_bytes_succ h, List.count_append, List.count_singleton]
  simp only [beq_iff_eq]

/-- Behind a byte the column is one more, unless the byte is a newline. -/
theorem columnAt_succ (h : (bytes text)[pos]? = some b) :
    text.columnAt (pos + 1) = if b = newlineByte then 0 else text.columnAt pos + 1 := by
  rw [columnAt_eq_sinceNewline, columnAt_eq_sinceNewline, take_bytes_succ h, sinceNewline_append]
  simp only [List.mem_singleton, eq_comm (a := newlineByte)]
  split
  · rename_i hb
    rw [hb]
    rfl
  · rfl

end Text
end Chunkwise

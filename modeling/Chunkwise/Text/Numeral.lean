/-!
# Numerals

Numbers written with digits of a base, and characters given by their numbers. The formats that Chunkwise reads write
characters as hexadecimal numerals and whole numbers in several bases.

* `hexValue?_lt`: no digit is worth sixteen or more.
* `numeral?_lt`: a numeral is below the power of its base that its length tells.
-/

namespace Chunkwise

/-- The value of a hexadecimal digit. -/
def hexValue? (c : Char) : Option Nat :=
  let n := c.toNat
  if 48 ≤ n && n ≤ 57 then some (n - 48)
  else if 65 ≤ n && n ≤ 70 then some (n - 55)
  else if 97 ≤ n && n ≤ 102 then some (n - 87)
  else none

/-- The value of a digit of a base up to sixteen. -/
def digitValue? (base : Nat) (c : Char) : Option Nat := (hexValue? c).filter (· < base)

/-- The number of a numeral, continued from the number of the digits before it. -/
def numeralFrom? (base : Nat) : Nat → List Char → Option Nat
  | n, [] => some n
  | n, c :: rest => (digitValue? base c).bind fun d => numeralFrom? base (n * base + d) rest

/-- The number of a numeral; one without digits is zero. -/
def numeral? (base : Nat) (digits : List Char) : Option Nat := numeralFrom? base 0 digits

/-- The character with a number. -/
def charOf? (n : Nat) : Option Char := if h : n.isValidChar then some (Char.ofNatAux n h) else none

/-- The character whose number is written with so many hexadecimal digits here. -/
def hexChar? (count : Nat) (cs : List Char) : Option Char :=
  if (cs.take count).length = count then (numeral? 16 (cs.take count)).bind charOf? else none

/-- No digit is worth sixteen or more. -/
theorem hexValue?_lt {c : Char} {d : Nat} (h : hexValue? c = some d) : d < 16 := by
  simp only [hexValue?, Bool.and_eq_true, decide_eq_true_eq] at h
  split at h
  · simp only [Option.some.injEq] at h; omega
  · split at h
    · simp only [Option.some.injEq] at h; omega
    · split at h
      · simp only [Option.some.injEq] at h; omega
      · cases h

/-- A digit of a base is worth less than the base. -/
theorem digitValue?_lt {base : Nat} {c : Char} {d : Nat} (h : digitValue? base c = some d) : d < base := by
  obtain ⟨_, hd⟩ := Option.filter_eq_some_iff.mp h
  exact of_decide_eq_true hd

/-- Further digits make a number greater by less than one in their first place. -/
theorem numeralFrom?_lt {base : Nat} : ∀ {n m : Nat} {digits : List Char},
    numeralFrom? base n digits = some m → m < (n + 1) * Nat.pow base digits.length
  | n, m, [], h => by
    simp only [numeralFrom?, Option.some.injEq] at h
    simp [h]
  | n, m, c :: rest, h => by
    obtain ⟨d, hd, hm⟩ := Option.bind_eq_some_iff.mp h
    have hlt := digitValue?_lt hd
    have hpow : Nat.pow base (c :: rest).length = Nat.pow base rest.length * base := rfl
    calc m < (n * base + d + 1) * Nat.pow base rest.length := numeralFrom?_lt hm
      _ ≤ ((n + 1) * base) * Nat.pow base rest.length :=
        Nat.mul_le_mul_right _ (by rw [Nat.succ_mul]; omega)
      _ = (n + 1) * Nat.pow base (c :: rest).length := by
        rw [hpow, Nat.mul_assoc, Nat.mul_comm base]

/-- A numeral is below the power of its base that its length tells. -/
theorem numeral?_lt {base n : Nat} {digits : List Char} (h : numeral? base digits = some n) :
    n < Nat.pow base digits.length := by
  simpa using numeralFrom?_lt h

end Chunkwise

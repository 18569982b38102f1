import Mathlib.Tactic

/-!
Byte strings, their hexadecimal texts and their little-endian numbers.

* `fromHex_toHex`: a byte string is read back from its text.
* `toLE_ofLE`: a byte string is the encoding of its number in as many bytes.
* `toHex_reverse_toLE`: the bytes of a number, the highest first, read as its hexadecimal digits.
-/

namespace BtcParser

/-! ### Hexadecimal texts -/

/-- The digit of a number below 16. -/
def hexDigit (n : ℕ) : Char := if n < 10 then Char.ofNat (48 + n) else Char.ofNat (87 + n)

/-- The value of a digit, in lower or upper case. -/
def hexValue (c : Char) : Option ℕ :=
  if '0' ≤ c ∧ c ≤ '9' then some (c.toNat - 48)
  else if 'a' ≤ c ∧ c ≤ 'f' then some (c.toNat - 87)
  else if 'A' ≤ c ∧ c ≤ 'F' then some (c.toNat - 55)
  else none

/-- The white space of ASCII. -/
def asciiSpace (c : Char) : Bool :=
  c = ' ' || (9 ≤ c.toNat && c.toNat ≤ 13)

/-- The text of a byte string: two digits a byte, in lower case. -/
def toHex (bs : List UInt8) : List Char :=
  bs.flatMap fun b => [hexDigit (b.toNat / 16), hexDigit (b.toNat % 16)]

/-- The byte string of a text, white space between the bytes being skipped. -/
def fromHex : List Char → Option (List UInt8)
  | [] => some []
  | [c] => if asciiSpace c then some [] else none
  | c :: d :: l =>
      if asciiSpace c then fromHex (d :: l)
      else
        match hexValue c, hexValue d, fromHex l with
        | some a, some b, some bs => some (UInt8.ofNat (16 * a + b) :: bs)
        | _, _, _ => none

lemma hexValue_hexDigit {n : ℕ} (hn : n < 16) : hexValue (hexDigit n) = some n := by
  interval_cases n <;> decide

lemma asciiSpace_hexDigit {n : ℕ} (hn : n < 16) : asciiSpace (hexDigit n) = false := by
  interval_cases n <;> decide

/-- A byte string is read back from its text. -/
theorem fromHex_toHex (bs : List UInt8) : fromHex (toHex bs) = some bs := by
  induction bs with
  | nil => rfl
  | cons b bs ih =>
      have hb : b.toNat < 256 := b.toNat_lt
      have hsplit : 16 * (b.toNat / 16) + b.toNat % 16 = b.toNat := by omega
      rw [toHex] at ih ⊢
      rw [List.flatMap_cons, List.cons_append, List.cons_append, List.nil_append, fromHex,
        asciiSpace_hexDigit (by omega), hexValue_hexDigit (by omega), hexValue_hexDigit (by omega),
        ih]
      simp [hsplit]

/-! ### Little-endian numbers -/

/-- The number of a byte string, the lowest byte first. -/
def ofLE : List UInt8 → ℕ
  | [] => 0
  | b :: bs => b.toNat + 256 * ofLE bs

/-- The lowest `w` bytes of a number, the lowest first. -/
def toLE : ℕ → ℕ → List UInt8
  | 0, _ => []
  | w + 1, n => UInt8.ofNat n :: toLE w (n / 256)

lemma ofLE_lt (bs : List UInt8) : ofLE bs < 256 ^ bs.length := by
  induction bs with
  | nil => simp [ofLE]
  | cons b bs ih =>
      have hb : b.toNat < 256 := b.toNat_lt
      rw [ofLE, List.length_cons, pow_succ]
      omega

/-- A byte string is the encoding of its number in as many bytes. -/
theorem toLE_ofLE (bs : List UInt8) : toLE bs.length (ofLE bs) = bs := by
  induction bs with
  | nil => rfl
  | cons b bs ih =>
      have hb : b.toNat < 256 := b.toNat_lt
      have hdiv : (b.toNat + 256 * ofLE bs) / 256 = ofLE bs := by omega
      have hlow : UInt8.ofNat (b.toNat + 256 * ofLE bs) = b := by
        apply UInt8.toNat_inj.mp
        rw [UInt8.toNat_ofNat']
        omega
      rw [List.length_cons, ofLE, toLE, hdiv, ih, hlow]

@[simp] lemma length_toLE (w n : ℕ) : (toLE w n).length = w := by
  induction w generalizing n with
  | zero => rfl
  | succ w ih => rw [toLE, List.length_cons, ih]

/-- A number is read back from its bytes. -/
theorem ofLE_toLE {w n : ℕ} (hn : n < 256 ^ w) : ofLE (toLE w n) = n := by
  induction w generalizing n with
  | zero =>
      rw [pow_zero, Nat.lt_one_iff] at hn
      rw [toLE, ofLE, hn]
  | succ w ih =>
      have hdiv : n / 256 < 256 ^ w := Nat.div_lt_of_lt_mul (by rwa [pow_succ, mul_comm] at hn)
      rw [toLE, ofLE, ih hdiv, UInt8.toNat_ofNat']
      omega

/-! ### Numbers in hexadecimal -/

/-- The text of a number in at least `w` hexadecimal digits, padded with zeros. -/
def hexText (w n : ℕ) : List Char :=
  List.replicate (w - (Nat.toDigits 16 n).length) '0' ++ Nat.toDigits 16 n

lemma hexDigit_eq_digitChar {n : ℕ} (hn : n < 16) : hexDigit n = n.digitChar := by
  interval_cases n <;> decide

/-- The last digit is the remainder. -/
lemma hexText_succ (w n : ℕ) :
    hexText (w + 2) n = hexText (w + 1) (n / 16) ++ [hexDigit (n % 16)] := by
  rw [hexDigit_eq_digitChar (Nat.mod_lt n (by omega))]
  by_cases hn : n < 16
  · have hdiv : n / 16 = 0 := Nat.div_eq_of_lt hn
    have hmod : n % 16 = n := Nat.mod_eq_of_lt hn
    rw [hexText, hexText, hdiv, hmod, Nat.toDigits_of_lt_base hn, Nat.toDigits_zero]
    simp [List.replicate_succ']
  · have hdigits : Nat.toDigits 16 n = Nat.toDigits 16 (n / 16) ++ [(n % 16).digitChar] :=
      Nat.toDigits_of_base_le (by omega) (not_lt.mp hn)
    rw [hexText, hexText, hdigits, List.length_append, List.length_singleton,
      Nat.add_sub_add_right (w + 1) 1, List.append_assoc]

/-- The bytes of a number, the highest first, are its digits two by two. -/
theorem toHex_reverse_toLE (w : ℕ) {n : ℕ} (hn : n < 256 ^ (w + 1)) :
    toHex (toLE (w + 1) n).reverse = hexText (2 * (w + 1)) n := by
  induction w generalizing n with
  | zero =>
      have hhigh : n / 16 < 16 := by omega
      have hlow : (UInt8.ofNat n).toNat = n := by
        rw [UInt8.toNat_ofNat']
        omega
      have hone : hexText 1 (n / 16) = [hexDigit (n / 16)] := by
        rw [hexText, Nat.toDigits_of_lt_base hhigh, hexDigit_eq_digitChar hhigh]
        rfl
      rw [hexText_succ 0, hone]
      simp [toHex, toLE, hlow]
  | succ w ih =>
      have hn' : n / 256 < 256 ^ (w + 1) := by
        rw [pow_succ] at hn
        exact Nat.div_lt_of_lt_mul (by rwa [mul_comm] at hn)
      have hbyte : (UInt8.ofNat n).toNat = n % 256 := UInt8.toNat_ofNat'
      have hhigh : n % 256 / 16 = n / 16 % 16 := by omega
      have hlow : n % 256 % 16 = n % 16 := by omega
      have hsplit : toHex (toLE (w + 2) n).reverse
          = toHex (toLE (w + 1) (n / 256)).reverse
            ++ [hexDigit (n / 16 % 16), hexDigit (n % 16)] := by
        rw [toLE, List.reverse_cons, toHex, toHex, List.flatMap_append, List.flatMap_singleton,
          hbyte, hhigh, hlow]
      calc toHex (toLE (w + 2) n).reverse
          = hexText (2 * w + 2) (n / 256) ++ ([hexDigit (n / 16 % 16)] ++ [hexDigit (n % 16)]) := by
            rw [hsplit, ih hn']
            rfl
        _ = hexText (2 * w + 3) (n / 16) ++ [hexDigit (n % 16)] := by
            rw [← List.append_assoc, hexText_succ (2 * w + 1), Nat.div_div_eq_div_mul]
        _ = hexText (2 * (w + 2)) n := (hexText_succ (2 * w + 2) n).symm

end BtcParser

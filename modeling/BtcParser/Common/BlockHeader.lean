import BtcParser.Library.Bytes

/-!
`common/block_header.py`: raw block headers.

The digest `sha256` is a parameter. Texts are lists of characters. `serializeHeader` is the layout
of a header, and `serializeHeader_headerFields` says that `parse_header` decodes exactly the 80
bytes it is given.
-/

namespace BtcParser

/-- `HEADER_LENGTH_BYTES`. -/
def headerLengthBytes : ℕ := 80

variable (sha256 : List UInt8 → List UInt8)

/-- `_double_sha256`. -/
def doubleSha256 (data : List UInt8) : List UInt8 := sha256 (sha256 data)

/-- `header_hash`; `none` stands for its `ValueError`s. -/
def headerHash (headerHex : List Char) : Option (List Char) :=
  match fromHex headerHex with
  | none => none
  | some raw =>
      if raw.length ≠ headerLengthBytes then none
      else some (toHex (doubleSha256 sha256 raw).reverse)

/-- `validate_header_hash`. -/
def validateHeaderHash (headerHex : Option (List Char)) (claimedHash : List Char) : Bool :=
  match headerHex with
  | none => false
  | some [] => false
  | some hex => headerHash sha256 hex == some (claimedHash.map Char.toLower)

/-- The header with the text `hex` is the one of the block: 80 bytes, whose digest is the hash. -/
def IsHeaderOf (hex blockhash : List Char) : Prop :=
  ∃ raw, fromHex hex = some raw ∧ raw.length = headerLengthBytes
    ∧ toHex (doubleSha256 sha256 raw).reverse = blockhash.map Char.toLower

/-- The check accepts the headers of the claimed block and nothing else. -/
theorem validateHeaderHash_iff (headerHex : Option (List Char)) (claimedHash : List Char) :
    validateHeaderHash sha256 headerHex claimedHash = true
      ↔ ∃ hex, headerHex = some hex ∧ IsHeaderOf sha256 hex claimedHash := by
  cases headerHex with
  | none => simp [validateHeaderHash]
  | some hex =>
      simp only [Option.some.injEq, exists_eq_left', IsHeaderOf]
      cases hex with
      | nil =>
          have : ¬ (0 : ℕ) = headerLengthBytes := by decide
          simp [validateHeaderHash, fromHex, this]
      | cons c l =>
          simp only [validateHeaderHash, headerHash, beq_iff_eq]
          cases fromHex (c :: l) with
          | none => simp
          | some raw =>
              by_cases hlen : raw.length = headerLengthBytes <;> simp [hlen]

/-- What `parse_header` returns. -/
structure HeaderFields where
  version : ℤ
  previousblockhash : List Char
  merkleroot : List Char
  time : ℕ
  bits : List Char
  nonce : ℕ
  deriving DecidableEq

/-- The fields of 80 raw bytes. -/
def headerFields (raw : List UInt8) : HeaderFields where
  version :=
    let v : ℕ := ofLE (raw.take 4)
    if v < 2 ^ 31 then v else v - 2 ^ 32
  previousblockhash := toHex ((raw.drop 4).take 32).reverse
  merkleroot := toHex ((raw.drop 36).take 32).reverse
  time := ofLE ((raw.drop 68).take 4)
  bits := toHex (toLE 4 (ofLE ((raw.drop 72).take 4))).reverse
  nonce := ofLE ((raw.drop 76).take 4)

/-- `parse_header`; `none` stands for its `ValueError`s. -/
def parseHeader (headerHex : List Char) : Option HeaderFields :=
  match fromHex headerHex with
  | none => none
  | some raw => if raw.length ≠ headerLengthBytes then none else some (headerFields raw)

/-- The layout of a header. -/
def serializeHeader (f : HeaderFields) : Option (List UInt8) :=
  match fromHex f.previousblockhash, fromHex f.merkleroot, fromHex f.bits with
  | some p, some m, some b => some (toLE 4 (f.version % 2 ^ 32).toNat ++ p.reverse ++ m.reverse
      ++ toLE 4 f.time ++ b.reverse ++ toLE 4 f.nonce)
  | _, _, _ => none

lemma toLE_ofLE_of_length {bs : List UInt8} {w : ℕ} (h : bs.length = w) :
    toLE w (ofLE bs) = bs := by
  rw [← h, toLE_ofLE]

/-- The signed reading of four bytes has the same residue. -/
lemma signed_emod {v : ℕ} (hv : v < 2 ^ 32) :
    ((if v < 2 ^ 31 then (v : ℤ) else v - 2 ^ 32) % 2 ^ 32).toNat = v := by
  split_ifs <;> omega

/-- The fields determine the header: they are decoded from exactly its 80 bytes. -/
theorem serializeHeader_headerFields {raw : List UInt8} (h : raw.length = headerLengthBytes) :
    serializeHeader (headerFields raw) = some raw := by
  rw [headerLengthBytes] at h
  have hversion : ofLE (raw.take 4) < 2 ^ 32 := by
    have := ofLE_lt (raw.take 4)
    rwa [List.length_take, min_eq_left (by omega)] at this
  have hslice : ∀ i n, i + n ≤ 80 → ((raw.drop i).take n).length = n := fun i n hin => by
    rw [List.length_take, List.length_drop]
    omega
  have hjoin : raw = raw.take 4 ++ (raw.drop 4).take 32 ++ (raw.drop 36).take 32
      ++ (raw.drop 68).take 4 ++ (raw.drop 72).take 4 ++ (raw.drop 76).take 4 := by
    have hlast : (raw.drop 76).take 4 = raw.drop 76 := List.take_of_length_le (by
      rw [List.length_drop]
      omega)
    have hstep : ∀ i n, (raw.drop i).take n ++ raw.drop (i + n) = raw.drop i := fun i n => by
      rw [← List.drop_drop, List.take_append_drop]
    simp only [List.append_assoc]
    rw [hlast, hstep 72 4, hstep 68 4, hstep 36 32, hstep 4 32, List.take_append_drop]
  rw [serializeHeader, headerFields]
  simp only [fromHex_toHex, List.reverse_reverse]
  rw [signed_emod hversion, toLE_ofLE_of_length (by simpa using hslice 0 4 (by omega)),
    toLE_ofLE_of_length (hslice 68 4 (by omega)), toLE_ofLE_of_length (hslice 72 4 (by omega)),
    toLE_ofLE_of_length (hslice 76 4 (by omega)), ← hjoin]

/-- What `parse_header` returns is decoded from exactly the bytes of the text. -/
theorem parseHeader_iff {hex : List Char} {f : HeaderFields} :
    parseHeader hex = some f ↔ ∃ raw, fromHex hex = some raw
      ∧ raw.length = headerLengthBytes ∧ f = headerFields raw := by
  rw [parseHeader]
  cases fromHex hex with
  | none => simp
  | some raw =>
      by_cases hlen : raw.length = headerLengthBytes
      · simp [hlen, eq_comm]
      · simp [hlen]

end BtcParser

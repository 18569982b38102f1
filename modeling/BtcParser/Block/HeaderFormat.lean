import BtcParser.Common.BlockHeader

/-!
Header decoding loses nothing.

* `headerFields_bits`: the word of the target is the text of a number in eight digits.
* `headerFields_inRange`: the fields have the ranges and widths of the layout.
* `header_decoding`: the layout turns the fields of a header back into it, and a hash is validated
  for the texts that can be decoded and no others.
-/

namespace BtcParser

variable {raw : List UInt8}

/-! ### The fields of a header -/

lemma length_toHex (bs : List UInt8) : (toHex bs).length = 2 * bs.length := by
  induction bs with
  | nil => rfl
  | cons b bs ih =>
      rw [toHex] at ih ⊢
      rw [List.flatMap_cons, List.length_append, ih, List.length_cons]
      simp only [List.length_cons, List.length_nil]
      omega

lemma length_slice (h : raw.length = headerLengthBytes) {i n : ℕ} (hin : i + n ≤ 80) :
    ((raw.drop i).take n).length = n := by
  rw [headerLengthBytes] at h
  rw [List.length_take, List.length_drop]
  omega

/-- Four bytes are a number of 32 bits. -/
lemma ofLE_word_lt (h : raw.length = headerLengthBytes) {i : ℕ} (hi : i + 4 ≤ 80) :
    ofLE ((raw.drop i).take 4) < 2 ^ 32 := by
  have hlt := ofLE_lt ((raw.drop i).take 4)
  rwa [length_slice h hi] at hlt

/-- `f"{bits:08x}"`. -/
lemma headerFields_bits (h : raw.length = headerLengthBytes) :
    (headerFields raw).bits = hexText 8 (ofLE ((raw.drop 72).take 4)) :=
  toHex_reverse_toLE 3 (ofLE_word_lt h (by omega))

/-- The ranges of the numbers and the widths of the texts in a header. -/
structure HeaderFields.InRange (f : HeaderFields) : Prop where
  version : -2 ^ 31 ≤ f.version ∧ f.version < 2 ^ 31
  previousblockhash : f.previousblockhash.length = 64
  merkleroot : f.merkleroot.length = 64
  time : f.time < 2 ^ 32
  bits : f.bits.length = 8
  nonce : f.nonce < 2 ^ 32

lemma headerFields_inRange (h : raw.length = headerLengthBytes) : (headerFields raw).InRange := by
  have hhash : ∀ i, i + 32 ≤ 80 → (toHex ((raw.drop i).take 32).reverse).length = 64 := by
    intro i hi
    rw [length_toHex, List.length_reverse, length_slice h hi]
  refine ⟨?_, hhash 4 (by omega), hhash 36 (by omega), ofLE_word_lt h (by omega), ?_,
    ofLE_word_lt h (by omega)⟩
  · have hv : ofLE (raw.take 4) < 2 ^ 32 := ofLE_word_lt h (i := 0) (by omega)
    simp only [headerFields]
    split_ifs <;> omega
  · rw [headerFields, length_toHex, List.length_reverse]
    rfl

/-! ### Texts -/

/-- What two texts decode to is the same only if their bytes are. -/
lemma fromHex_eq_of_parseHeader {hex hex' : List Char} {f : HeaderFields}
    (h : parseHeader hex = some f) (h' : parseHeader hex' = some f) :
    fromHex hex = fromHex hex' := by
  obtain ⟨raw, hraw, hlen, rfl⟩ := parseHeader_iff.mp h
  obtain ⟨raw', hraw', hlen', hfields⟩ := parseHeader_iff.mp h'
  have hsame : some raw = some raw' := by
    rw [← serializeHeader_headerFields hlen, hfields, serializeHeader_headerFields hlen']
  rw [hraw, hraw', hsame]

/-- The check and the decoder accept the same texts. -/
lemma isHeaderOf_iff_parseHeader (sha256 : List UInt8 → List UInt8) (hex claimed : List Char) :
    IsHeaderOf sha256 hex claimed ↔ ∃ f raw, parseHeader hex = some f ∧ fromHex hex = some raw
      ∧ toHex (doubleSha256 sha256 raw).reverse = claimed.map Char.toLower := by
  constructor
  · rintro ⟨raw, hraw, hlen, hhash⟩
    exact ⟨headerFields raw, raw, parseHeader_iff.mpr ⟨raw, hraw, hlen, rfl⟩, hraw, hhash⟩
  · rintro ⟨f, raw, hparse, hraw, hhash⟩
    obtain ⟨raw', hraw', hlen, -⟩ := parseHeader_iff.mp hparse
    obtain rfl : raw = raw' := Option.some.inj (hraw.symm.trans hraw')
    exact ⟨raw, hraw, hlen, hhash⟩

/-- **Header decoding loses nothing**: every text of 80 bytes is decoded, to fields of the ranges of
the layout that the layout turns back into these bytes; texts of different bytes have different
fields; and, whatever the text, the claimed hash is validated exactly if the text is decoded and the
reversed double digest of its bytes is the claimed one in lower case. -/
theorem header_decoding (sha256 : List UInt8 → List UInt8) :
    (∀ hex raw, fromHex hex = some raw → raw.length = headerLengthBytes →
        ∃ f, parseHeader hex = some f ∧ f.InRange ∧ serializeHeader f = some raw)
      ∧ (∀ hex hex' f, parseHeader hex = some f → parseHeader hex' = some f →
          fromHex hex = fromHex hex')
      ∧ ∀ hex claimed, validateHeaderHash sha256 (some hex) claimed = true
          ↔ ∃ f raw, parseHeader hex = some f ∧ fromHex hex = some raw
            ∧ toHex (doubleSha256 sha256 raw).reverse = claimed.map Char.toLower := by
  refine ⟨fun hex raw hraw hlen => ?_, fun hex hex' f => fromHex_eq_of_parseHeader,
    fun hex claimed => ?_⟩
  · exact ⟨headerFields raw, parseHeader_iff.mpr ⟨raw, hraw, hlen, rfl⟩, headerFields_inRange hlen,
      serializeHeader_headerFields hlen⟩
  · rw [validateHeaderHash_iff, ← isHeaderOf_iff_parseHeader]
    simp only [Option.some.injEq, exists_eq_left']

/-- The bytes from `i` on, each of which is its own place. -/
def places (i n : ℕ) : List UInt8 := (List.range' i n).map UInt8.ofNat

/-- The header whose bytes are `0` to `79`. -/
theorem header_decoding_places :
    ∃ f, parseHeader (toHex (places 0 80)) = some f
      ∧ f = ⟨0x03020100, toHex (places 4 32).reverse, toHex (places 36 32).reverse, 0x47464544,
        ['4', 'b', '4', 'a', '4', '9', '4', '8'], 0x4f4e4d4c⟩
      ∧ f.InRange ∧ serializeHeader f = some (places 0 80) := by
  obtain ⟨f, hparse, hrange, hback⟩ :=
    (header_decoding id).1 (toHex (places 0 80)) (places 0 80) (fromHex_toHex _) rfl
  refine ⟨f, hparse, ?_, hrange, hback⟩
  have hfields : parseHeader (toHex (places 0 80)) = some ⟨0x03020100, toHex (places 4 32).reverse,
      toHex (places 36 32).reverse, 0x47464544, ['4', 'b', '4', 'a', '4', '9', '4', '8'],
      0x4f4e4d4c⟩ := by
    decide +kernel
  exact Option.some.inj (hparse.symm.trans hfields)

end BtcParser

import BtcParser.Rpc.MiningPools

/-!
When the tag of a pool is found in the bytes that stamp it.

* `specMatch` says what a block should be attributed to: tags are looked for as UTF-8 bytes.
* `asText` is how the matcher looks for a tag, in the script read as Latin-1, and `asBytes` how it
  should. `occursIn_latin1` shows that an ASCII tag reads the same in both.
* `match_iff_agrees`: the attribution is right exactly when the first tag that occurs in either
  reading occurs in both, or is followed by one of the same pool in the other reading.
-/

namespace BtcParser

namespace Pools

open BlockParser (PoolMatch unknownMatch)

/-! ### The specification -/

/-- The tags of a dataset with their pools. The empty text is no tag. -/
def tagsOf (pools : List Pool) : List (List Char × PoolInfo) :=
  pools.flatMap fun pool =>
    ((pool.tags.getD []).filter (· ≠ [])).map fun tag => (tag, pool.info)

/-- The pool of an address: of several that list it, the last one. -/
def poolOfAddress (pools : List Pool) (address : String) : Option PoolInfo :=
  (pools.reverse.find? fun pool => address ≠ "" ∧ address ∈ pool.addresses.getD []).map Pool.info

/-- `str.encode("utf-8")`. -/
def utf8 (text : List Char) : List UInt8 := text.flatMap String.utf8EncodeChar

/-- The tag occurs in the script as it should be stamped. -/
def asBytes (script : List UInt8) (tag : List Char) : Bool := occursIn (utf8 tag) script

/-- The tag occurs in the script as the matcher reads it. -/
def asText (script : List UInt8) (tag : List Char) : Bool := occursIn tag (latin1 script)

/-- The pool of the first tag that occurs. -/
def firstTag (occurs : List Char → Bool) (tags : List (List Char × PoolInfo)) : Option PoolInfo :=
  (tags.find? fun p => occurs p.1).map Prod.snd

/-- The match by a tag, or else by an address. -/
def attribution (pools : List Pool) (payoutAddresses : List String) : Option PoolInfo → PoolMatch
  | some info => PoolMatcher.byTag info
  | none =>
      match payoutAddresses.findSome? (poolOfAddress pools) with
      | some info => PoolMatcher.byAddress info
      | none => unknownMatch

/-- The match that a script and the addresses paid should have. -/
def specMatch (pools : List Pool) (script : List UInt8) (payoutAddresses : List String) :
    PoolMatch :=
  attribution pools payoutAddresses (firstTag (asBytes script) (tagsOf pools))

/-- The first tag that occurs in either reading occurs in both, or the first later one in the other
reading has the same pool. -/
def Agrees (script : List UInt8) : List (List Char × PoolInfo) → Prop
  | [] => True
  | (tag, info) :: tags =>
      match asText script tag, asBytes script tag with
      | true, true => True
      | true, false => firstTag (asBytes script) tags = some info
      | false, true => firstTag (asText script) tags = some info
      | false, false => Agrees script tags

/-! ### The indexes -/

lemma tagIndex_foldl (pools : List Pool) (m : PoolMatcher) :
    (pools.foldl PoolMatcher.addPool m).tagIndex = m.tagIndex ++ tagsOf pools := by
  induction pools generalizing m with
  | nil => simp [tagsOf]
  | cons pool pools ih =>
      rw [List.foldl_cons, ih, PoolMatcher.addPool, List.append_assoc]
      rfl

lemma get?_foldl_set_const (info : PoolInfo) (addresses : List String) (d : Dict String PoolInfo)
    (address : String) :
    (addresses.foldl (fun index a => index.set a info) d).get? address
      = if address ∈ addresses then some info else d.get? address := by
  induction addresses generalizing d with
  | nil => simp
  | cons a addresses ih =>
      rw [List.foldl_cons, ih, Dict.get?_set]
      by_cases h : address ∈ addresses <;> by_cases ha : address = a <;> simp [h, ha]

lemma poolOfAddress_cons (pool : Pool) (pools : List Pool) (address : String) :
    poolOfAddress (pool :: pools) address
      = (poolOfAddress pools address).or
        (if address ∈ (pool.addresses.getD []).filter (· ≠ "") then some pool.info else none) := by
  rw [poolOfAddress, List.reverse_cons, List.find?_append, Option.map_or, List.find?_singleton,
    poolOfAddress]
  congr 1
  by_cases h : address ≠ "" ∧ address ∈ pool.addresses.getD []
  · rw [if_pos (by simpa using h), if_pos (by simpa [and_comm] using h), Option.map_some]
  · rw [if_neg (by simpa using h), if_neg (by simpa [and_comm] using h), Option.map_none]

lemma get?_addressIndex_foldl (pools : List Pool) (m : PoolMatcher) (address : String) :
    (pools.foldl PoolMatcher.addPool m).addressIndex.get? address
      = (poolOfAddress pools address).or (m.addressIndex.get? address) := by
  induction pools generalizing m with
  | nil => simp [poolOfAddress]
  | cons pool pools ih =>
      rw [List.foldl_cons, ih, PoolMatcher.addPool, get?_foldl_set_const, poolOfAddress_cons,
        Option.or_assoc]
      split_ifs
      · rw [Option.some_or]
      · rw [Option.none_or]

/-- The index of the addresses has the pool of every address. -/
lemma addressIndex_init (pools : List Pool) :
    (PoolMatcher.init pools).addressIndex.get? = poolOfAddress pools := by
  funext address
  rw [PoolMatcher.init, get?_addressIndex_foldl, Dict.get?_empty, Option.or_none]

/-- What the matcher returns, in terms of the dataset. -/
lemma matchPool_eq (pools : List Pool) (script : List UInt8) (payoutAddresses : List String) :
    (PoolMatcher.init pools).matchPool (some (String.ofList (toHex script))) payoutAddresses
      = attribution pools payoutAddresses (firstTag (asText script) (tagsOf pools)) := by
  have htext : coinbaseHexToAscii (some (String.ofList (toHex script))) = latin1 script := by
    rw [coinbaseHexToAscii, String.toList_ofList, fromHex_toHex]
  have hindex : (PoolMatcher.init pools).tagIndex = tagsOf pools := tagIndex_foldl pools _
  rw [PoolMatcher.matchPool, htext, hindex, addressIndex_init, firstTag]
  simp only [asText]
  cases (tagsOf pools).find? fun p => occursIn p.1 (latin1 script) with
  | some p => rfl
  | none => rfl

/-! ### The two readings -/

lemma attribution_injective (pools : List Pool) (payoutAddresses : List String) :
    Function.Injective (attribution pools payoutAddresses) := by
  have hmethod (o : Option PoolInfo) :
      (attribution pools payoutAddresses o).matchMethod = "tag" ↔ o.isSome = true := by
    cases o with
    | some info => simp [attribution, PoolMatcher.byTag]
    | none =>
        rw [attribution]
        cases payoutAddresses.findSome? (poolOfAddress pools) <;>
          simp [PoolMatcher.byAddress, BlockParser.unknownMatch]
  intro o o' h
  have hsome : o.isSome = o'.isSome := by
    rw [Bool.eq_iff_iff, ← hmethod, ← hmethod, h]
  cases o with
  | none =>
      cases o' with
      | none => rfl
      | some info => cases hsome
  | some info =>
      cases o' with
      | none => cases hsome
      | some info' =>
          simp only [attribution, PoolMatcher.byTag, BlockParser.PoolMatch.mk.injEq,
            Option.some.injEq] at h
          cases info
          cases info'
          simp_all

lemma firstTag_cons (occurs : List Char → Bool) (tag : List Char) (info : PoolInfo)
    (tags : List (List Char × PoolInfo)) :
    firstTag occurs ((tag, info) :: tags)
      = if occurs tag then some info else firstTag occurs tags := by
  rw [firstTag, List.find?_cons]
  cases occurs tag <;> simp [firstTag]

/-- The two readings find the same pool exactly when the tags agree. -/
lemma firstTag_eq_iff (script : List UInt8) (tags : List (List Char × PoolInfo)) :
    firstTag (asText script) tags = firstTag (asBytes script) tags ↔ Agrees script tags := by
  induction tags with
  | nil => exact iff_of_true rfl trivial
  | cons p tags ih =>
      obtain ⟨tag, info⟩ := p
      rw [firstTag_cons, firstTag_cons, Agrees]
      cases asText script tag with
      | true =>
          cases asBytes script tag with
          | true => simp
          | false => simp [eq_comm]
      | false =>
          cases asBytes script tag with
          | true => simp
          | false => simpa using ih

/-- **When a stamped tag is found**: for every dataset, script and addresses, a block is attributed
to the pool of the first tag whose UTF-8 bytes occur in the script, or else by the addresses,
exactly when the tags agree: the first one that occurs in either reading of the script occurs in
both, or the first later one that occurs in the other reading is one of the same pool. -/
theorem match_iff_agrees (pools : List Pool) (script : List UInt8)
    (payoutAddresses : List String) :
    (PoolMatcher.init pools).matchPool (some (String.ofList (toHex script))) payoutAddresses
        = specMatch pools script payoutAddresses
      ↔ Agrees script (tagsOf pools) := by
  rw [matchPool_eq, specMatch, (attribution_injective pools payoutAddresses).eq_iff,
    firstTag_eq_iff]

/-! ### Texts in ASCII -/

/-- The byte of a character of Latin-1. -/
def ofLatin1 (c : Char) : UInt8 := UInt8.ofNat c.toNat

lemma ofLatin1_latin1 (script : List UInt8) : (latin1 script).map ofLatin1 = script := by
  have hchar : ∀ n < 256, (Char.ofNat n).toNat = n := by decide +kernel
  rw [latin1, List.map_map]
  refine (List.map_congr_left fun b _ => ?_).trans script.map_id
  rw [Function.comp_apply, ofLatin1, hchar _ b.toNat_lt, UInt8.ofNat_toNat, id]

lemma latin1_ofLatin1 {tag : List Char} (h : ∀ c ∈ tag, c.toNat < 128) :
    latin1 (tag.map ofLatin1) = tag := by
  rw [latin1, List.map_map]
  refine (List.map_congr_left fun c hc => ?_).trans tag.map_id
  have hc' := h c hc
  rw [Function.comp_apply, ofLatin1, UInt8.toNat_ofNat', Nat.mod_eq_of_lt (by omega),
    Char.ofNat_toNat, id]

lemma utf8_ascii {tag : List Char} (h : ∀ c ∈ tag, c.toNat < 128) :
    utf8 tag = tag.map ofLatin1 := by
  induction tag with
  | nil => rfl
  | cons c tag ih =>
      have hc : c.val.toNat ≤ 0x7f := Nat.lt_succ_iff.mp (h c List.mem_cons_self)
      have hone : String.utf8EncodeChar c = [ofLatin1 c] := if_pos hc
      rw [List.map_cons, ← ih fun c hc => h c (List.mem_cons_of_mem _ hc), utf8, List.flatMap_cons,
        hone]
      rfl

/-- An ASCII tag occurs in both readings or in neither. -/
lemma asText_ascii (script : List UInt8) {tag : List Char} (h : ∀ c ∈ tag, c.toNat < 128) :
    asText script tag = asBytes script tag := by
  rw [asText, asBytes, occursIn, occursIn, utf8_ascii h, decide_eq_decide]
  constructor
  · intro hin
    have := hin.map ofLatin1
    rwa [ofLatin1_latin1] at this
  · intro hin
    have := hin.map fun b => Char.ofNat b.toNat
    rwa [← latin1, ← latin1, latin1_ofLatin1 h] at this

/-- A dataset of ASCII tags always agrees. -/
theorem agrees_of_ascii (script : List UInt8) {tags : List (List Char × PoolInfo)}
    (h : ∀ p ∈ tags, ∀ c ∈ p.1, c.toNat < 128) : Agrees script tags := by
  rw [← firstTag_eq_iff, firstTag, firstTag]
  refine congrArg _ (List.find?_congr fun p hp => ?_)
  exact asText_ascii script (h p hp)

/-- F2Pool in the bundled dataset, without its addresses. -/
def f2pool : Pool where
  id := some 36
  name := some "F2Pool"
  link := some "https://www.f2pool.com"
  tags := some [[Char.ofNat 0x4e03, Char.ofNat 0x5f69, Char.ofNat 0x795e, Char.ofNat 0x4ed9,
    Char.ofNat 0x9c7c], ['F', '2', 'P', 'o', 'o', 'l'], [Char.ofNat 0x1f41f]]
  addresses := some []

/-- A height, and the first tag of F2Pool. -/
def f2poolScript : List UInt8 :=
  [0x03, 0x40, 0x0d, 0x03, 0xe4, 0xb8, 0x83, 0xe5, 0xbd, 0xa9, 0xe7, 0xa5, 0x9e, 0xe4, 0xbb, 0x99,
   0xe9, 0xb1, 0xbc]

/-- The tag is in the script, and is not found. -/
theorem match_f2pool :
    (PoolMatcher.init [f2pool]).matchPool (some (String.ofList (toHex f2poolScript))) []
        = BlockParser.unknownMatch
      ∧ specMatch [f2pool] f2poolScript [] = PoolMatcher.byTag f2pool.info := by
  have htext : firstTag (asText f2poolScript) (tagsOf [f2pool]) = none := by decide +kernel
  have hbytes : firstTag (asBytes f2poolScript) (tagsOf [f2pool]) = some f2pool.info := by
    decide +kernel
  rw [matchPool_eq, specMatch, htext, hbytes]
  exact ⟨rfl, rfl⟩

end Pools

end BtcParser

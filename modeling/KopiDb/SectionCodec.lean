import KopiDb.Sst
import KopiDb.BlockCodec

/-!
# The meta and filter sections of a table file

The meta section describes the blocks and is guarded by a hash; the filter section holds the
packed bits of the filter.
-/

namespace KopiDb

/-- A number of bytes and what is behind them. -/
def takeBytes (count : ℕ) (input : Bytes) : Except Err (Bytes × Bytes) :=
  if input.length < count then .error .outOfBounds
  else .ok (input.take count, input.drop count)

theorem takeBytes_append {count : ℕ} {bytes : Bytes} (hlength : bytes.length = count)
    (rest : Bytes) : takeBytes count (bytes ++ rest) = .ok (bytes, rest) := by
  rw [takeBytes, if_neg, List.take_left' hlength, List.drop_left' hlength]
  rw [List.length_append, hlength]
  exact not_lt.mpr (Nat.le_add_right _ _)

/-! ## Meta section -/

namespace BlockMeta

/-- One entry: the offset of a block and its keys. -/
def encodeOne (located : ℕ × BlockMeta) : Bytes :=
  toLe 4 located.1 ++ (toLe 2 located.2.firstKey.length ++ (located.2.firstKey ++
    (toLe 2 located.2.lastKey.length ++ located.2.lastKey)))

/-- `encode_meta_to_slice` -/
def encodeMetaToSlice (stdHash : Bytes → ℕ) (metas : List (ℕ × BlockMeta)) : Bytes :=
  toLe 4 metas.length ++ (metas.flatMap encodeOne ++ toLe 4 (stdHash (metas.flatMap encodeOne)))

/-- The loop of `decode_meta_from_slice`, which trusts the number of entries. -/
def decodeEntries : ℕ → Bytes → Except Err (List (ℕ × BlockMeta))
  | 0, _ => .ok []
  | count + 1, input => do
      let (offset, input) ← takeBytes 4 input
      let (firstLength, input) ← takeBytes 2 input
      let (firstKey, input) ← takeBytes (ofLe firstLength) input
      let (lastLength, input) ← takeBytes 2 input
      let (lastKey, input) ← takeBytes (ofLe lastLength) input
      let rest ← decodeEntries count input
      return (ofLe offset, ⟨firstKey, lastKey⟩) :: rest

/-- `decode_meta_from_slice` -/
def decodeMetaFromSlice (stdHash : Bytes → ℕ) (metadata : Bytes) :
    Except Err (List (ℕ × BlockMeta)) :=
  if metadata.length < 8 then
    .error (.runtimeError "BlockMeta::decode_meta_from_slice: Invalid metadata size")
  else
    let entriesLen := metadata.length - 8
    let entries := (metadata.drop 4).take entriesLen
    if stdHash entries % 2 ^ 32 ≠ ofLe ((metadata.drop (4 + entriesLen)).take 4) then
      .error (.runtimeError "BlockMeta::decode_meta_from_slice: Metadata hash mismatch")
    else decodeEntries (ofLe (metadata.take 4)) (metadata.drop 4)

/-- Offsets and keys that fit their fields. -/
structure Encodable (metas : List (ℕ × BlockMeta)) : Prop where
  offset : ∀ located ∈ metas, located.1 < 256 ^ 4
  keys : ∀ located ∈ metas, located.2.firstKey.length ≤ uint16Max ∧
    located.2.lastKey.length ≤ uint16Max
  count : metas.length < 256 ^ 4

theorem decodeEntries_append {metas : List (ℕ × BlockMeta)}
    (hoffset : ∀ located ∈ metas, located.1 < 256 ^ 4)
    (hkeys : ∀ located ∈ metas, located.2.firstKey.length ≤ uint16Max ∧
      located.2.lastKey.length ≤ uint16Max) (rest : Bytes) :
    decodeEntries metas.length (metas.flatMap encodeOne ++ rest) = .ok metas := by
  induction metas with
  | nil => rfl
  | cons located others ih =>
      obtain ⟨hfirstOffset, hoffset⟩ := List.forall_mem_cons.mp hoffset
      obtain ⟨⟨hfirst, hlast⟩, hkeys⟩ := List.forall_mem_cons.mp hkeys
      rw [List.length_cons, List.flatMap_cons, decodeEntries, encodeOne]
      simp only [List.append_assoc]
      rw [takeBytes_append (length_toLe 4 _)]
      simp only [bind, Except.bind]
      rw [takeBytes_append (length_toLe 2 _)]
      dsimp only
      rw [ofLe_toLe (Nat.lt_succ_of_le hfirst), takeBytes_append rfl]
      dsimp only
      rw [takeBytes_append (length_toLe 2 _)]
      dsimp only
      rw [ofLe_toLe (Nat.lt_succ_of_le hlast), takeBytes_append rfl]
      dsimp only
      rw [ih hoffset hkeys, ofLe_toLe hfirstOffset]
      rfl

theorem length_encodeMetaToSlice (stdHash : Bytes → ℕ) (metas : List (ℕ × BlockMeta)) :
    (encodeMetaToSlice stdHash metas).length = (metas.flatMap encodeOne).length + 8 := by
  rw [encodeMetaToSlice, List.length_append, List.length_append, length_toLe, length_toLe]
  omega

/-- The meta entries are decoded as they were encoded. -/
theorem decodeMeta_encodeMeta {stdHash : Bytes → ℕ} {metas : List (ℕ × BlockMeta)}
    (hmetas : Encodable metas) :
    decodeMetaFromSlice stdHash (encodeMetaToSlice stdHash metas) = .ok metas := by
  have hlength := length_encodeMetaToSlice stdHash metas
  have hbehind : (encodeMetaToSlice stdHash metas).drop 4 =
      metas.flatMap encodeOne ++ toLe 4 (stdHash (metas.flatMap encodeOne)) :=
    List.drop_left' (length_toLe _ _)
  unfold decodeMetaFromSlice
  dsimp only
  rw [← List.drop_drop, hbehind, hlength, if_neg (by omega), Nat.add_sub_cancel, List.take_left,
    List.drop_left, List.take_of_length_le (length_toLe 4 _).le, ofLe_toLe_mod, if_neg,
    encodeMetaToSlice, List.take_left' (length_toLe _ _), ofLe_toLe hmetas.count,
    decodeEntries_append hmetas.offset hmetas.keys]
  exact not_not.mpr rfl

end BlockMeta

/-! ## Filter section -/

/-- `0.0 < rate && rate < 1.0` on the bytes of a `double`: positive numbers are ordered as
their bits, and `1.0` is `0x3FF0000000000000`. -/
def inUnitInterval (rate : Bytes) : Bool :=
  decide (0 < ofLe rate ∧ ofLe rate < 0x3FF0000000000000)

/-- What the filter keeps next to its bits: the expected number of elements and the error
rate, which the constructor checked. -/
structure BloomParams where
  expectedElements : ℕ
  falsePositiveRate : Bytes
  expectedElements_pos : 0 < expectedElements
  expectedElements_lt : expectedElements < 256 ^ 8
  length_rate : falsePositiveRate.length = 8
  rate_valid : inUnitInterval falsePositiveRate = true

namespace BloomFilter

/-- The bytes that hold a number of bits. -/
def numBytes (numBits : ℕ) : ℕ := numBits / 8 + if numBits % 8 ≠ 0 then 1 else 0

/-- Bit `i` goes to byte `i / 8` at place `i % 8`. -/
def packBits (bits : List Bool) : Bytes :=
  (List.range (numBytes bits.length)).map fun byte =>
    ⟨Nat.ofBits fun place : Fin 8 => bits.getD (8 * byte + place) false,
      Nat.ofBits_lt_two_pow _⟩

def unpackBits (numBits : ℕ) (data : Bytes) : List Bool :=
  (List.range numBits).map fun i => (data.getD (i / 8) 0).val.testBit (i % 8)

/-- `encode` -/
def encode (params : BloomParams) (filter : BloomFilter) : Bytes :=
  toLe 8 params.expectedElements ++ (params.falsePositiveRate ++
    (toLe 8 filter.numBits ++ (toLe 8 filter.numHashes ++ packBits filter.bits)))

/-- `decode` -/
def decode (stdHash : Bytes → ℕ) (data : Bytes) :
    Except Err BloomFilter :=
  if data.length < 32 then
    .error (.runtimeError "BloomFilter::decode: truncated header size is too small")
  else
    let expectedElements := ofLe (data.take 8)
    let rate := (data.drop 8).take 8
    let numBits := ofLe ((data.drop 16).take 8)
    let numHashes := ofLe ((data.drop 24).take 8)
    if hinvalid : expectedElements = 0 ∨ inUnitInterval rate = false ∨ numBits = 0 ∨
        numHashes = 0 then
      .error (.runtimeError "BloomFilter::decode: invalid metadata in bloom filter info")
    else if data.length - 32 ≠ numBytes numBits then
      .error (.runtimeError "BloomFilter::decode: invalid bitmap length in bloom filter")
    else
      .ok
        { numBits := numBits
          numHashes := numHashes
          bits := unpackBits numBits (data.drop 32)
          stdHash := stdHash
          numBits_pos := Nat.pos_of_ne_zero (not_or.mp (not_or.mp (not_or.mp hinvalid).2).2).1
          length_bits := by rw [unpackBits, List.length_map, List.length_range] }

theorem length_packBits (bits : List Bool) : (packBits bits).length = numBytes bits.length := by
  rw [packBits, List.length_map, List.length_range]

theorem unpackBits_packBits (bits : List Bool) : unpackBits bits.length (packBits bits) = bits := by
  apply List.ext_getElem
  · rw [unpackBits, List.length_map, List.length_range]
  · intro i hleft hright
    have hbyte : i / 8 < numBytes bits.length := by
      unfold numBytes
      split_ifs <;> omega
    have hplace : i % 8 < 8 := Nat.mod_lt _ (by decide)
    have hget : (packBits bits).getD (i / 8) 0 =
        ⟨Nat.ofBits fun place : Fin 8 => bits.getD (8 * (i / 8) + place) false,
          Nat.ofBits_lt_two_pow _⟩ := by
      rw [List.getD_eq_getElem _ _ (by rwa [length_packBits])]
      simp [packBits]
    simp only [unpackBits, List.getElem_map, List.getElem_range]
    rw [hget, Nat.testBit_ofBits_lt _ _ hplace, Nat.div_add_mod, List.getD_eq_getElem _ _ hright]

/-- Where the fields of the encoding are. -/
private theorem encode_fields (params : BloomParams) (filter : BloomFilter) :
    (encode params filter).length = 32 + numBytes filter.numBits ∧
      (encode params filter).take 8 = toLe 8 params.expectedElements ∧
      ((encode params filter).drop 8).take 8 = params.falsePositiveRate ∧
      ((encode params filter).drop 16).take 8 = toLe 8 filter.numBits ∧
      ((encode params filter).drop 24).take 8 = toLe 8 filter.numHashes ∧
      (encode params filter).drop 32 = packBits filter.bits := by
  have hexpected := length_toLe 8 params.expectedElements
  have hrate := params.length_rate
  have hbits := length_toLe 8 filter.numBits
  have hhashes := length_toLe 8 filter.numHashes
  have hbehind8 : (encode params filter).drop 8 = params.falsePositiveRate ++
      (toLe 8 filter.numBits ++ (toLe 8 filter.numHashes ++ packBits filter.bits)) :=
    List.drop_left' hexpected
  have hbehind16 : (encode params filter).drop 16 =
      toLe 8 filter.numBits ++ (toLe 8 filter.numHashes ++ packBits filter.bits) := by
    rw [← List.drop_drop (i := 8) (j := 8), hbehind8, List.drop_left' hrate]
  have hbehind24 : (encode params filter).drop 24 =
      toLe 8 filter.numHashes ++ packBits filter.bits := by
    rw [← List.drop_drop (i := 8) (j := 16), hbehind16, List.drop_left' hbits]
  have hbehind32 : (encode params filter).drop 32 = packBits filter.bits := by
    rw [← List.drop_drop (i := 8) (j := 24), hbehind24, List.drop_left' hhashes]
  refine ⟨?_, List.take_left' hexpected, ?_, ?_, ?_, hbehind32⟩
  · rw [encode, List.length_append, List.length_append, List.length_append, List.length_append,
      hexpected, hrate, hbits, hhashes, length_packBits, filter.length_bits]
    omega
  · rw [hbehind8, List.take_left' hrate]
  · rw [hbehind16, List.take_left' hbits]
  · rw [hbehind24, List.take_left' hhashes]

/-- The filter is decoded as it was encoded. -/
theorem decode_eq_of_encode {params : BloomParams} {filter : BloomFilter}
    (hbits : filter.numBits < 256 ^ 8) (hhashes : filter.numHashes < 256 ^ 8)
    (hsome : 0 < filter.numHashes) :
    decode filter.stdHash (encode params filter) = .ok filter := by
  obtain ⟨hlength, hexpected, hrate, hnumBits, hnumHashes, hpacked⟩ := encode_fields params filter
  have hexpected : ofLe ((encode params filter).take 8) = params.expectedElements := by
    rw [hexpected, ofLe_toLe params.expectedElements_lt]
  have hnumBits : ofLe (((encode params filter).drop 16).take 8) = filter.numBits := by
    rw [hnumBits, ofLe_toLe hbits]
  have hnumHashes : ofLe (((encode params filter).drop 24).take 8) = filter.numHashes := by
    rw [hnumHashes, ofLe_toLe hhashes]
  have hvalid : ¬(ofLe ((encode params filter).take 8) = 0 ∨
      inUnitInterval (((encode params filter).drop 8).take 8) = false ∨
      ofLe (((encode params filter).drop 16).take 8) = 0 ∨
      ofLe (((encode params filter).drop 24).take 8) = 0) := by
    rw [hexpected, hrate, params.rate_valid, hnumBits, hnumHashes]
    have hexpectedPos := params.expectedElements_pos
    have hbitsPos := filter.numBits_pos
    simp only [Bool.true_eq_false, false_or, not_or]
    omega
  have hunpack : unpackBits filter.numBits (packBits filter.bits) = filter.bits := by
    have hround := unpackBits_packBits filter.bits
    rwa [filter.length_bits] at hround
  unfold decode
  dsimp only
  rw [if_neg (by omega), dif_neg hvalid, if_neg (by rw [hlength, hnumBits]; omega)]
  apply congrArg Except.ok
  generalize encode params filter = data at *
  obtain ⟨numBits, numHashes, bits, stdHash, hpos, hbitsLength⟩ := filter
  rw [mk.injEq]
  refine ⟨hnumBits, hnumHashes, ?_, rfl⟩
  rw [hnumBits, hpacked]
  exact hunpack

end BloomFilter

end KopiDb

import KopiDb.SectionCodec

/-!
# Keys in a stored filter

The encoder sets the bits of the packed bytes one by one.  What it writes is the packing of
the section codec, so a filter that is read back has the bits of the one that was written, and
a key that was added is found in both.
-/

namespace KopiDb

namespace BloomFilter

/-- A filter of given sizes without keys. -/
def empty (numBits numHashes : ℕ) (stdHash : Bytes → ℕ) (hnumBits : 0 < numBits) :
    BloomFilter where
  numBits := numBits
  numHashes := numHashes
  bits := List.replicate numBits false
  stdHash := stdHash
  numBits_pos := hnumBits
  length_bits := List.length_replicate

theorem new_eq_empty (config : Config) : new config =
    empty config.bloomNumBits config.bloomNumHashes config.stdHash config.bloomNumBits_pos := rfl

/-- A sequence of `add`s. -/
def addAll (filter : BloomFilter) (keys : List Bytes) : BloomFilter := keys.foldl add filter

theorem addAll_cons (filter : BloomFilter) (key : Bytes) (keys : List Bytes) :
    filter.addAll (key :: keys) = (filter.add key).addAll keys := rfl

theorem addAll_sizes (filter : BloomFilter) (keys : List Bytes) :
    (filter.addAll keys).numBits = filter.numBits ∧
      (filter.addAll keys).numHashes = filter.numHashes ∧
        (filter.addAll keys).stdHash = filter.stdHash := by
  induction keys generalizing filter with
  | nil => exact ⟨rfl, rfl, rfl⟩
  | cons key keys ih =>
      obtain ⟨hbits, hhashes, hhash⟩ := ih (filter.add key)
      obtain ⟨hbits', hhashes', hhash'⟩ := add_sizes filter key
      exact ⟨hbits.trans hbits', hhashes.trans hhashes', hhash.trans hhash'⟩

theorem possiblyContains_addAll {filter : BloomFilter} {key : Bytes}
    (hcontains : filter.possiblyContains key) (keys : List Bytes) :
    (filter.addAll keys).possiblyContains key := by
  induction keys generalizing filter with
  | nil => exact hcontains
  | cons other keys ih => exact ih (possiblyContains_add hcontains other)

/-- Every key of a sequence of `add`s is found. -/
theorem possiblyContains_of_mem (filter : BloomFilter) {key : Bytes} {keys : List Bytes}
    (hmem : key ∈ keys) : (filter.addAll keys).possiblyContains key := by
  induction keys generalizing filter with
  | nil => cases hmem
  | cons other keys ih =>
      rw [addAll_cons]
      rcases List.mem_cons.mp hmem with rfl | hmem
      · exact possiblyContains_addAll (possiblyContains_add_self filter key) keys
      · exact ih (filter.add other) hmem

/-! ## The loop of the encoder -/

/-- `data[i / 8] |= 1u << (i % 8)` -/
def orBit (data : Bytes) (i : ℕ) : Bytes :=
  data.modify (i / 8) fun byte => Fin.ofNat 256 (byte.val ||| 1 <<< (i % 8))

/-- The loop over the bits: each one that is set is put into its byte. -/
def packLoop (bits : List Bool) : ℕ → Bytes
  | 0 => List.replicate (numBytes bits.length) 0
  | i + 1 => if bits.getD i false then orBit (packLoop bits i) i else packLoop bits i

/-- `encode` as the loop writes it. -/
def encodeLoop (params : BloomParams) (filter : BloomFilter) : Bytes :=
  toLe 8 params.expectedElements ++ (params.falsePositiveRate ++
    (toLe 8 filter.numBits ++ (toLe 8 filter.numHashes ++ packLoop filter.bits filter.numBits)))

theorem length_packLoop (bits : List Bool) (count : ℕ) :
    (packLoop bits count).length = numBytes bits.length := by
  induction count with
  | zero => exact List.length_replicate
  | succ i ih =>
      rw [packLoop]
      split_ifs with hset
      · rw [orBit, List.length_modify, ih]
      · exact ih

/-- Setting a bit changes its own place only. -/
private theorem testBit_orBit (data : Bytes) (i byte place : ℕ) (hplace : place < 8)
    (hbyte : byte < data.length) : ((orBit data i).getD byte 0).val.testBit place =
      ((data.getD byte 0).val.testBit place || decide (i = 8 * byte + place)) := by
  simp only [List.getD_eq_getElem?_getD, orBit, List.getElem?_modify,
    List.getElem?_eq_getElem hbyte, Option.getD_some]
  by_cases hindex : i / 8 = byte
  · have hlt : data[byte].val ||| 2 ^ (i % 8) < 256 := by
      apply @Nat.or_lt_two_pow _ _ 8 data[byte].isLt
      exact Nat.pow_lt_pow_right (by decide) (Nat.mod_lt _ (by decide))
    simp only [if_pos hindex, Nat.one_shiftLeft]
    change ((data[byte].val ||| 2 ^ (i % 8)) % 256).testBit place = _
    rw [Nat.mod_eq_of_lt hlt, Nat.testBit_or, Nat.testBit_two_pow]
    congr 2
    apply propext
    omega
  · simp only [if_neg hindex]
    rw [decide_eq_false (by omega), Bool.or_false]
    rfl

/-- After some turns of the loop a place holds the bit that belongs there, once its turn
was. -/
private theorem testBit_packLoop (bits : List Bool) (count byte place : ℕ) (hplace : place < 8)
    (hbyte : byte < numBytes bits.length) :
    ((packLoop bits count).getD byte 0).val.testBit place =
      (decide (8 * byte + place < count) && bits.getD (8 * byte + place) false) := by
  induction count with
  | zero => simp [packLoop]
  | succ i ih =>
      have hturn : decide (8 * byte + place < i + 1) =
          (decide (8 * byte + place < i) || decide (i = 8 * byte + place)) := by
        rw [← Bool.decide_or]
        congr 1
        apply propext
        omega
      rw [packLoop, hturn, Bool.and_or_distrib_right]
      split_ifs with hset
      · rw [testBit_orBit _ _ _ _ hplace (by rwa [length_packLoop]), ih]
        congr 1
        by_cases heq : i = 8 * byte + place
        · rw [decide_eq_true heq, ← heq, hset, Bool.and_self]
        · rw [decide_eq_false heq, Bool.false_and]
      · rw [ih]
        by_cases heq : i = 8 * byte + place
        · rw [decide_eq_true heq, ← heq, Bool.eq_false_iff.mpr hset, Bool.and_false, Bool.and_false,
            Bool.or_false]
        · rw [decide_eq_false heq, Bool.false_and, Bool.or_false]

/-- The loop packs the bits. -/
theorem packLoop_eq_packBits (bits : List Bool) : packLoop bits bits.length = packBits bits := by
  apply List.ext_getElem
  · rw [length_packLoop, length_packBits]
  · intro byte hleft hright
    have hbyte : byte < numBytes bits.length := by rwa [length_packBits] at hright
    apply Fin.ext
    apply Nat.eq_of_testBit_eq
    intro place
    by_cases hplace : place < 8
    · have hloop := testBit_packLoop bits bits.length byte place hplace hbyte
      rw [List.getD_eq_getElem _ _ hleft] at hloop
      rw [hloop]
      simp only [packBits, List.getElem_map, List.getElem_range]
      rw [Nat.testBit_ofBits_lt _ _ hplace]
      by_cases hinside : 8 * byte + place < bits.length
      · rw [decide_eq_true hinside, Bool.true_and]
      · rw [decide_eq_false hinside, Bool.false_and, List.getD_eq_default _ _ (not_lt.mp hinside)]
    · have hbound : 256 ≤ 2 ^ place :=
        Nat.pow_le_pow_right (show 0 < 2 by decide) (not_lt.mp hplace)
      rw [Nat.testBit_lt_two_pow ((Fin.isLt _).trans_le hbound),
        Nat.testBit_lt_two_pow ((Fin.isLt _).trans_le hbound)]

theorem encodeLoop_eq (params : BloomParams) (filter : BloomFilter) :
    encodeLoop params filter = encode params filter := by
  rw [encodeLoop, encode, ← filter.length_bits, packLoop_eq_packBits]

/-- A filter has no false negatives, before and after it is stored: every key that was added is
found, the stored filter is decoded, and the decoded one answers every query as the first. -/
theorem no_false_negatives (params : BloomParams) (stdHash : Bytes → ℕ) {numBits numHashes : ℕ}
    (hnumBits : 0 < numBits) (hbits : numBits < 2 ^ 64) (hnumHashes : 0 < numHashes)
    (hhashes : numHashes < 2 ^ 64) (keys : List Bytes) :
    let filter := (empty numBits numHashes stdHash hnumBits).addAll keys
    (∀ key ∈ keys, filter.possiblyContains key = true) ∧
      ∃ decoded, decode stdHash (encodeLoop params filter) = .ok decoded ∧
        (∀ key, decoded.possiblyContains key = filter.possiblyContains key) ∧
          ∀ key ∈ keys, decoded.possiblyContains key = true := by
  intro filter
  obtain ⟨hsize, hcount, hhash⟩ := addAll_sizes (empty numBits numHashes stdHash hnumBits) keys
  have hfound : ∀ key ∈ keys, filter.possiblyContains key = true := fun key hmem =>
    possiblyContains_of_mem _ hmem
  have hdecode : decode stdHash (encodeLoop params filter) = .ok filter := by
    rw [encodeLoop_eq]
    have hround : decode filter.stdHash (encode params filter) = .ok filter :=
      decode_eq_of_encode (hsize.trans_lt (hbits.trans_eq (by decide)))
        (hcount.trans_lt (hhashes.trans_eq (by decide))) (hnumHashes.trans_eq hcount.symm)
    rwa [show filter.stdHash = stdHash from hhash] at hround
  exact ⟨hfound, filter, hdecode, fun _ => rfl, hfound⟩

/-- One element and the rate `0.01`. -/
def sampleParams : BloomParams where
  expectedElements := 1
  falsePositiveRate := [0x7B, 0x14, 0xAE, 0x47, 0xE1, 0x7A, 0x84, 0x3F]
  expectedElements_pos := by decide
  expectedElements_lt := by decide
  length_rate := rfl
  rate_valid := by decide

/-- Nine bits and two hashes: the last byte holds one bit. -/
theorem no_false_negatives_sample :
    ∃ decoded, decode ofLe (encodeLoop sampleParams
      ((empty 9 2 ofLe (by decide)).addAll [[1], [2, 3]])) = .ok decoded ∧
        decoded.possiblyContains [2, 3] = true := by
  obtain ⟨_, decoded, hdecode, _, hfound⟩ := @no_false_negatives sampleParams ofLe 9 2 (by decide)
    (by decide) (by decide) (by decide) [[1], [2, 3]]
  exact ⟨decoded, hdecode, hfound [2, 3] (by decide)⟩

end BloomFilter

end KopiDb

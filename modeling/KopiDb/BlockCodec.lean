import KopiDb.Block
import KopiDb.Lib.LittleEndian

/-!
# The bytes of a block

A block is stored as its records, the offset of each of them, their number and a checksum.
A decoded block keeps records and offsets as bytes, and a record is read at its offset.
-/

namespace KopiDb

/-- One byte in `crc32_compute`. -/
def crc32Step (crc : BitVec 32) (byte : Fin 256) : BitVec 32 :=
  (List.range 8).foldl
    (fun crc _ => if crc.getLsbD 0 then crc >>> 1 ^^^ 0xEDB88320#32 else crc >>> 1)
    (crc ^^^ BitVec.ofNat 32 byte)

/-- `crc32_compute` -/
def crc32Compute (data : Bytes) : ℕ :=
  (data.foldl crc32Step 0xFFFFFFFF#32 ^^^ 0xFFFFFFFF#32).toNat

theorem crc32Compute_lt (data : Bytes) : crc32Compute data < 256 ^ 4 := BitVec.isLt _

/-- The bytes that `add_entry` appends for a record. -/
def encodeEntry (entry : Entry) : Bytes :=
  toLe 2 entry.key.length ++ (entry.key ++ (toLe 2 entry.value.length ++
    (entry.value ++ toLe 8 entry.txid)))

theorem length_encodeEntry (entry : Entry) : (encodeEntry entry).length = entrySize entry := by
  simp only [encodeEntry, List.length_append, length_toLe, entrySize]
  omega

/-- A block in memory as the source has it. -/
structure RawBlock where
  data : Bytes
  offsets : List ℕ
  deriving DecidableEq, Repr

namespace RawBlock

/-- The bytes that the checksum covers. -/
def body (block : RawBlock) : Bytes :=
  block.data ++ (wordsLe 2 block.offsets ++ toLe 2 block.offsets.length)

def encoded (block : RawBlock) : Bytes := block.body ++ toLe 4 (crc32Compute block.body)

/-- The offsets of a block: a number of words of two bytes. -/
def readOffsets : ℕ → Bytes → List ℕ
  | 0, _ => []
  | count + 1, section_ => ofLe (section_.take 2) :: readOffsets count (section_.drop 2)

/-- `encode`, by default with the checksum. -/
def encodeWith (block : RawBlock) (withHash : Bool) : Except Err Bytes :=
  if block.offsets.length > uint16Max then .error (.runtimeError "Too many entries")
  else .ok (if withHash then block.encoded else block.body)

def encode (block : RawBlock) : Except Err Bytes := block.encodeWith true

/-- The part of `decode` behind the checks of the length and of the checksum. -/
def decodeBody (body : Bytes) : Except Err RawBlock :=
  let offsetSecEnd := body.length - 2
  let num := ofLe (body.drop offsetSecEnd)
  if 2 * num > offsetSecEnd then .error (.runtimeError "Invalid offset table")
  else
    let offsetSecBegin := offsetSecEnd - num * 2
    .ok ⟨body.take offsetSecBegin, readOffsets num (body.drop offsetSecBegin)⟩

/-- `decode`, by default with the checksum. -/
def decodeWith (encoded : Bytes) (withHash : Bool) : Except Err RawBlock :=
  let crcSize := if withHash then 4 else 0
  if encoded.length < 2 + crcSize then .error (.runtimeError "Block::decode: data too short")
  else
    let bodySize := encoded.length - crcSize
    let body := encoded.take bodySize
    if withHash ∧ crc32Compute body ≠ ofLe (encoded.drop bodySize) then
      .error (.runtimeError "Block::decode: CRC32 mismatch")
    else decodeBody body

def decode (encoded : Bytes) : Except Err RawBlock := decodeWith encoded true

/-- `get_key_at` -/
def getKeyAt (block : RawBlock) (offset : ℕ) : Except Err Bytes :=
  if offset > block.data.length ∨ block.data.length - offset < 2 then
    .error (.runtimeError "Block::get_key_at: Incomplete key length header")
  else
    let keyLen := ofLe ((block.data.drop offset).take 2)
    if keyLen > block.data.length - offset - 2 then
      .error (.runtimeError "Block::get_key_at: Incomplete key")
    else .ok ((block.data.drop (offset + 2)).take keyLen)

/-- `get_value_at` -/
def getValueAt (block : RawBlock) (offset : ℕ) : Except Err Bytes :=
  if offset > block.data.length ∨ block.data.length - offset < 2 then
    .error (.runtimeError "Block::get_value_at: Incomplete key length header")
  else
    let keyLen := ofLe ((block.data.drop offset).take 2)
    if keyLen > block.data.length - offset - 2 then
      .error (.runtimeError "Block::get_value_at: Incomplete key")
    else
      let valLenStart := offset + 2 + keyLen
      if block.data.length - valLenStart < 2 then
        .error (.runtimeError "Block::get_value_at: Incomplete value length header")
      else
        let valLen := ofLe ((block.data.drop valLenStart).take 2)
        if valLen > block.data.length - valLenStart - 2 then
          .error (.runtimeError "Block::get_value_at: Incomplete value")
        else .ok ((block.data.drop (valLenStart + 2)).take valLen)

/-- `get_tranc_id_at` -/
def getTrancIdAt (block : RawBlock) (offset : ℕ) : Except Err ℕ :=
  if offset > block.data.length ∨ block.data.length - offset < 2 then
    .error (.runtimeError "Block::get_tranc_id_at: Incomplete key length header")
  else
    let keyLen := ofLe ((block.data.drop offset).take 2)
    if keyLen > block.data.length - offset - 2 then
      .error (.runtimeError "Block::get_tranc_id_at: Incomplete key")
    else
      let valLenStart := offset + 2 + keyLen
      if block.data.length - valLenStart < 2 then
        .error (.runtimeError "Block::get_tranc_id_at: Incomplete value length header")
      else
        let valLen := ofLe ((block.data.drop valLenStart).take 2)
        if valLen > block.data.length - valLenStart - 2 then
          .error (.runtimeError "Block::get_tranc_id_at: Incomplete value")
        else
          let trancIdStart := valLenStart + valLen + 2
          if block.data.length - trancIdStart < 8 then
            .error (.runtimeError "Block::get_tranc_id_at: Incomplete transaction ID")
          else .ok (ofLe ((block.data.drop trancIdStart).take 8))

/-- The record at an offset. -/
def entryAt (block : RawBlock) (offset : ℕ) : Except Err Entry := do
  let key ← block.getKeyAt offset
  let value ← block.getValueAt offset
  let trancId ← block.getTrancIdAt offset
  return ⟨key, value, trancId⟩

/-- All records, in the order of the offsets. -/
def readEntries (block : RawBlock) : Except Err (List Entry) := block.offsets.mapM block.entryAt

end RawBlock

namespace Block

/-- The offsets of records that start at a position. -/
def offsetsFrom : ℕ → List Entry → List ℕ
  | _, [] => []
  | start, entry :: rest => start :: offsetsFrom (start + entrySize entry) rest

/-- The bytes and offsets that `add_entry` collects. -/
def raw (block : Block) : RawBlock where
  data := block.entries.flatMap encodeEntry
  offsets := offsetsFrom 0 block.entries

/-- The lengths, numbers and offsets of a block have their machine types. -/
structure Encodable (block : Block) : Prop where
  entry : ∀ entry ∈ block.entries, entry.key.length ≤ uint16Max ∧
    entry.value.length ≤ uint16Max ∧ entry.txid < 256 ^ 8
  offset : ∀ offset ∈ offsetsFrom 0 block.entries, offset ≤ uint16Max
  size : block.size ≤ uint16Max

theorem length_offsetsFrom (start : ℕ) (entries : List Entry) :
    (offsetsFrom start entries).length = entries.length := by
  induction entries generalizing start with
  | nil => rfl
  | cons entry rest ih => rw [offsetsFrom, List.length_cons, ih, List.length_cons]

theorem offsetsFrom_append (start : ℕ) (entries : List Entry) (entry : Entry) :
    offsetsFrom start (entries ++ [entry]) =
      offsetsFrom start entries ++ [start + (entries.map entrySize).sum] := by
  induction entries generalizing start with
  | nil => rfl
  | cons head rest ih =>
      rw [List.cons_append, offsetsFrom, ih, offsetsFrom, List.map_cons, List.sum_cons,
        Nat.add_assoc, List.cons_append]

theorem length_data (entries : List Entry) :
    (entries.flatMap encodeEntry).length = (entries.map entrySize).sum := by
  induction entries with
  | nil => rfl
  | cons entry rest ih =>
      rw [List.flatMap_cons, List.length_append, length_encodeEntry, ih, List.map_cons,
        List.sum_cons]

/-! ## Reading a record -/

section

variable {raw : RawBlock} {offset : ℕ} {entry : Entry} {rest : Bytes}

/-- Where the parts of a record are. -/
private theorem drop_encodeEntry (hdata : raw.data.drop offset = encodeEntry entry ++ rest) :
    raw.data.drop (offset + 2) = entry.key ++ (toLe 2 entry.value.length ++
        (entry.value ++ toLe 8 entry.txid)) ++ rest ∧
      raw.data.drop (offset + 2 + entry.key.length) = toLe 2 entry.value.length ++
        (entry.value ++ toLe 8 entry.txid) ++ rest ∧
      raw.data.drop (offset + 2 + entry.key.length + 2) =
        entry.value ++ toLe 8 entry.txid ++ rest ∧
      raw.data.drop (offset + 2 + entry.key.length + entry.value.length + 2) =
        toLe 8 entry.txid ++ rest := by
  have hkey : raw.data.drop (offset + 2) = entry.key ++ (toLe 2 entry.value.length ++
      (entry.value ++ toLe 8 entry.txid)) ++ rest := by
    rw [← List.drop_drop, hdata, encodeEntry, List.append_assoc,
      List.drop_left' (length_toLe _ _)]
  have hsize : raw.data.drop (offset + 2 + entry.key.length) = toLe 2 entry.value.length ++
      (entry.value ++ toLe 8 entry.txid) ++ rest := by
    rw [← List.drop_drop, hkey, List.append_assoc, List.drop_left]
  have hvalue : raw.data.drop (offset + 2 + entry.key.length + 2) =
      entry.value ++ toLe 8 entry.txid ++ rest := by
    rw [← List.drop_drop, hsize, List.append_assoc, List.drop_left' (length_toLe _ _)]
  refine ⟨hkey, hsize, hvalue, ?_⟩
  rw [Nat.add_right_comm, ← List.drop_drop, hvalue, List.append_assoc, List.drop_left]

/-- At its offset a record is read as it was added. -/
theorem entryAt_eq (hdata : raw.data.drop offset = encodeEntry entry ++ rest)
    (hkey : entry.key.length ≤ uint16Max) (hvalue : entry.value.length ≤ uint16Max)
    (htxid : entry.txid < 256 ^ 8) : raw.entryAt offset = .ok entry := by
  obtain ⟨hkeyAt, hsizeAt, hvalueAt, htxidAt⟩ := drop_encodeEntry hdata
  have hlength := congrArg List.length hdata
  rw [List.length_drop, List.length_append, length_encodeEntry, entrySize] at hlength
  have hkeyLen : ofLe ((raw.data.drop offset).take 2) = entry.key.length := by
    rw [hdata, encodeEntry, List.append_assoc, List.take_left' (length_toLe _ _),
      ofLe_toLe (Nat.lt_succ_of_le hkey)]
  have hvalLen : ofLe ((raw.data.drop (offset + 2 + entry.key.length)).take 2) =
      entry.value.length := by
    rw [hsizeAt, List.append_assoc, List.take_left' (length_toLe _ _),
      ofLe_toLe (Nat.lt_succ_of_le hvalue)]
  have hgetKey : raw.getKeyAt offset = .ok entry.key := by
    unfold RawBlock.getKeyAt
    dsimp only
    rw [if_neg (by omega), hkeyLen, if_neg (by omega), hkeyAt, List.append_assoc, List.take_left]
  have hgetValue : raw.getValueAt offset = .ok entry.value := by
    unfold RawBlock.getValueAt
    dsimp only
    rw [if_neg (by omega), hkeyLen, if_neg (by omega), if_neg (by omega), hvalLen,
      if_neg (by omega), hvalueAt, List.append_assoc, List.take_left]
  have hgetTrancId : raw.getTrancIdAt offset = .ok entry.txid := by
    unfold RawBlock.getTrancIdAt
    dsimp only
    rw [if_neg (by omega), hkeyLen, if_neg (by omega), if_neg (by omega), hvalLen,
      if_neg (by omega), if_neg (by omega), htxidAt, List.take_left' (length_toLe _ _),
      ofLe_toLe htxid]
  rw [RawBlock.entryAt, hgetKey, hgetValue, hgetTrancId]
  rfl

end

/-- The records behind a position are read at their offsets. -/
private theorem mapM_entryAt {raw : RawBlock} {start : ℕ} {entries : List Entry}
    (hdata : raw.data.drop start = entries.flatMap encodeEntry)
    (hentries : ∀ entry ∈ entries, entry.key.length ≤ uint16Max ∧
      entry.value.length ≤ uint16Max ∧ entry.txid < 256 ^ 8) :
    (offsetsFrom start entries).mapM raw.entryAt = .ok entries := by
  induction entries generalizing start with
  | nil => rfl
  | cons entry rest ih =>
      obtain ⟨⟨hkey, hvalue, htxid⟩, hrest⟩ := List.forall_mem_cons.mp hentries
      rw [List.flatMap_cons] at hdata
      have hbehind : raw.data.drop (start + entrySize entry) = rest.flatMap encodeEntry := by
        rw [← List.drop_drop, hdata, List.drop_left' (length_encodeEntry entry)]
      rw [offsetsFrom, List.mapM_cons, entryAt_eq hdata hkey hvalue htxid, ih hbehind hrest]
      rfl

theorem Encodable.readEntries {block : Block} (hblock : block.Encodable) :
    block.raw.readEntries = .ok block.entries :=
  mapM_entryAt rfl hblock.entry

/-! ## Round trip -/

private theorem readOffsets_wordsLe {offsets : List ℕ}
    (hoffsets : ∀ offset ∈ offsets, offset ≤ uint16Max) (rest : Bytes) :
    RawBlock.readOffsets offsets.length (wordsLe 2 offsets ++ rest) = offsets := by
  induction offsets with
  | nil => rfl
  | cons offset others ih =>
      obtain ⟨hoffset, hothers⟩ := List.forall_mem_cons.mp hoffsets
      rw [wordsLe, List.flatMap_cons, List.append_assoc, List.length_cons, RawBlock.readOffsets,
        List.take_left' (length_toLe _ _), List.drop_left' (length_toLe _ _),
        ofLe_toLe (Nat.lt_succ_of_le hoffset), ← wordsLe, ih hothers]

theorem length_body (raw : RawBlock) :
    raw.body.length = raw.data.length + 2 * raw.offsets.length + 2 := by
  rw [RawBlock.body, List.length_append, List.length_append, length_wordsLe, length_toLe,
    Nat.add_assoc]

theorem length_encoded (raw : RawBlock) : raw.encoded.length = raw.body.length + 4 := by
  rw [RawBlock.encoded, List.length_append, length_toLe]

theorem decodeBody_body {raw : RawBlock} (hoffsets : ∀ offset ∈ raw.offsets, offset ≤ uint16Max)
    (hmany : raw.offsets.length ≤ uint16Max) : RawBlock.decodeBody raw.body = .ok raw := by
  have hbody := length_body raw
  have hend : raw.body.drop (raw.body.length - 2) = toLe 2 raw.offsets.length := by
    rw [hbody, Nat.add_sub_cancel, RawBlock.body, ← List.append_assoc]
    apply List.drop_left'
    rw [List.length_append, length_wordsLe]
  have hbegin : raw.body.length - 2 - raw.offsets.length * 2 = raw.data.length := by omega
  have hdata : raw.body.take raw.data.length = raw.data := List.take_left
  have hrest : raw.body.drop raw.data.length =
      wordsLe 2 raw.offsets ++ toLe 2 raw.offsets.length := List.drop_left
  unfold RawBlock.decodeBody
  dsimp only
  rw [hend, ofLe_toLe (Nat.lt_succ_of_le hmany), if_neg (by omega), hbegin, hdata, hrest,
    readOffsets_wordsLe hoffsets]

/-- A block is decoded as it was encoded, with the checksum and without it. -/
theorem decodeWith_encoded {raw : RawBlock}
    (hoffsets : ∀ offset ∈ raw.offsets, offset ≤ uint16Max)
    (hmany : raw.offsets.length ≤ uint16Max) (withHash : Bool) :
    RawBlock.decodeWith (if withHash then raw.encoded else raw.body) withHash = .ok raw := by
  have hbody := length_body raw
  unfold RawBlock.decodeWith
  dsimp only
  cases withHash with
  | true =>
      rw [if_pos rfl, if_pos rfl, length_encoded, Nat.add_sub_cancel, RawBlock.encoded,
        List.take_left, List.drop_left, ofLe_toLe (crc32Compute_lt raw.body),
        if_neg (by omega), if_neg (fun h => h.2 rfl), decodeBody_body hoffsets hmany]
  | false =>
      rw [if_neg Bool.false_ne_true, if_neg Bool.false_ne_true, Nat.add_zero, Nat.sub_zero,
        List.take_length, if_neg (by omega), if_neg (fun h => Bool.false_ne_true h.1),
        decodeBody_body hoffsets hmany]

/-- A block is decoded as it was encoded. -/
theorem decode_encoded {raw : RawBlock} (hoffsets : ∀ offset ∈ raw.offsets, offset ≤ uint16Max)
    (hmany : raw.offsets.length ≤ uint16Max) : RawBlock.decode raw.encoded = .ok raw :=
  decodeWith_encoded hoffsets hmany true

theorem length_raw_encoded (block : Block) :
    block.raw.encoded.length = block.encodedLength := by
  have hsize : block.raw.offsets.length = block.size := length_offsetsFrom _ _
  have hdata : block.raw.data.length = block.dataSize := length_data _
  rw [length_encoded, length_body, hdata, hsize, Nat.mul_comm 2, encodedLength]

/-- The byte count of the model is that of the encoding. -/
theorem encodedSize_eq (block : Block) :
    block.encodedSize = block.raw.encode.map List.length := by
  have hsize : block.raw.offsets.length = block.size := length_offsetsFrom _ _
  unfold encodedSize RawBlock.encode RawBlock.encodeWith
  rw [hsize, if_pos rfl]
  split_ifs with hmany
  · rfl
  · rw [Except.map, length_raw_encoded, encodedLength]

/-! ## Blocks of a builder -/

theorem encodable_new (capacity : ℕ) : (new capacity).Encodable where
  entry := List.forall_mem_nil _
  offset := List.forall_mem_nil _
  size := Nat.zero_le _

/-- A record that `add_entry` takes keeps the block encodable. -/
theorem Encodable.add {block block' : Block} (hblock : block.Encodable) {key value : Bytes}
    {trancId : ℕ} {forceWrite : Bool} (htxid : trancId < 256 ^ 8)
    (hadd : block.addEntry key value trancId forceWrite = .ok (some block')) :
    block'.Encodable := by
  unfold addEntry at hadd
  split_ifs at hadd with hlong hfull hoffset hmany
  · cases Except.ok.inj hadd
  · obtain rfl := Option.some.inj (Except.ok.inj hadd)
    constructor
    · refine List.forall_mem_append.mpr ⟨hblock.entry, List.forall_mem_singleton.mpr ?_⟩
      exact ⟨not_lt.mp (not_or.mp hlong).1, not_lt.mp (not_or.mp hlong).2, htxid⟩
    · dsimp only
      rw [offsetsFrom_append, Nat.zero_add]
      exact List.forall_mem_append.mpr
        ⟨hblock.offset, List.forall_mem_singleton.mpr (not_lt.mp hoffset)⟩
    · rw [Block.size, List.length_append]
      exact Nat.lt_of_not_le hmany

end Block

end KopiDb

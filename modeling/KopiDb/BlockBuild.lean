import KopiDb.BlockCodec

/-!
# Building a block

`add_entry` on the bytes and offsets of a block.  Whatever calls a block has seen, it is
encoded and decoded without loss, and the calls that were refused or threw left no trace.
-/

namespace KopiDb

namespace RawBlock

/-- A block without records. -/
def empty : RawBlock := ⟨[], []⟩

/-- `cur_size()` -/
def curSize (block : RawBlock) : ℕ := block.data.length + block.offsets.length * 2 + 2

/-- One call of `add_entry`; the number has 64 bits. -/
structure AddCall where
  entry : Entry
  forceWrite : Bool
  txid_lt : entry.txid < 256 ^ 8

/-- `add_entry`: the block after the call and the outcome. -/
def addEntry (capacity : ℕ) (block : RawBlock) (entry : Entry) (forceWrite : Bool) :
    RawBlock × Except Err Bool :=
  if entry.key.length > uint16Max ∨ entry.value.length > uint16Max then
    (block, .error (.lengthError
      "Block::add_entry: key or value exceeds uint16_t length limit"))
  else if ¬forceWrite ∧ ¬block.offsets.isEmpty ∧
      block.curSize + entrySize entry + 2 > capacity then
    (block, .ok false)
  else if block.data.length > uint16Max then
    (block, .error (.lengthError "Block::add_entry: entry offset exceeds uint16_t limit"))
  else if block.offsets.length ≥ uint16Max then
    (block, .error (.lengthError "Block::add_entry: entry count exceeds uint16_t limit"))
  else
    -- The offset is narrowed to 16 bits, and so are the two lengths.
    (⟨block.data ++ encodeEntry entry, block.offsets ++ [block.data.length % 2 ^ 16]⟩, .ok true)

/-- The call on the block of the model. -/
theorem addEntry_raw (block : Block) (entry : Entry) (forceWrite : Bool) :
    addEntry block.capacity block.raw entry forceWrite =
      match block.addEntry entry.key entry.value entry.txid forceWrite with
      | .error err => (block.raw, .error err)
      | .ok none => (block.raw, .ok false)
      | .ok (some block') => (block'.raw, .ok true) := by
  have hdata : block.raw.data.length = block.dataSize := Block.length_data _
  have hoffsets : block.raw.offsets.length = block.size := Block.length_offsetsFrom _ _
  have hempty : block.raw.offsets.isEmpty = block.isEmpty := by
    obtain ⟨entries, capacity⟩ := block
    cases entries <;> rfl
  have hsize : block.raw.curSize = block.curSize := by
    rw [curSize, hdata, hoffsets, Block.curSize]
  unfold addEntry Block.addEntry
  rw [hdata, hoffsets, hempty, hsize]
  split_ifs with hlong hfull hoffset hmany
  · rfl
  · rfl
  · rfl
  · rfl
  · dsimp only
    have hsmall : block.dataSize < 2 ^ 16 := Nat.lt_succ_of_le (not_lt.mp hoffset)
    rw [Nat.mod_eq_of_lt hsmall, Block.raw, Block.raw, Block.offsetsFrom_append,
      List.flatMap_append, List.flatMap_singleton, Nat.zero_add]
    rfl

/-- A run of calls: the block and the records that were accepted. -/
def addAll (capacity : ℕ) : List AddCall → RawBlock × List Entry → RawBlock × List Entry
  | [], state => state
  | call :: rest, (block, accepted) =>
      let outcome := block.addEntry capacity call.entry call.forceWrite
      addAll capacity rest (outcome.1,
        if outcome.2 = .ok true then accepted ++ [call.entry] else accepted)

/-- What a run of calls keeps: the block holds the accepted records, with lengths, numbers
and offsets of their machine types. -/
def Holds (capacity : ℕ) (state : RawBlock × List Entry) : Prop :=
  state.1 = Block.raw ⟨state.2, capacity⟩ ∧ Block.Encodable ⟨state.2, capacity⟩

theorem holds_empty (capacity : ℕ) : Holds capacity (empty, []) :=
  ⟨rfl, Block.encodable_new capacity⟩

/-- What one call does: it leaves the block alone, or appends the record. -/
theorem Holds.addEntry_cases {capacity : ℕ} {block : RawBlock} {accepted : List Entry}
    (hholds : Holds capacity (block, accepted)) (call : AddCall) :
    ((block.addEntry capacity call.entry call.forceWrite).2 ≠ .ok true ∧
        (block.addEntry capacity call.entry call.forceWrite).1 = block) ∨
      ((block.addEntry capacity call.entry call.forceWrite).2 = .ok true ∧
        Holds capacity ((block.addEntry capacity call.entry call.forceWrite).1,
          accepted ++ [call.entry])) := by
  obtain ⟨hblock, hencodable⟩ := hholds
  dsimp only at hblock hencodable
  have hcall := addEntry_raw ⟨accepted, capacity⟩ call.entry call.forceWrite
  rw [← hblock] at hcall
  rw [hcall]
  cases hadd : (⟨accepted, capacity⟩ : Block).addEntry call.entry.key call.entry.value
      call.entry.txid call.forceWrite with
  | error err => exact Or.inl ⟨by rintro ⟨⟩, rfl⟩
  | ok added =>
      cases added with
      | none => exact Or.inl ⟨fun h => Bool.false_ne_true (Except.ok.inj h), rfl⟩
      | some block' =>
          have hkept := hencodable.add call.txid_lt hadd
          rcases Block.addEntry_eq_ok hadd with ⟨hnone, -⟩ | ⟨hsome, -⟩
          · cases hnone
          · obtain rfl := Option.some.inj hsome
            exact Or.inr ⟨rfl, rfl, hkept⟩

theorem Holds.addAll {capacity : ℕ} (calls : List AddCall) {state : RawBlock × List Entry}
    (hholds : Holds capacity state) : Holds capacity (addAll capacity calls state) := by
  induction calls generalizing state with
  | nil => exact hholds
  | cons call rest ih =>
      obtain ⟨block, accepted⟩ := state
      apply ih
      rcases hholds.addEntry_cases call with ⟨hrefused, hsame⟩ | ⟨haccepted, hnext⟩
      · rw [if_neg hrefused, hsame]
        exact hholds
      · rw [if_pos haccepted]
        exact hnext

theorem Holds.readEntries {capacity : ℕ} {block : RawBlock} {accepted : List Entry}
    (hholds : Holds capacity (block, accepted)) : block.readEntries = .ok accepted := by
  obtain ⟨hblock, hencodable⟩ := hholds
  rw [show block = _ from hblock]
  exact hencodable.readEntries

/-- Accepted records are appended. -/
theorem addEntry_extends {capacity : ℕ} {block : RawBlock} {entry : Entry} {forceWrite : Bool} :
    block.data <+: (block.addEntry capacity entry forceWrite).1.data ∧
      block.offsets <+: (block.addEntry capacity entry forceWrite).1.offsets := by
  unfold addEntry
  split_ifs
  · exact ⟨List.prefix_rfl, List.prefix_rfl⟩
  · exact ⟨List.prefix_rfl, List.prefix_rfl⟩
  · exact ⟨List.prefix_rfl, List.prefix_rfl⟩
  · exact ⟨List.prefix_rfl, List.prefix_rfl⟩
  · exact ⟨List.prefix_append _ _, List.prefix_append _ _⟩

/-- After any calls the block survives its encoding, with the checksum and without it, and
reads back the accepted records; a further call appends its record or changes nothing. -/
theorem block_codec (capacity : ℕ) (calls : List AddCall) :
    let state := addAll capacity calls (empty, [])
    (∀ withHash, ∃ encoded, state.1.encodeWith withHash = .ok encoded ∧
      decodeWith encoded withHash = .ok state.1) ∧
    state.1.readEntries = .ok state.2 ∧
    ∀ call : AddCall,
      let outcome := state.1.addEntry capacity call.entry call.forceWrite
      (outcome.2 ≠ .ok true → outcome.1 = state.1) ∧
      (outcome.2 = .ok true → outcome.1.readEntries = .ok (state.2 ++ [call.entry]) ∧
        state.1.data <+: outcome.1.data ∧ state.1.offsets <+: outcome.1.offsets) := by
  have hholds := (holds_empty capacity).addAll calls
  dsimp only
  generalize addAll capacity calls (empty, []) = state at hholds ⊢
  obtain ⟨block, accepted⟩ := state
  refine ⟨?_, hholds.readEntries, ?_⟩
  · intro withHash
    obtain ⟨hblock, hencodable⟩ := hholds
    have hoffsets : ∀ offset ∈ block.offsets, offset ≤ uint16Max := by
      rw [show block = _ from hblock]
      exact hencodable.offset
    have hmany : block.offsets.length ≤ uint16Max := by
      rw [show block = _ from hblock]
      exact (Block.length_offsetsFrom 0 accepted).le.trans hencodable.size
    refine ⟨_, if_neg (not_lt.mpr hmany), ?_⟩
    exact Block.decodeWith_encoded hoffsets hmany withHash
  · intro call
    rcases hholds.addEntry_cases call with ⟨hrefused, hsame⟩ | ⟨haccepted, hnext⟩
    · exact ⟨fun _ => hsame, fun haccepted => absurd haccepted hrefused⟩
    · exact ⟨fun hrefused => absurd haccepted hrefused,
        fun _ => ⟨hnext.readEntries, addEntry_extends⟩⟩

end RawBlock

end KopiDb

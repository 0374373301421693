import KopiDb.BlockCodec

/-!
# Reads inside a block

The accessors of a block once more, with every read of the data section explicit: a read of
bytes that are not there is an error of its own.  The three accessors of a record check each
length before they use it; `get_first_key` checks nothing.
-/

namespace KopiDb

/-- The bytes `start` to `start + count` of a buffer. -/
def readBytes (data : Bytes) (start count : ℕ) : Except Err Bytes :=
  if start + count ≤ data.length then .ok ((data.drop start).take count)
  else .error .outOfBounds

/-- `a - b` on `size_t`. -/
def sizeSub (a b : ℕ) : ℕ := if b ≤ a then a - b else a + 2 ^ 64 - b

theorem sizeSub_of_le {a b : ℕ} (hle : b ≤ a) : sizeSub a b = a - b := if_pos hle

/-- A call that returns a value with the property, or throws without a read outside. -/
def Inside {α : Type} (property : α → Prop) : Except Err α → Prop
  | .ok value => property value
  | .error err => err ≠ .outOfBounds

theorem Inside.imp {α : Type} {property property' : α → Prop}
    (himp : ∀ value, property value → property' value) {result : Except Err α}
    (hinside : Inside property result) : Inside property' result := by
  cases result with
  | error err => exact hinside
  | ok value => exact himp value hinside

theorem Inside.bind {α β : Type} {property : α → Prop} {property' : β → Prop}
    {first : Except Err α} {rest : α → Except Err β} (hfirst : Inside property first)
    (hrest : ∀ value, property value → Inside property' (rest value)) :
    Inside property' (first >>= rest) := by
  cases first with
  | error err => exact hfirst
  | ok value => exact hrest value hfirst

/-- A read of bytes that are there returns a piece of the buffer. -/
theorem inside_readBytes {data : Bytes} {start count : ℕ} (hle : start + count ≤ data.length) :
    Inside (fun bytes => bytes <:+: data ∧ bytes.length = count)
      (readBytes data start count) := by
  rw [readBytes, if_pos hle]
  refine ⟨(List.take_prefix _ _).isInfix.trans (List.drop_suffix _ _).isInfix, ?_⟩
  rw [List.length_take_of_le]
  rw [List.length_drop]
  omega

namespace RawBlock

/-- What the accessors do first: check the header at the offset and read the length of the
key.  `who` starts the texts of their errors. -/
def readKeyLen (who : String) (block : RawBlock) (offset : ℕ) : Except Err ℕ :=
  if offset > block.data.length ∨ sizeSub block.data.length offset < 2 then
    .error (.runtimeError (who ++ ": Incomplete key length header"))
  else do
    let keyLen := ofLe (← readBytes block.data offset 2)
    if keyLen > sizeSub (sizeSub block.data.length offset) 2 then
      .error (.runtimeError (who ++ ": Incomplete key"))
    else return keyLen

/-- What two of them do next: the place of the length of the value, and the length. -/
def readValLen (who : String) (block : RawBlock) (offset : ℕ) : Except Err (ℕ × ℕ) := do
  let valLenStart := offset + 2 + (← readKeyLen who block offset)
  if sizeSub block.data.length valLenStart < 2 then
    .error (.runtimeError (who ++ ": Incomplete value length header"))
  else do
    let valLen := ofLe (← readBytes block.data valLenStart 2)
    if valLen > sizeSub (sizeSub block.data.length valLenStart) 2 then
      .error (.runtimeError (who ++ ": Incomplete value"))
    else return (valLenStart, valLen)

/-- `get_key_at` -/
def readKeyAt (block : RawBlock) (offset : ℕ) : Except Err Bytes := do
  let keyLen ← readKeyLen "Block::get_key_at" block offset
  readBytes block.data (offset + 2) keyLen

/-- `get_value_at` -/
def readValueAt (block : RawBlock) (offset : ℕ) : Except Err Bytes := do
  let (valLenStart, valLen) ← readValLen "Block::get_value_at" block offset
  readBytes block.data (valLenStart + 2) valLen

/-- `get_tranc_id_at` -/
def readTrancIdAt (block : RawBlock) (offset : ℕ) : Except Err ℕ := do
  let (valLenStart, valLen) ← readValLen "Block::get_tranc_id_at" block offset
  let trancIdStart := valLenStart + valLen + 2
  if sizeSub block.data.length trancIdStart < 8 then
    .error (.runtimeError "Block::get_tranc_id_at: Incomplete transaction ID")
  else return ofLe (← readBytes block.data trancIdStart 8)

/-- `get_first_key` -/
def readFirstKey (block : RawBlock) : Except Err Bytes :=
  if block.data.isEmpty ∨ block.offsets.isEmpty then .ok []
  else do
    let keyLen := ofLe (← readBytes block.data 0 2)
    readBytes block.data 2 keyLen

section Access

variable (block : RawBlock) (offset : ℕ)

theorem inside_readKeyLen (who : String) :
    Inside (fun keyLen => offset + 2 + keyLen ≤ block.data.length)
      (readKeyLen who block offset) := by
  rw [readKeyLen]
  split_ifs with hheader
  · exact Err.noConfusion
  · rw [not_or, not_lt, not_lt] at hheader
    rw [sizeSub_of_le hheader.1] at hheader ⊢
    refine (inside_readBytes (by omega)).bind fun bytes _ => ?_
    dsimp only
    rw [sizeSub_of_le hheader.2]
    split_ifs with hkey
    · exact Err.noConfusion
    · change offset + 2 + ofLe bytes ≤ block.data.length
      omega

theorem inside_readValLen (who : String) :
    Inside (fun found => found.1 + 2 + found.2 ≤ block.data.length)
      (readValLen who block offset) := by
  refine (inside_readKeyLen block offset who).bind fun keyLen hkeyLen => ?_
  change Inside _ (if sizeSub block.data.length (offset + 2 + keyLen) < 2 then _ else _)
  rw [sizeSub_of_le hkeyLen]
  split_ifs with hheader
  · exact Err.noConfusion
  · rw [not_lt] at hheader
    refine (inside_readBytes (by omega)).bind fun bytes _ => ?_
    dsimp only
    rw [sizeSub_of_le hheader]
    split_ifs with hvalue
    · exact Err.noConfusion
    · change offset + 2 + keyLen + 2 + ofLe bytes ≤ block.data.length
      omega

theorem inside_readKeyAt : Inside (fun key => key <:+: block.data) (block.readKeyAt offset) :=
  (inside_readKeyLen block offset _).bind fun _ hkeyLen =>
    (inside_readBytes hkeyLen).imp fun _ hbytes => hbytes.1

theorem inside_readValueAt :
    Inside (fun value => value <:+: block.data) (block.readValueAt offset) :=
  (inside_readValLen block offset _).bind fun _ hfound =>
    (inside_readBytes hfound).imp fun _ hbytes => hbytes.1

theorem inside_readTrancIdAt :
    Inside (fun trancId => ∃ bytes, bytes <:+: block.data ∧ bytes.length = 8 ∧
      trancId = ofLe bytes) (block.readTrancIdAt offset) := by
  refine (inside_readValLen block offset _).bind fun found hfound => ?_
  obtain ⟨valLenStart, valLen⟩ := found
  dsimp only at hfound ⊢
  rw [sizeSub_of_le (by omega)]
  split_ifs with hnumber
  · exact Err.noConfusion
  · exact (inside_readBytes (by omega)).bind fun bytes hbytes => ⟨bytes, hbytes.1, hbytes.2, rfl⟩

/-- The checks of the accessors as the codec has them. -/
private theorem readKeyLen_eq (who : String) :
    readKeyLen who block offset =
      if offset > block.data.length ∨ block.data.length - offset < 2 then
        .error (.runtimeError (who ++ ": Incomplete key length header"))
      else if ofLe ((block.data.drop offset).take 2) > block.data.length - offset - 2 then
        .error (.runtimeError (who ++ ": Incomplete key"))
      else .ok (ofLe ((block.data.drop offset).take 2)) := by
  rw [readKeyLen]
  by_cases houtside : offset > block.data.length
  · rw [if_pos (Or.inl houtside), if_pos (Or.inl houtside)]
  · rw [not_lt] at houtside
    rw [sizeSub_of_le houtside]
    split_ifs with hheader hkey
    · rfl
    · rw [not_or, not_lt, not_lt] at hheader
      rw [readBytes, if_pos (by omega), sizeSub_of_le hheader.2]
      exact if_pos hkey
    · rw [not_or, not_lt, not_lt] at hheader
      rw [readBytes, if_pos (by omega), sizeSub_of_le hheader.2]
      exact if_neg hkey

theorem readKeyAt_eq : block.readKeyAt offset = block.getKeyAt offset := by
  rw [readKeyAt, readKeyLen_eq, getKeyAt]
  dsimp only
  split_ifs with hheader hkey
  · rfl
  · rfl
  · rw [not_or, not_lt, not_lt] at hheader
    exact if_pos (by omega)

/-- The place and the length of a value as the codec finds them. -/
private theorem readValLen_bind {α : Type} (who : String) (rest : ℕ × ℕ → Except Err α) :
    (readValLen who block offset >>= rest) =
      if offset > block.data.length ∨ block.data.length - offset < 2 then
        .error (.runtimeError (who ++ ": Incomplete key length header"))
      else
        let keyLen := ofLe ((block.data.drop offset).take 2)
        if keyLen > block.data.length - offset - 2 then
          .error (.runtimeError (who ++ ": Incomplete key"))
        else
          let valLenStart := offset + 2 + keyLen
          if block.data.length - valLenStart < 2 then
            .error (.runtimeError (who ++ ": Incomplete value length header"))
          else
            let valLen := ofLe ((block.data.drop valLenStart).take 2)
            if valLen > block.data.length - valLenStart - 2 then
              .error (.runtimeError (who ++ ": Incomplete value"))
            else rest (valLenStart, valLen) := by
  rw [readValLen, readKeyLen_eq]
  dsimp only
  split_ifs with hheader hkey hsize hvalue
  · rfl
  · rfl
  all_goals
    rw [not_or, not_lt, not_lt] at hheader
    have hle : offset + 2 + ofLe ((block.data.drop offset).take 2) ≤ block.data.length := by
      omega
    change ((if sizeSub block.data.length (offset + 2 + ofLe ((block.data.drop offset).take 2)) <
      2 then _ else _) >>= rest) = _
    rw [sizeSub_of_le hle]
  · rw [if_pos hsize]
    rfl
  · rw [if_neg hsize, readBytes, if_pos (by omega), sizeSub_of_le (not_lt.mp hsize)]
    change ((if ofLe _ > _ then _ else _) >>= rest) = _
    rw [if_pos hvalue]
    rfl
  · rw [if_neg hsize, readBytes, if_pos (by omega), sizeSub_of_le (not_lt.mp hsize)]
    change ((if ofLe _ > _ then _ else _) >>= rest) = _
    rw [if_neg hvalue]
    rfl

theorem readValueAt_eq : block.readValueAt offset = block.getValueAt offset := by
  rw [readValueAt, readValLen_bind, getValueAt]
  dsimp only
  split_ifs with hheader hkey hsize hvalue
  · rfl
  · rfl
  · rfl
  · rfl
  · rw [not_or, not_lt, not_lt] at hheader
    exact if_pos (by omega)

theorem readTrancIdAt_eq : block.readTrancIdAt offset = block.getTrancIdAt offset := by
  rw [readTrancIdAt, readValLen_bind, getTrancIdAt]
  dsimp only
  apply ite_congr rfl (fun _ => rfl)
  intro hheader
  apply ite_congr rfl (fun _ => rfl)
  intro hkey
  apply ite_congr rfl (fun _ => rfl)
  intro hsize
  apply ite_congr rfl (fun _ => rfl)
  intro hvalue
  rw [not_or, not_lt, not_lt] at hheader
  rw [sizeSub_of_le (by omega)]
  apply ite_congr rfl (fun _ => rfl)
  intro hnumber
  rw [readBytes, if_pos (by omega)]
  rfl

/-- The first key lies inside the data section, where there is one to read. -/
def FirstKeyFits (block : RawBlock) : Prop :=
  block.data = [] ∨ block.offsets = [] ∨
    2 ≤ block.data.length ∧ 2 + ofLe (block.data.take 2) ≤ block.data.length

theorem inside_readFirstKey_iff :
    Inside (fun key => key <:+: block.data) block.readFirstKey ↔ block.FirstKeyFits := by
  rw [readFirstKey, FirstKeyFits]
  by_cases hempty : block.data = [] ∨ block.offsets = []
  · rw [if_pos (by simpa only [List.isEmpty_iff] using hempty)]
    constructor
    · rintro -
      exact hempty.imp_right Or.inl
    · rintro -
      exact List.nil_infix
  · rw [if_neg (by simpa only [List.isEmpty_iff] using hempty)]
    rw [not_or] at hempty
    constructor
    · intro hinside
      by_cases hheader : 2 ≤ block.data.length
      · rw [readBytes, if_pos (by omega)] at hinside
        change Inside _ (readBytes block.data 2 (ofLe (block.data.take 2))) at hinside
        by_cases hkey : 2 + ofLe (block.data.take 2) ≤ block.data.length
        · exact Or.inr (Or.inr ⟨hheader, hkey⟩)
        · rw [readBytes, if_neg hkey] at hinside
          exact absurd rfl hinside
      · rw [readBytes, if_neg (by omega)] at hinside
        exact absurd rfl hinside
    · rintro (hdata | hoffsets | ⟨hheader, hkey⟩)
      · exact absurd hdata hempty.1
      · exact absurd hoffsets hempty.2
      · rw [readBytes, if_pos (by omega)]
        exact (inside_readBytes hkey).imp fun _ hbytes => hbytes.1

end Access

/-- No accessor of the block reads outside the data section. -/
structure AccessInside (block : RawBlock) : Prop where
  firstKey : Inside (fun key => key <:+: block.data) block.readFirstKey
  keyAt : ∀ offset ∈ block.offsets, Inside (fun key => key <:+: block.data)
    (block.readKeyAt offset)
  valueAt : ∀ offset ∈ block.offsets, Inside (fun value => value <:+: block.data)
    (block.readValueAt offset)
  trancIdAt : ∀ offset ∈ block.offsets, Inside (fun trancId => ∃ bytes, bytes <:+: block.data ∧
    bytes.length = 8 ∧ trancId = ofLe bytes) (block.readTrancIdAt offset)

/-- The accessors of a decoded block stay inside the data section exactly where the first key
does: the accessors at an offset check every length, `get_first_key` none. -/
theorem accessInside_iff {encoded : Bytes} {withHash : Bool} {block : RawBlock}
    (_hdecode : decodeWith encoded withHash = .ok block) :
    block.AccessInside ↔ block.FirstKeyFits := by
  rw [← inside_readFirstKey_iff]
  constructor
  · exact AccessInside.firstKey
  · intro hfirst
    exact ⟨hfirst, fun offset _ => block.inside_readKeyAt offset,
      fun offset _ => block.inside_readValueAt offset,
      fun offset _ => block.inside_readTrancIdAt offset⟩

/-- A data section that holds the length of a key and not the key. -/
theorem firstKey_outside : ¬ ∀ (encoded : Bytes) (block : RawBlock),
    decodeWith encoded false = .ok block → block.AccessInside := by
  intro hclaim
  have hfirst := (hclaim [5, 0, 0, 0, 1, 0] ⟨[5, 0], [0]⟩ rfl).firstKey
  rw [show readFirstKey ⟨[5, 0], [0]⟩ = .error .outOfBounds from rfl] at hfirst
  exact hfirst rfl

theorem accessInside_sample :
    decodeWith [1, 0, 7, 0, 0, 1, 0] false = .ok ⟨[1, 0, 7], [0]⟩ ∧
      AccessInside ⟨[1, 0, 7], [0]⟩ := by
  refine ⟨rfl, ?_⟩
  apply (accessInside_iff (show decodeWith [1, 0, 7, 0, 0, 1, 0] false = .ok ⟨[1, 0, 7], [0]⟩
    from rfl)).mpr
  exact Or.inr (Or.inr ⟨by decide, by decide⟩)

end RawBlock

end KopiDb

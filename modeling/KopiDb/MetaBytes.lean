import KopiDb.SectionCodec

/-!
# What the decoder of the meta section accepts

The hash covers the entries and not their number, and the loop reads as many entries as the
number says.  A section is read back where its entries, cut by their own length fields, are
as many as it stores; otherwise the loop stops short of the hash, or runs into it.
-/

namespace KopiDb

namespace BlockMeta

/-- An offset and keys that fit their fields. -/
structure Fits (located : ℕ × BlockMeta) : Prop where
  offset : located.1 < 256 ^ 4
  firstKey : located.2.firstKey.length ≤ uint16Max
  lastKey : located.2.lastKey.length ≤ uint16Max

theorem takeBytes_eq_ok_iff {count : ℕ} {input bytes rest : Bytes} :
    takeBytes count input = .ok (bytes, rest) ↔ bytes.length = count ∧ input = bytes ++ rest := by
  constructor
  · intro htake
    rw [takeBytes] at htake
    split_ifs at htake with hshort
    cases htake
    exact ⟨List.length_take_of_le (not_lt.mp hshort), (List.take_append_drop count input).symm⟩
  · rintro ⟨hlength, rfl⟩
    exact takeBytes_append hlength rest

theorem takeBytes_cases (count : ℕ) (input : Bytes) :
    takeBytes count input = .error .outOfBounds ∨
      ∃ bytes rest, takeBytes count input = .ok (bytes, rest) := by
  rw [takeBytes]
  split_ifs with hshort
  · exact Or.inl rfl
  · exact Or.inr ⟨_, _, rfl⟩

/-- A read in front of the rest of the loop. -/
private theorem takeBytes_bind {α : Type} {count : ℕ} {input : Bytes}
    {rest : Bytes × Bytes → Except Err α} {value : α}
    (hread : (takeBytes count input >>= rest) = .ok value) :
    ∃ bytes behind, bytes.length = count ∧ input = bytes ++ behind ∧
      rest (bytes, behind) = .ok value := by
  rcases takeBytes_cases count input with htake | ⟨bytes, behind, htake⟩
  · rw [htake] at hread
    cases hread
  · rw [htake] at hread
    obtain ⟨hlength, hinput⟩ := takeBytes_eq_ok_iff.mp htake
    exact ⟨bytes, behind, hlength, hinput, hread⟩

private theorem ofLe_le_uint16Max {bytes : Bytes} (hlength : bytes.length = 2) :
    ofLe bytes ≤ uint16Max := by
  have hlt := ofLe_lt bytes
  rw [hlength] at hlt
  exact Nat.le_of_lt_succ hlt

/-- One turn of the loop reads the encoding of one entry. -/
theorem decodeEntries_succ {count : ℕ} {input : Bytes} {metas : List (ℕ × BlockMeta)}
    (hread : decodeEntries (count + 1) input = .ok metas) :
    ∃ located others rest, metas = located :: others ∧ Fits located ∧
      input = encodeOne located ++ rest ∧ decodeEntries count rest = .ok others := by
  obtain ⟨offset, _, hoffset, hinput, hreadFirstLength⟩ := takeBytes_bind hread
  obtain ⟨firstLength, _, hfirstLength, rfl, hreadFirst⟩ := takeBytes_bind hreadFirstLength
  obtain ⟨firstKey, _, hfirst, rfl, hreadLastLength⟩ := takeBytes_bind hreadFirst
  obtain ⟨lastLength, _, hlastLength, rfl, hreadLast⟩ := takeBytes_bind hreadLastLength
  obtain ⟨lastKey, rest, hlast, rfl, hreadRest⟩ := takeBytes_bind hreadLast
  dsimp only at hreadRest
  cases hothers : decodeEntries count rest with
  | error err =>
      rw [hothers] at hreadRest
      cases hreadRest
  | ok others =>
      rw [hothers] at hreadRest
      cases hreadRest
      refine ⟨_, others, rest, rfl, ⟨?_, ?_, ?_⟩, ?_, hothers⟩
      · exact hoffset ▸ ofLe_lt offset
      · exact hfirst.trans_le (ofLe_le_uint16Max hfirstLength)
      · exact hlast.trans_le (ofLe_le_uint16Max hlastLength)
      · rw [hinput, encodeOne, toLe_ofLe_of_length hoffset, hfirst,
          toLe_ofLe_of_length hfirstLength, hlast, toLe_ofLe_of_length hlastLength]
        simp only [List.append_assoc]

/-- The loop returns entries exactly where their encodings start the input, as many as asked
for; it reads past the end everywhere else. -/
theorem decodeEntries_eq_ok_iff {count : ℕ} {input : Bytes} {metas : List (ℕ × BlockMeta)} :
    decodeEntries count input = .ok metas ↔
      (∀ located ∈ metas, Fits located) ∧ metas.length = count ∧
        metas.flatMap encodeOne <+: input := by
  constructor
  · intro hread
    induction count generalizing input metas with
    | zero =>
        cases hread
        exact ⟨List.forall_mem_nil _, rfl, List.nil_prefix⟩
    | succ count ih =>
        obtain ⟨located, others, rest, rfl, hfits, rfl, hothers⟩ := decodeEntries_succ hread
        obtain ⟨hall, hlength, hstart⟩ := ih hothers
        refine ⟨List.forall_mem_cons.mpr ⟨hfits, hall⟩, congrArg (· + 1) hlength, ?_⟩
        rw [List.flatMap_cons]
        exact (List.prefix_append_right_inj _).mpr hstart
  · rintro ⟨hall, rfl, rest, rfl⟩
    exact decodeEntries_append (fun located hmem => (hall located hmem).offset)
      (fun located hmem => ⟨(hall located hmem).firstKey, (hall located hmem).lastKey⟩) rest

theorem decodeEntries_error {count : ℕ} {input : Bytes} {err : Err}
    (hread : decodeEntries count input = .error err) : err = .outOfBounds := by
  have hbind {α : Type} {count : ℕ} {input : Bytes} {rest : Bytes × Bytes → Except Err α}
      (hrest : ∀ bytes behind, rest (bytes, behind) = .error err → err = .outOfBounds)
      (hread : (takeBytes count input >>= rest) = .error err) : err = .outOfBounds := by
    rcases takeBytes_cases count input with htake | ⟨bytes, behind, htake⟩
    · rw [htake] at hread
      cases hread
      rfl
    · rw [htake] at hread
      exact hrest bytes behind hread
  induction count generalizing input with
  | zero => cases hread
  | succ count ih =>
      refine hbind (fun offset _ => ?_) hread
      refine hbind fun firstLength _ => ?_
      refine hbind fun firstKey _ => ?_
      refine hbind fun lastLength _ => ?_
      refine hbind fun lastKey rest hread => ?_
      dsimp only at hread
      cases hothers : decodeEntries count rest with
      | error err' =>
          rw [hothers] at hread
          cases hread
          exact ih hothers
      | ok others =>
          rw [hothers] at hread
          cases hread

/-! ## The number of entries that a section holds -/

/-- The bytes of the entry at the start of a section, by its own length fields. -/
def entryLength? (entries : Bytes) : Option ℕ :=
  let firstLength := ofLe ((entries.drop 4).take 2)
  let lastLength := ofLe ((entries.drop (6 + firstLength)).take 2)
  if entries.length < 8 + firstLength + lastLength then none
  else some (8 + firstLength + lastLength)

/-- A section is as many entries as the number says, and nothing else. -/
def holdsEntries : ℕ → Bytes → Bool
  | 0, entries => entries.isEmpty
  | count + 1, entries =>
      match entryLength? entries with
      | none => false
      | some length => holdsEntries count (entries.drop length)

theorem length_encodeOne (located : ℕ × BlockMeta) : (encodeOne located).length =
    8 + located.2.firstKey.length + located.2.lastKey.length := by
  simp only [encodeOne, List.length_append, length_toLe]
  omega

/-- An entry that is whole is the encoding of one. -/
theorem entryLength?_eq_some_iff {entries : Bytes} {length : ℕ} :
    entryLength? entries = some length ↔
      ∃ located, Fits located ∧ (encodeOne located).length = length ∧
        encodeOne located <+: entries := by
  constructor
  · intro hlength
    unfold entryLength? at hlength
    dsimp only at hlength
    split_ifs at hlength with hshort
    rw [not_lt] at hshort
    cases hlength
    have hpair (start : ℕ) (hle : start + 2 ≤ entries.length) :
        ((entries.drop start).take 2).length = 2 := by
      rw [List.length_take_of_le]
      rw [List.length_drop]
      omega
    have hfirst := hpair 4 (by omega)
    generalize hfirstLength : ofLe ((entries.drop 4).take 2) = firstLength at *
    have hlast := hpair (6 + firstLength) (by omega)
    generalize hlastLength : ofLe ((entries.drop (6 + firstLength)).take 2) = lastLength at *
    have hfirstKey : ((entries.drop 6).take firstLength).length = firstLength := by
      rw [List.length_take_of_le]
      rw [List.length_drop]
      omega
    have hlastKey : ((entries.drop (8 + firstLength)).take lastLength).length = lastLength := by
      rw [List.length_take_of_le]
      rw [List.length_drop]
      omega
    have hoffset : (entries.take 4).length = 4 := List.length_take_of_le (by omega)
    refine ⟨(ofLe (entries.take 4), ⟨(entries.drop 6).take firstLength,
      (entries.drop (8 + firstLength)).take lastLength⟩), ⟨?_, ?_, ?_⟩, ?_, ?_⟩
    · exact (ofLe_lt (entries.take 4)).trans_eq (by rw [hoffset])
    · rw [hfirstKey, ← hfirstLength]
      exact ofLe_le_uint16Max hfirst
    · rw [hlastKey, ← hlastLength]
      exact ofLe_le_uint16Max hlast
    · rw [length_encodeOne, hfirstKey, hlastKey]
    · have hpieces : entries.take (4 + (2 + (firstLength + (2 + lastLength)))) =
          encodeOne (ofLe (entries.take 4), ⟨(entries.drop 6).take firstLength,
            (entries.drop (8 + firstLength)).take lastLength⟩) := by
        rw [encodeOne, toLe_ofLe_of_length hoffset, hfirstKey, ← hfirstLength,
          toLe_ofLe_of_length hfirst, hfirstLength, hlastKey, ← hlastLength,
          toLe_ofLe_of_length hlast, hlastLength]
        simp only [List.take_add, List.drop_drop, Nat.reduceAdd]
        rw [show 6 + firstLength + 2 = 8 + firstLength by omega]
      rw [← hpieces]
      exact List.take_prefix _ _
  · rintro ⟨located, hfits, rfl, rest, rfl⟩
    have hfirst : ((encodeOne located ++ rest).drop 4).take 2 =
        toLe 2 located.2.firstKey.length := by
      rw [encodeOne, List.append_assoc, List.drop_left' (length_toLe _ _)]
      simp only [List.append_assoc]
      exact List.take_left' (length_toLe _ _)
    have hlast : ((encodeOne located ++ rest).drop (6 + located.2.firstKey.length)).take 2 =
        toLe 2 located.2.lastKey.length := by
      rw [show 6 + located.2.firstKey.length = 4 + (2 + located.2.firstKey.length) by omega,
        ← List.drop_drop, encodeOne, List.append_assoc, List.drop_left' (length_toLe _ _),
        ← List.drop_drop]
      simp only [List.append_assoc]
      rw [List.drop_left' (length_toLe _ _), List.drop_left]
      exact List.take_left' (length_toLe _ _)
    have hfirstLength := ofLe_toLe (show _ < 256 ^ 2 from Nat.lt_succ_of_le hfits.firstKey)
    have hlastLength := ofLe_toLe (show _ < 256 ^ 2 from Nat.lt_succ_of_le hfits.lastKey)
    have hlength := length_encodeOne located
    unfold entryLength?
    dsimp only
    rw [hfirst, hfirstLength, hlast, hlastLength, List.length_append, if_neg (by omega), hlength]

/-- A section holds the entries whose encodings make it up. -/
theorem holdsEntries_iff {count : ℕ} {entries : Bytes} :
    holdsEntries count entries = true ↔
      ∃ metas : List (ℕ × BlockMeta), (∀ located ∈ metas, Fits located) ∧
        metas.length = count ∧ metas.flatMap encodeOne = entries := by
  induction count generalizing entries with
  | zero =>
      rw [holdsEntries, List.isEmpty_iff]
      constructor
      · rintro rfl
        exact ⟨[], List.forall_mem_nil _, rfl, rfl⟩
      · rintro ⟨metas, _, hlength, rfl⟩
        rw [List.length_eq_zero_iff.mp hlength, List.flatMap_nil]
  | succ count ih =>
      rw [holdsEntries]
      constructor
      · intro hholds
        cases hentry : entryLength? entries with
        | none =>
            rw [hentry] at hholds
            cases hholds
        | some length =>
            rw [hentry] at hholds
            obtain ⟨located, hfits, rfl, rest, rfl⟩ := entryLength?_eq_some_iff.mp hentry
            dsimp only at hholds
            rw [List.drop_left] at hholds
            obtain ⟨metas, hall, hlength, rfl⟩ := ih.mp hholds
            exact ⟨located :: metas, List.forall_mem_cons.mpr ⟨hfits, hall⟩,
              congrArg (· + 1) hlength, List.flatMap_cons⟩
      · rintro ⟨metas, hall, hlength, rfl⟩
        obtain ⟨located, others, rfl⟩ := List.exists_cons_of_length_eq_add_one hlength
        obtain ⟨hfits, hothers⟩ := List.forall_mem_cons.mp hall
        rw [List.flatMap_cons, entryLength?_eq_some_iff.mpr
          ⟨located, hfits, rfl, List.prefix_append _ _⟩]
        dsimp only
        rw [List.drop_left]
        exact ih.mpr ⟨others, hothers, Nat.succ.inj hlength, rfl⟩

/-! ## Decoding any bytes -/

/-- The decoder throws without a read outside the bytes, or returns entries that encode to
just these bytes. -/
def DecodesExactly (stdHash : Bytes → ℕ) (metadata : Bytes) : Prop :=
  match decodeMetaFromSlice stdHash metadata with
  | .ok metas => encodeMetaToSlice stdHash metas = metadata
  | .error err => err ≠ .outOfBounds

/-- The part of a section that the hash covers. -/
def entriesOf (metadata : Bytes) : Bytes := (metadata.drop 4).take (metadata.length - 8)

/-- The stored hash is that of the entries. -/
def HashMatches (stdHash : Bytes → ℕ) (metadata : Bytes) : Prop :=
  stdHash (entriesOf metadata) % 2 ^ 32 = ofLe ((metadata.drop (metadata.length - 4)).take 4)

variable {stdHash : Bytes → ℕ} {metadata : Bytes}

theorem decodeMetaFromSlice_eq (hlength : 8 ≤ metadata.length)
    (hhash : HashMatches stdHash metadata) : decodeMetaFromSlice stdHash metadata =
      decodeEntries (ofLe (metadata.take 4)) (metadata.drop 4) := by
  rw [HashMatches, entriesOf] at hhash
  rw [decodeMetaFromSlice, if_neg (by omega)]
  dsimp only
  rw [if_neg]
  rw [hhash, show 4 + (metadata.length - 8) = metadata.length - 4 by omega]
  exact not_not.mpr rfl

/-- A section is its number, its entries and its hash. -/
private theorem metadata_eq (hlength : 8 ≤ metadata.length) : metadata =
    metadata.take 4 ++ (entriesOf metadata ++ (metadata.drop (metadata.length - 4)).take 4) := by
  have hhash : (metadata.drop (metadata.length - 4)).take 4 =
      (metadata.drop 4).drop (metadata.length - 8) := by
    rw [List.drop_drop, show 4 + (metadata.length - 8) = metadata.length - 4 by omega]
    apply List.take_of_length_le
    rw [List.length_drop]
    omega
  rw [hhash, entriesOf, List.take_append_drop, List.take_append_drop]

theorem entriesOf_encode (metas : List (ℕ × BlockMeta)) :
    entriesOf (encodeMetaToSlice stdHash metas) = metas.flatMap encodeOne := by
  rw [entriesOf, length_encodeMetaToSlice, Nat.add_sub_cancel, encodeMetaToSlice,
    List.drop_left' (length_toLe _ _), List.take_left]

theorem hashMatches_encode (metas : List (ℕ × BlockMeta)) :
    HashMatches stdHash (encodeMetaToSlice stdHash metas) := by
  have hbehind : (encodeMetaToSlice stdHash metas).drop
      ((encodeMetaToSlice stdHash metas).length - 4) =
        toLe 4 (stdHash (metas.flatMap encodeOne)) := by
    rw [length_encodeMetaToSlice, show (metas.flatMap encodeOne).length + 8 - 4 =
      4 + (metas.flatMap encodeOne).length by omega, ← List.drop_drop, encodeMetaToSlice,
      List.drop_left' (length_toLe _ _), List.drop_left]
  rw [HashMatches, entriesOf_encode, hbehind, List.take_of_length_le (length_toLe _ _).le,
    ofLe_toLe_mod, show (2 : ℕ) ^ 32 = 256 ^ 4 by decide]

/-- A list of entries is read back where its length fits the number in front of it. -/
theorem decode_encode_iff {metas : List (ℕ × BlockMeta)}
    (hfits : ∀ located ∈ metas, Fits located) :
    decodeMetaFromSlice stdHash (encodeMetaToSlice stdHash metas) = .ok metas ↔
      metas.length < 256 ^ 4 := by
  constructor
  · intro hdecode
    have hlength := length_encodeMetaToSlice stdHash metas
    rw [decodeMetaFromSlice_eq (by omega) (hashMatches_encode metas)] at hdecode
    have hcount := (decodeEntries_eq_ok_iff.mp hdecode).2.1
    rw [encodeMetaToSlice, List.take_left' (length_toLe _ _)] at hcount
    have hlt := ofLe_lt (toLe 4 metas.length)
    rw [length_toLe] at hlt
    exact hcount.trans_lt hlt
  · intro hcount
    exact decodeMeta_encodeMeta ⟨fun located hmem => (hfits located hmem).offset,
      fun located hmem => ⟨(hfits located hmem).firstKey, (hfits located hmem).lastKey⟩, hcount⟩

theorem decodesExactly_of_length_lt (hlength : metadata.length < 8) :
    DecodesExactly stdHash metadata := by
  rw [DecodesExactly, decodeMetaFromSlice, if_pos hlength]
  exact Err.noConfusion

theorem decodesExactly_of_not_hashMatches (hlength : 8 ≤ metadata.length)
    (hhash : ¬ HashMatches stdHash metadata) : DecodesExactly stdHash metadata := by
  rw [HashMatches, entriesOf] at hhash
  rw [DecodesExactly, decodeMetaFromSlice, if_neg (by omega)]
  dsimp only
  rw [show 4 + (metadata.length - 8) = metadata.length - 4 by omega, if_pos hhash]
  exact Err.noConfusion

/-- A section that its own hash confirms is decoded exactly where the stored number is that of
the entries. -/
theorem decodesExactly_iff_of_hashMatches (hlength : 8 ≤ metadata.length)
    (hhash : HashMatches stdHash metadata) : DecodesExactly stdHash metadata ↔
      holdsEntries (ofLe (metadata.take 4)) (entriesOf metadata) = true := by
  rw [DecodesExactly, decodeMetaFromSlice_eq hlength hhash]
  constructor
  · intro hexact
    cases hdecode : decodeEntries (ofLe (metadata.take 4)) (metadata.drop 4) with
    | error err =>
        rw [hdecode] at hexact
        exact absurd (decodeEntries_error hdecode) hexact
    | ok metas =>
        rw [hdecode] at hexact
        change encodeMetaToSlice stdHash metas = metadata at hexact
        obtain ⟨hfits, hcount, _⟩ := decodeEntries_eq_ok_iff.mp hdecode
        have hentries : entriesOf (encodeMetaToSlice stdHash metas) = metas.flatMap encodeOne :=
          entriesOf_encode metas
        rw [hexact] at hentries
        exact holdsEntries_iff.mpr ⟨metas, hfits, hcount, hentries.symm⟩
  · intro hholds
    obtain ⟨metas, hfits, hcount, hentries⟩ := holdsEntries_iff.mp hholds
    have hmetadata := metadata_eq hlength
    rw [← hentries] at hmetadata
    have hnumber : (metadata.take 4).length = 4 := List.length_take_of_le (by omega)
    have hhashLength : ((metadata.drop (metadata.length - 4)).take 4).length = 4 := by
      rw [List.length_take_of_le]
      rw [List.length_drop]
      omega
    have hbehind : metadata.drop 4 = metas.flatMap encodeOne ++
        (metadata.drop (metadata.length - 4)).take 4 := by
      rw [← List.append_right_inj (metadata.take 4), List.take_append_drop]
      exact hmetadata
    rw [decodeEntries_eq_ok_iff.mpr ⟨hfits, hcount, hbehind ▸ List.prefix_append _ _⟩]
    have hstored : toLe 4 (stdHash (metas.flatMap encodeOne)) =
        (metadata.drop (metadata.length - 4)).take 4 := by
      rw [HashMatches, ← hentries] at hhash
      rw [← toLe_ofLe_of_length hhashLength, ← hhash, show (2 : ℕ) ^ 32 = 256 ^ 4 by decide,
        ← ofLe_toLe_mod, toLe_ofLe_of_length (length_toLe _ _)]
    change encodeMetaToSlice stdHash metas = metadata
    rw [encodeMetaToSlice, hcount, toLe_ofLe_of_length hnumber, hstored]
    exact hmetadata.symm

/-- The codec of the meta section: a list of entries that fit is read back where its length
fits the number in front, and any bytes are decoded exactly where a check in front of the loop
refuses them or the stored number, which the hash does not cover, is that of the entries. -/
theorem decode_exact_iff (stdHash : Bytes → ℕ) :
    (∀ metas : List (ℕ × BlockMeta), (∀ located ∈ metas, Fits located) →
      (decodeMetaFromSlice stdHash (encodeMetaToSlice stdHash metas) = .ok metas ↔
        metas.length < 256 ^ 4)) ∧
      ∀ metadata : Bytes, DecodesExactly stdHash metadata ↔
        metadata.length < 8 ∨ ¬ HashMatches stdHash metadata ∨
          holdsEntries (ofLe (metadata.take 4)) (entriesOf metadata) = true := by
  refine ⟨fun metas hfits => decode_encode_iff hfits, fun metadata => ?_⟩
  by_cases hlength : 8 ≤ metadata.length
  · by_cases hhash : HashMatches stdHash metadata
    · rw [decodesExactly_iff_of_hashMatches hlength hhash]
      constructor
      · exact fun hholds => Or.inr (Or.inr hholds)
      · rintro (hshort | hnot | hholds)
        · exact absurd hlength (not_le.mpr hshort)
        · exact absurd hhash hnot
        · exact hholds
    · exact iff_of_true (decodesExactly_of_not_hashMatches hlength hhash) (Or.inr (Or.inl hhash))
  · rw [not_le] at hlength
    exact iff_of_true (decodesExactly_of_length_lt hlength) (Or.inl hlength)

/-- An empty section whose number was changed to one. -/
theorem decode_outside : ¬ ∀ (stdHash : Bytes → ℕ) (metadata : Bytes),
    DecodesExactly stdHash metadata := by
  intro hclaim
  have hexact := hclaim (fun _ => 0) [1, 0, 0, 0, 0, 0, 0, 0]
  rw [DecodesExactly, show decodeMetaFromSlice (fun _ => 0) [1, 0, 0, 0, 0, 0, 0, 0] =
    .error .outOfBounds from rfl] at hexact
  exact hexact rfl

theorem decode_exact_sample :
    decodeMetaFromSlice (fun _ => 7) (encodeMetaToSlice (fun _ => 7) [(0, ⟨[1], [2]⟩)]) =
      .ok [(0, ⟨[1], [2]⟩)] := by
  apply ((decode_exact_iff fun _ => 7).1 _ _).mpr
  · decide
  · rintro located hmem
    rw [List.mem_singleton.mp hmem]
    exact ⟨by decide, by decide, by decide⟩

end BlockMeta

end KopiDb

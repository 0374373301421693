import KopiDb.Scan
import KopiDb.SstOffsets
import KopiDb.TableReads

/-!
# What a table answers

A table made from records in storage order is looked up, described and enumerated: a lookup
finds the record that a search through the added records finds, the meta entries are exact
unless commit markers open the table, and the iterators show what the reader may see.  Lookups
and loops throw on tables whose block section has reached 2^32 bytes.
-/

namespace KopiDb

/-- A table that a builder made from the records. -/
def SST.MadeFrom (config : Config) (hasBloom : Bool) (entries : List Entry) (sst : SST) :
    Prop :=
  ∃ builder, (SSTBuilder.construct config hasBloom).addAll entries = .ok builder ∧
    builder.build sst.sstId = .ok sst

theorem SST.madeFrom_of_build {config : Config} {hasBloom : Bool} {entries : List Entry}
    {builder : SSTBuilder} {sstId : ℕ} {sst : SST}
    (hadd : (SSTBuilder.construct config hasBloom).addAll entries = .ok builder)
    (hbuild : builder.build sstId = .ok sst) : sst.MadeFrom config hasBloom entries := by
  refine ⟨builder, hadd, ?_⟩
  have hid : sst.sstId = sstId := by
    unfold SSTBuilder.build at hbuild
    split at hbuild
    next => cases hbuild
    next =>
        split at hbuild
        next =>
            split_ifs at hbuild
            rw [← Except.ok.inj hbuild]
        next => cases hbuild
  rw [hid]
  exact hbuild

namespace SST.MadeFrom

variable {config : Config} {hasBloom : Bool} {entries : List Entry} {sst : SST}

theorem wellFormed (hmade : sst.MadeFrom config hasBloom entries)
    (hsorted : Versions.Sorted entries) : sst.WellFormed := by
  obtain ⟨builder, hadd, hbuild⟩ := hmade
  exact (((SSTBuilder.holds_construct config hasBloom).addAll hsorted hadd).build hbuild).1

theorem records_eq (hmade : sst.MadeFrom config hasBloom entries)
    (hsorted : Versions.Sorted entries) : sst.records = entries := by
  obtain ⟨builder, hadd, hbuild⟩ := hmade
  exact (((SSTBuilder.holds_construct config hasBloom).addAll hsorted hadd).build hbuild).2.1

theorem entries_ne_nil (hmade : sst.MadeFrom config hasBloom entries)
    (hsorted : Versions.Sorted entries) : entries ≠ [] := by
  rw [← hmade.records_eq hsorted]
  have hsst := hmade.wellFormed hsorted
  obtain ⟨block, hblock⟩ := List.exists_mem_of_ne_nil _ hsst.nonempty
  obtain ⟨entry, hentry⟩ := List.exists_mem_of_ne_nil _ (hsst.blocks_nonempty block hblock)
  exact List.ne_nil_of_mem (List.mem_flatMap.mpr ⟨block, hblock, hentry⟩)

theorem blocksShort (hmade : sst.MadeFrom config hasBloom entries) : sst.BlocksShort := by
  obtain ⟨builder, hadd, hbuild⟩ := hmade
  have hstart : (SSTBuilder.construct config hasBloom).Packs config.lsmBlockSize
      (Packing.ofRun config.lsmBlockSize []) := by
    have hnew := SSTBuilder.packs_new config
    cases hasBloom with
    | true => exact hnew
    | false => exact { hnew with }
  obtain ⟨hpacks, hbounded⟩ := hstart.addAll Packing.bounded_empty hadd
  exact hpacks.blocksShort hbounded hbuild

end SST.MadeFrom

/-! ## Point lookup -/

namespace SST

/-- A lookup that finds nothing leaves the iterator at its end. -/
theorem isEnd_get (sst : SST) (key : Bytes) (trancId : ℕ) (isAborted : ℕ → Bool) :
    (sst.get key trancId isAborted).isEnd =
      (sst.get key trancId isAborted).current?.isNone := by
  unfold SST.get
  split_ifs
  · rfl
  · rfl
  · unfold SstIterator.ofKey
    dsimp only
    cases sst.findBlockIdx key with
    | none => rfl
    | some idx =>
        dsimp only
        split_ifs with hidx hend
        · rfl
        · cases hcurrent : (BlockIterator.ofKey sst.blocks[idx].2 key trancId false
              isAborted).current? with
          | none => exact absurd (BlockIterator.isEnd_iff.mpr hcurrent) hend
          | some entry =>
              symm
              rw [SstIterator.isEnd, Option.isNone_some, SstIterator.current?,
                Chain.current?, Option.bind_some]
              exact congrArg Option.isNone hcurrent
        · rfl

/-- Without commit markers the empty key is in front of every table. -/
theorem get_empty_key {sst : SST} (hsst : sst.WellFormed)
    (hkeys : ∀ entry ∈ sst.records, entry.key ≠ []) (hne : sst.records ≠ []) (trancId : ℕ)
    (isAborted : ℕ → Bool) : (sst.get [] trancId isAborted).current? = none := by
  obtain ⟨entry, hentry⟩ := List.exists_mem_of_ne_nil _ hne
  have hfirst : sst.firstKey ≠ [] := by
    rw [hsst.firstKey_eq]
    exact firstUserKey_ne_nil hentry (hkeys entry hentry)
  rw [SST.get, if_pos (Or.inl (nil_lt_of_ne_nil hfirst))]
  rfl

end SST

/-- Every lookup answers with the first record in file order that has the key and is visible,
and stands at its end exactly when there is none. -/
def SST.LookupsExact (sst : SST) (entries : List Entry) : Prop :=
  ∀ key trancId isAborted, ∃ it, sst.tryGet key trancId isAborted = .ok it ∧
    it.current? = entries.find? (fun entry => decide (entry.key = key) &&
      Versions.visible trancId isAborted entry.txid) ∧
    (it.isEnd ↔ ∀ entry ∈ entries, entry.key = key →
      ¬Versions.visible trancId isAborted entry.txid)

namespace SST.MadeFrom

variable {config : Config} {hasBloom : Bool} {entries : List Entry} {sst : SST}

theorem get_complete (hmade : sst.MadeFrom config hasBloom entries)
    (hsorted : Versions.Sorted entries) (hkeys : ∀ entry ∈ entries, entry.key ≠ [])
    (key : Bytes) (trancId : ℕ) (isAborted : ℕ → Bool) :
    (sst.get key trancId isAborted).current? =
        entries.find? (fun entry => decide (entry.key = key) &&
          Versions.visible trancId isAborted entry.txid) ∧
      ((sst.get key trancId isAborted).isEnd ↔ ∀ entry ∈ entries, entry.key = key →
        ¬Versions.visible trancId isAborted entry.txid) := by
  have hsst := hmade.wellFormed hsorted
  have hrecords := hmade.records_eq hsorted
  have hfind : (sst.get key trancId isAborted).current? =
      entries.find? (fun entry => decide (entry.key = key) &&
        Versions.visible trancId isAborted entry.txid) := by
    by_cases hkey : key = []
    · subst hkey
      have hne := hmade.entries_ne_nil hsorted
      rw [← hrecords] at hkeys hne
      rw [SST.get_empty_key hsst hkeys hne]
      symm
      rw [List.find?_eq_none, ← hrecords]
      intro entry hentry
      simp [hkeys entry hentry]
    · rw [hsst.get_current? hkey, hrecords]
      exact hsorted.read_eq_find? key trancId isAborted
  refine ⟨hfind, ?_⟩
  rw [SST.isEnd_get, hfind, Option.isNone_iff_eq_none, List.find?_eq_none]
  constructor
  · intro hnone entry hentry hkey hvisible
    exact hnone entry hentry (by rw [hkey, hvisible]; simp)
  · intro hnone entry hentry hfound
    rw [Bool.and_eq_true, decide_eq_true_eq] at hfound
    exact hnone entry hentry hfound.1 hfound.2

/-- The last key of a table that has outgrown its offsets is not found any more. -/
theorem tryGet_lastKey (hmade : sst.MadeFrom config hasBloom entries)
    (hsorted : Versions.Sorted entries) (hlarge : 2 ^ 32 ≤ sst.dataLength) (trancId : ℕ)
    (isAborted : ℕ → Bool) :
    sst.tryGet (finalKey entries) trancId isAborted =
      .error (.lengthError "cannot create std::vector larger than max_size()") := by
  have hsst := hmade.wellFormed hsorted
  have hlastKey : sst.lastKey = finalKey entries := by
    rw [hsst.lastKey_eq, hmade.records_eq hsorted]
  rw [← hlastKey]
  exact hsst.tryGet_lastKey hmade.blocksShort (not_lt.mpr hlarge) trancId isAborted

end SST.MadeFrom

/-- All lookups in a table are exact if and only if its block section is below 2^32 bytes. -/
theorem sst_get_complete_iff {config : Config} {hasBloom : Bool} {entries : List Entry}
    {sst : SST} (hmade : sst.MadeFrom config hasBloom entries)
    (hsorted : Versions.Sorted entries) (hkeys : ∀ entry ∈ entries, entry.key ≠ []) :
    sst.LookupsExact entries ↔ sst.dataLength < 2 ^ 32 := by
  constructor
  · intro hexact
    by_contra hlarge
    obtain ⟨it, hget, -⟩ := hexact (finalKey entries) 0 fun _ => false
    rw [hmade.tryGet_lastKey hsorted (not_lt.mp hlarge)] at hget
    cases hget
  · intro hsmall key trancId isAborted
    have haddressable : sst.Addressable := hsmall
    exact ⟨_, haddressable.tryGet key trancId isAborted,
      hmade.get_complete hsorted hkeys key trancId isAborted⟩

/-- Three versions of two keys. -/
theorem sst_get_complete_iff_sample :
    ∃ sst : SST, sst.MadeFrom smallConfig true [⟨[1], [7], 5⟩, ⟨[1], [], 3⟩, ⟨[2], [6], 4⟩] ∧
      sst.LookupsExact [⟨[1], [7], 5⟩, ⟨[1], [], 3⟩, ⟨[2], [6], 4⟩] := by
  obtain ⟨builder, hadd⟩ : ∃ builder, (SSTBuilder.construct smallConfig true).addAll
      [⟨[1], [7], 5⟩, ⟨[1], [], 3⟩, ⟨[2], [6], 4⟩] = .ok builder := ⟨_, rfl⟩
  obtain ⟨sst, hbuild, hlength⟩ : ∃ sst, builder.build 0 = .ok sst ∧ sst.dataLength = 53 := by
    obtain rfl := Except.ok.inj hadd
    exact ⟨_, rfl, rfl⟩
  have hmade := SST.madeFrom_of_build hadd hbuild
  have hsorted : Versions.Sorted
      [(⟨[1], [7], 5⟩ : Entry), ⟨[1], [], 3⟩, ⟨[2], [6], 4⟩] := by
    rw [Versions.Sorted]
    decide
  refine ⟨sst, hmade, (sst_get_complete_iff hmade hsorted (by decide)).mpr ?_⟩
  rw [hlength]
  decide

/-- The builder takes any run of accepted user records whose file can be created. -/
theorem SSTBuilder.exists_build {config : Config} {entries : List Entry} (hne : entries ≠ [])
    (hstrict : Versions.StrictKeys entries) (haccepted : ∀ entry ∈ entries, entry.Accepted)
    (hkeys : ∀ entry ∈ entries, entry.key ≠ []) (hsize : config.lsmBlockSize ≤ uint16Max)
    {sstId : ℕ} (hcreate : config.createFails sstId = false) :
    ∃ builder sst, (SSTBuilder.new config).addAll entries = .ok builder ∧
      builder.build sstId = .ok sst := by
  have hstart : (SSTBuilder.new config).Packs config.lsmBlockSize
      (Packing.ofRun config.lsmBlockSize []) := SSTBuilder.packs_new config
  obtain ⟨builder, hadd, hready, hpacks⟩ := (SSTBuilder.ready_new config).addAll hstart
    hsize haccepted hstrict fun entry hmem => nil_lt_of_ne_nil (hkeys entry hmem)
  rw [List.nil_append] at hpacks
  obtain ⟨sst, hbuild⟩ := hready.build
    (by rw [hpacks.current]; exact Packing.ofRun_current_ne_nil _ hne) hcreate
  exact ⟨builder, sst, hadd, hbuild⟩

/-- The builder takes the four gigabytes of the long stream. -/
theorem longStream_madeFrom : ∃ sst : SST,
    sst.MadeFrom Engine.shippedConfig true Engine.longStream ∧ 2 ^ 32 ≤ sst.dataLength := by
  have hstrict := Engine.longStream_strictKeys
  have hne := Engine.longStream_ne_nil
  have hsize : Engine.shippedConfig.lsmBlockSize ≤ uint16Max := by decide
  have hcreate : Engine.shippedConfig.createFails 0 = false := rfl
  obtain ⟨builder, sst, hadd, hbuild⟩ := SSTBuilder.exists_build hne hstrict
    (fun entry hmem => (Engine.mem_longStream hmem).2.1)
    (fun entry hmem => (Engine.mem_longStream hmem).1) hsize hcreate
  have hmade : sst.MadeFrom Engine.shippedConfig true Engine.longStream :=
    SST.madeFrom_of_build hadd hbuild
  refine ⟨sst, hmade, ?_⟩
  have hrecords := sst.records_le_dataLength
  rw [hmade.records_eq hstrict.sorted] at hrecords
  exact Engine.longStream_length.trans hrecords

/-- A lookup of the last key of the long stream throws. -/
theorem sst_get_throws : ∃ sst : SST,
    sst.MadeFrom Engine.shippedConfig true Engine.longStream ∧
      Versions.Sorted Engine.longStream ∧ (∀ entry ∈ Engine.longStream, entry.key ≠ []) ∧
      sst.tryGet (finalKey Engine.longStream) 0 (fun _ => false) =
        .error (.lengthError "cannot create std::vector larger than max_size()") ∧
      ¬sst.LookupsExact Engine.longStream := by
  obtain ⟨sst, hmade, hlarge⟩ := longStream_madeFrom
  have hsorted := Engine.longStream_strictKeys.sorted
  have hkeys := fun entry hmem => (@Engine.mem_longStream entry hmem).1
  have hthrows := hmade.tryGet_lastKey hsorted hlarge 0 fun _ => false
  refine ⟨sst, hmade, hsorted, hkeys, hthrows, fun hexact => ?_⟩
  obtain ⟨it, hget, -⟩ := hexact (finalKey Engine.longStream) 0 fun _ => false
  rw [hthrows] at hget
  cases hget

/-! ## Layout -/

/-- The blocks hold the records in order without dividing the versions of a key, every meta
entry names the first and the last key of its block, and the bounds of the table are those
of all its records. -/
structure SST.LayoutExact (sst : SST) (entries : List Entry) : Prop where
  records : sst.records = entries
  undivided : (sst.blocks.map fun block => block.2.entries).Pairwise fun left right =>
    ∀ first ∈ left, ∀ second ∈ right, first.key ≠ second.key
  described : ∀ block ∈ sst.blocks,
    block.2.entries.head?.map Version.key = some block.1.firstKey ∧
      block.2.entries.getLast?.map Version.key = some block.1.lastKey
  ascending : (sst.blocks.map Prod.fst).Pairwise fun left right =>
    left.lastKey < right.firstKey
  minTrancId : IsLeast {txid | ∃ entry ∈ entries, entry.txid = txid} sst.minTrancId
  maxTrancId : IsGreatest {txid | ∃ entry ∈ entries, entry.txid = txid} sst.maxTrancId
  firstKey : entries.head?.map Version.key = some sst.firstKey
  lastKey : entries.getLast?.map Version.key = some sst.lastKey

theorem finalKey_eq {entries : List Entry} (hne : entries ≠ []) :
    entries.getLast?.map Version.key = some (finalKey entries) := by
  rw [finalKey, List.getLast?_eq_some_getLast hne]
  rfl

/-- The first user key is the first key of a run that opens with a user key, or has none. -/
theorem firstUserKey_eq_iff {entries : List Entry} (hne : entries ≠ []) :
    entries.head?.map Version.key = some (firstUserKey entries) ↔
      entries.head?.map Version.key ≠ some [] ∨ ∀ entry ∈ entries, entry.key = [] := by
  cases entries with
  | nil => exact absurd rfl hne
  | cons head tail =>
      rw [List.head?_cons, Option.map_some, Option.some.injEq, ne_eq, Option.some.injEq]
      by_cases hhead : head.key = []
      · rw [hhead, eq_comm]
        constructor
        · intro hnone
          right
          intro entry hentry
          by_contra hkey
          exact firstUserKey_ne_nil hentry hkey hnone
        · intro hall
          have hall := hall.resolve_left (not_not_intro rfl)
          by_contra hsome
          obtain ⟨entry, hentry, hkey⟩ := firstUserKey_mem hsome
          exact hsome (hkey.symm.trans (hall entry hentry))
      · have hfirst : firstUserKey (head :: tail) = head.key := by
          rw [firstUserKey, List.map_cons, List.find?_cons_of_pos (by simpa using hhead)]
          rfl
        exact ⟨fun _ => Or.inl hhead, fun _ => hfirst.symm⟩

namespace SSTBuilder

/-- What one record does to the bounds of the numbers. -/
private theorem add_trancIds {builder builder' : SSTBuilder} {key value : Bytes}
    {trancId : ℕ} (hadd : builder.add key value trancId = .ok builder') :
    builder'.minTrancId = min builder.minTrancId trancId ∧
      builder'.maxTrancId = max builder.maxTrancId trancId := by
  unfold SSTBuilder.add at hadd
  dsimp only at hadd
  split at hadd
  next => cases hadd
  next =>
      obtain rfl := Except.ok.inj hadd
      exact ⟨rfl, rfl⟩
  next =>
      split at hadd
      next => cases hadd
      next finished hfinish =>
          obtain ⟨dataLength, rfl⟩ := finishBlock_eq_ok hfinish
          dsimp only at hadd
          split at hadd
          next => cases hadd
          next =>
              obtain rfl := Except.ok.inj hadd
              exact ⟨rfl, rfl⟩

/-- The bounds are reached, by the records or by what the builder started from. -/
private theorem addAll_trancIds {builder builder' : SSTBuilder} {entries : List Entry}
    (hadd : builder.addAll entries = .ok builder') :
    IsLeast (insert builder.minTrancId {txid | ∃ entry ∈ entries, entry.txid = txid})
        builder'.minTrancId ∧
      IsGreatest (insert builder.maxTrancId {txid | ∃ entry ∈ entries, entry.txid = txid})
        builder'.maxTrancId := by
  induction entries generalizing builder with
  | nil =>
      obtain rfl := Except.ok.inj hadd
      simp
  | cons entry rest ih =>
      rw [SSTBuilder.addAll, List.foldlM_cons] at hadd
      cases hstep : builder.add entry.key entry.value entry.txid with
      | error err =>
          rw [hstep] at hadd
          cases hadd
      | ok next =>
          rw [hstep] at hadd
          obtain ⟨hmin, hmax⟩ := add_trancIds hstep
          have hrest := ih hadd
          rw [hmin, hmax] at hrest
          have hset : {txid | ∃ other ∈ entry :: rest, other.txid = txid} =
              insert entry.txid {txid | ∃ other ∈ rest, other.txid = txid} := by
            ext txid
            simp [eq_comm]
          rw [hset]
          refine ⟨⟨?_, ?_⟩, ⟨?_, ?_⟩⟩
          · rcases hrest.1.1 with heq | hmem
            · rcases min_choice builder.minTrancId entry.txid with hleft | hright
              · exact Or.inl (heq.trans hleft)
              · exact Or.inr (Or.inl (heq.trans hright))
            · exact Or.inr (Or.inr hmem)
          · have hle := hrest.1.2 (Set.mem_insert _ _)
            rintro txid (rfl | rfl | hmem)
            · exact hle.trans (min_le_left _ _)
            · exact hle.trans (min_le_right _ _)
            · exact hrest.1.2 (Or.inr hmem)
          · rcases hrest.2.1 with heq | hmem
            · rcases max_choice builder.maxTrancId entry.txid with hleft | hright
              · exact Or.inl (heq.trans hleft)
              · exact Or.inr (Or.inl (heq.trans hright))
            · exact Or.inr (Or.inr hmem)
          · have hle := hrest.2.2 (Set.mem_insert _ _)
            rintro txid (rfl | rfl | hmem)
            · exact (le_max_left _ _).trans hle
            · exact (le_max_right _ _).trans hle
            · exact hrest.2.2 (Or.inr hmem)

private theorem build_trancIds {builder : SSTBuilder} {sstId : ℕ} {sst : SST}
    (hbuild : builder.build sstId = .ok sst) :
    sst.minTrancId = builder.minTrancId ∧ sst.maxTrancId = builder.maxTrancId := by
  unfold SSTBuilder.build at hbuild
  split at hbuild
  next => cases hbuild
  next finished hfinished =>
      have hsame : finished.minTrancId = builder.minTrancId ∧
          finished.maxTrancId = builder.maxTrancId := by
        split_ifs at hfinished
        · obtain rfl := Except.ok.inj hfinished
          exact ⟨rfl, rfl⟩
        · obtain ⟨dataLength, rfl⟩ := finishBlock_eq_ok hfinished
          exact ⟨rfl, rfl⟩
      split at hbuild
      next =>
          split_ifs at hbuild
          rw [← Except.ok.inj hbuild]
          exact hsame
      next => cases hbuild

end SSTBuilder

/-- The bounds of the numbers are those of the records. -/
theorem SST.MadeFrom.trancIds {config : Config} {hasBloom : Bool} {entries : List Entry}
    {sst : SST} (hmade : sst.MadeFrom config hasBloom entries) (hne : entries ≠ [])
    (htxid : ∀ entry ∈ entries, entry.txid < 2 ^ 64) :
    IsLeast {txid | ∃ entry ∈ entries, entry.txid = txid} sst.minTrancId ∧
      IsGreatest {txid | ∃ entry ∈ entries, entry.txid = txid} sst.maxTrancId := by
  obtain ⟨builder, hadd, hbuild⟩ := hmade
  obtain ⟨hleast, hgreatest⟩ := SSTBuilder.addAll_trancIds hadd
  obtain ⟨hmin, hmax⟩ := SSTBuilder.build_trancIds hbuild
  rw [← hmin] at hleast
  rw [← hmax] at hgreatest
  have hstart : (SSTBuilder.construct config hasBloom).minTrancId = 2 ^ 64 - 1 ∧
      (SSTBuilder.construct config hasBloom).maxTrancId = 0 := by
    cases hasBloom <;> exact ⟨rfl, rfl⟩
  rw [hstart.1] at hleast
  rw [hstart.2] at hgreatest
  obtain ⟨entry, hentry⟩ := List.exists_mem_of_ne_nil _ hne
  have hlower := hleast.2 (Or.inr ⟨entry, hentry, rfl⟩)
  have hupper := hgreatest.2 (Or.inr ⟨entry, hentry, rfl⟩)
  have hbound := htxid entry hentry
  refine ⟨⟨?_, fun txid hmem => hleast.2 (Or.inr hmem)⟩,
    ⟨?_, fun txid hmem => hgreatest.2 (Or.inr hmem)⟩⟩
  · rcases hleast.1 with heq | hmem
    · exact ⟨entry, hentry, by omega⟩
    · exact hmem
  · rcases hgreatest.1 with heq | hmem
    · exact ⟨entry, hentry, by omega⟩
    · exact hmem

/-- The meta entry of a block names its first and its last record, unless commit markers
stand in front of user keys. -/
private theorem described_block {sst : SST} (hsst : sst.WellFormed)
    (hopens : sst.records.head?.map Version.key ≠ some [] ∨
      ∀ entry ∈ sst.records, entry.key = []) {idx : ℕ} (hidx : idx < sst.blocks.length) :
    sst.blocks[idx].2.entries.head?.map Version.key = some sst.blocks[idx].1.firstKey ∧
      sst.blocks[idx].2.entries.getLast?.map Version.key =
        some sst.blocks[idx].1.lastKey := by
  obtain ⟨hfirst, hlast⟩ := hsst.described.getElem hidx
  have hfull := hsst.blocks_nonempty _ (List.getElem_mem hidx)
  rw [hfirst, hlast, finalKey_eq hfull]
  refine ⟨?_, rfl⟩
  set behind := (sst.blocks.drop idx).flatMap fun block => block.2.entries with hbehind
  have hcons : behind = sst.blocks[idx].2.entries ++
      (sst.blocks.drop (idx + 1)).flatMap fun block => block.2.entries := by
    rw [hbehind, List.drop_eq_getElem_cons hidx, List.flatMap_cons]
  have hhead : sst.blocks[idx].2.entries.head? = behind.head? := by
    rw [hcons, List.head?_append_of_ne_nil _ hfull]
  have hne : behind ≠ [] := by
    rw [hcons]
    exact List.append_ne_nil_of_left_ne_nil hfull _
  have hsubset : ∀ entry ∈ behind, entry ∈ sst.records := by
    intro entry hentry
    obtain ⟨block, hblock, hmem⟩ := List.mem_flatMap.mp hentry
    exact List.mem_flatMap.mpr ⟨block, List.mem_of_mem_drop hblock, hmem⟩
  rw [hhead, firstUserKey_eq_iff hne]
  rcases hopens with hopens | hall
  · left
    intro hkey
    obtain ⟨entry, hentry, hempty⟩ := Option.map_eq_some_iff.mp hkey
    have hmem := hsubset entry (List.mem_of_mem_head? hentry)
    have hsorted := hsst.sorted
    cases hrecords : sst.records with
    | nil =>
        rw [hrecords] at hmem
        cases hmem
    | cons front rest =>
        rw [hrecords] at hopens hmem hsorted
        have hle : front.key ≤ entry.key := by
          rcases List.mem_cons.mp hmem with rfl | hmem
          · exact le_rfl
          · exact hsorted.key_le hmem
        rw [hempty] at hle
        by_cases hfront : front.key = []
        · exact hopens (congrArg some hfront)
        · exact hle.not_gt (nil_lt_of_ne_nil hfront)
  · right
    exact fun entry hentry => hall entry (hsubset entry hentry)

/-- The layout is exact unless the table opens with commit markers and then holds a user
key: the first key of a block is its first key that is not empty, searched in the following
blocks too. -/
theorem sst_layout_exact_iff {config : Config} {hasBloom : Bool} {entries : List Entry}
    {sst : SST} (hmade : sst.MadeFrom config hasBloom entries)
    (hsorted : Versions.Sorted entries) (htxid : ∀ entry ∈ entries, entry.txid < 2 ^ 64) :
    sst.LayoutExact entries ↔
      entries.head?.map Version.key ≠ some [] ∨ ∀ entry ∈ entries, entry.key = [] := by
  have hsst := hmade.wellFormed hsorted
  have hrecords := hmade.records_eq hsorted
  have hne := hmade.entries_ne_nil hsorted
  constructor
  · intro hexact
    rw [← firstUserKey_eq_iff hne, hexact.firstKey, hsst.firstKey_eq, hrecords]
  · intro hopens
    have hfirst := (firstUserKey_eq_iff hne).mpr hopens
    rw [← hrecords] at hopens
    have hseparated := List.pairwise_map.mp hsst.separated
    obtain ⟨hmin, hmax⟩ := hmade.trancIds hne htxid
    exact
      { records := hrecords
        undivided := hsst.separated.imp fun hbefore first hleft second hright =>
          (hbefore first hleft second hright).ne
        described := by
          intro block hmem
          obtain ⟨idx, hidx, rfl⟩ := List.mem_iff_getElem.mp hmem
          exact described_block hsst hopens hidx
        ascending := by
          rw [List.pairwise_map, List.pairwise_iff_getElem]
          intro left right hleft hright hlt
          have hlast := (described_block hsst hopens hleft).2
          have hfirst := (described_block hsst hopens hright).1
          obtain ⟨last, hlastMem, hlastKey⟩ := Option.map_eq_some_iff.mp hlast
          obtain ⟨first, hfirstMem, hfirstKey⟩ := Option.map_eq_some_iff.mp hfirst
          rw [← hlastKey, ← hfirstKey]
          exact List.pairwise_iff_getElem.mp hseparated left right hleft hright hlt
            last (List.mem_of_getLast? hlastMem) first (List.mem_of_mem_head? hfirstMem)
        minTrancId := hmin
        maxTrancId := hmax
        firstKey := by rw [hfirst, hsst.firstKey_eq, hrecords]
        lastKey := by rw [finalKey_eq hne, hsst.lastKey_eq, hrecords] }

theorem sst_layout_exact_iff_sample :
    ∃ sst : SST, sst.MadeFrom smallConfig true [⟨[1], [7], 5⟩, ⟨[2], [], 3⟩] ∧
      (sst.LayoutExact [⟨[1], [7], 5⟩, ⟨[2], [], 3⟩] ↔
        [(⟨[1], [7], 5⟩ : Entry), ⟨[2], [], 3⟩].head?.map Version.key ≠ some [] ∨
          ∀ entry ∈ [(⟨[1], [7], 5⟩ : Entry), ⟨[2], [], 3⟩], entry.key = []) := by
  obtain ⟨builder, hadd⟩ : ∃ builder, (SSTBuilder.construct smallConfig true).addAll
      [⟨[1], [7], 5⟩, ⟨[2], [], 3⟩] = .ok builder := ⟨_, rfl⟩
  obtain ⟨sst, hbuild⟩ : ∃ sst, builder.build 0 = .ok sst := by
    obtain rfl := Except.ok.inj hadd
    exact ⟨_, rfl⟩
  have hmade := SST.madeFrom_of_build hadd hbuild
  refine ⟨sst, hmade, sst_layout_exact_iff hmade ?_ (by decide)⟩
  rw [Versions.Sorted]
  decide

/-- Four commit markers fill the first block, and the key behind them becomes its first
key. -/
theorem sst_layout_marker_block :
    ∃ sst : SST, sst.MadeFrom smallConfig true
        [⟨[], [], 4⟩, ⟨[], [], 3⟩, ⟨[], [], 2⟩, ⟨[], [], 1⟩, ⟨[1], [7], 3⟩] ∧
      sst.blocks.head? = some (⟨[1], []⟩,
        ⟨[⟨[], [], 4⟩, ⟨[], [], 3⟩, ⟨[], [], 2⟩, ⟨[], [], 1⟩], 64⟩) ∧
      ¬sst.LayoutExact [⟨[], [], 4⟩, ⟨[], [], 3⟩, ⟨[], [], 2⟩, ⟨[], [], 1⟩, ⟨[1], [7], 3⟩] := by
  obtain ⟨builder, hadd⟩ : ∃ builder, (SSTBuilder.construct smallConfig true).addAll
      [⟨[], [], 4⟩, ⟨[], [], 3⟩, ⟨[], [], 2⟩, ⟨[], [], 1⟩, ⟨[1], [7], 3⟩] = .ok builder :=
    ⟨_, rfl⟩
  obtain ⟨sst, hbuild, hfront⟩ : ∃ sst, builder.build 0 = .ok sst ∧
      sst.blocks.head? = some (⟨[1], []⟩,
        ⟨[⟨[], [], 4⟩, ⟨[], [], 3⟩, ⟨[], [], 2⟩, ⟨[], [], 1⟩], 64⟩) := by
    obtain rfl := Except.ok.inj hadd
    exact ⟨_, rfl, rfl⟩
  refine ⟨sst, SST.madeFrom_of_build hadd hbuild, hfront, ?_⟩
  intro hexact
  have hfirst := (hexact.described _ (List.mem_of_mem_head? hfront)).1
  cases hfirst

/-! ## Enumeration -/

/-- Loops over the iterators that `constructed` gives for the two modes show the records as a
reader sees them: every visible record in file order, or of each key the newest one. -/
def LoopsShow {ι : Type} [Cursor ι Entry] (constructed : Bool → Except Err ι)
    (reads : Bool → ι → Except Err Unit) (records : List Entry) (trancId : ℕ)
    (isAborted : ℕ → Bool) : Prop :=
  LoopYields (constructed true) (reads true)
      (records.filter fun entry => Versions.visible trancId isAborted entry.txid) ∧
    ∃ newest, LoopYields (constructed false) (reads false) newest ∧
      Versions.StrictKeys newest ∧ ∀ entry, entry ∈ newest ↔
        Versions.read records entry.key trancId isAborted = some entry

/-- Where the loops come to an end exactly under a condition and take what is shown. -/
theorem loopsShow_iff {ι : Type} [Cursor ι Entry] {constructed : Bool → Except Err ι}
    {reads : Bool → ι → Except Err Unit} {records : List Entry}
    (hsorted : Versions.Sorted records) {trancId : ℕ} {isAborted : ℕ → Bool} {ends : Prop}
    (hloop : ∀ keepAllVersions entries,
      LoopYields (constructed keepAllVersions) (reads keepAllVersions) entries ↔
        ends ∧ entries = Versions.shown trancId isAborted keepAllVersions records) :
    LoopsShow constructed reads records trancId isAborted ↔ ends := by
  constructor
  · rintro ⟨hall, -⟩
    exact ((hloop true _).mp hall).1
  · intro hends
    have hstrict := hsorted.shown_strictKeys trancId isAborted
    refine ⟨(hloop true _).mpr ⟨hends, rfl⟩, _, (hloop false _).mpr ⟨hends, rfl⟩, hstrict, ?_⟩
    intro entry
    rw [hstrict.mem_iff_find?, hsorted.find?_shown]

/-- Loops over the tables of a list, one by one and one after the other. -/
def EnumeratesTables (ssts : List SST) (trancId : ℕ) (isAborted : ℕ → Bool) : Prop :=
  (∀ sst ∈ ssts, LoopsShow (SstIterator.tryBegin sst trancId · isAborted)
    (fun _ => SstIterator.nextReads) sst.records trancId isAborted) ∧
  LoopsShow (ConcactIterator.tryNew ssts trancId · isAborted)
    (ConcactIterator.nextReads trancId · isAborted) (ssts.flatMap SST.records) trancId isAborted

/-- The loops end and show the records as a reader sees them if and only if the block section
of every table is below 2^32 bytes. -/
theorem ssts_enumerated_iff {ssts : List SST}
    (hmade : ∀ sst ∈ ssts, ∃ config hasBloom entries,
      sst.MadeFrom config hasBloom entries ∧ Versions.Sorted entries)
    (hranges : (ssts.map SST.records).Pairwise KeysBefore) (trancId : ℕ)
    (isAborted : ℕ → Bool) :
    EnumeratesTables ssts trancId isAborted ↔ ∀ sst ∈ ssts, sst.dataLength < 2 ^ 32 := by
  have hssts : ∀ sst ∈ ssts, sst.WellFormed ∧ sst.BlocksShort := by
    intro sst hmem
    obtain ⟨config, hasBloom, entries, hsst, hsorted⟩ := hmade sst hmem
    exact ⟨hsst.wellFormed hsorted, hsst.blocksShort⟩
  have hone : ∀ sst ∈ ssts, (LoopsShow (SstIterator.tryBegin sst trancId · isAborted)
      (fun _ => SstIterator.nextReads) sst.records trancId isAborted ↔ sst.Addressable) := by
    intro sst hmem
    obtain ⟨hsst, hshort⟩ := hssts sst hmem
    exact loopsShow_iff hsst.sorted fun keepAllVersions entries => hsst.loopYields_iff hshort
  have hsorted := Engine.sorted_flatMap (fun sst hmem => (hssts sst hmem).1) hranges
  have hall : LoopsShow (ConcactIterator.tryNew ssts trancId · isAborted)
      (ConcactIterator.nextReads trancId · isAborted) (ssts.flatMap SST.records) trancId
        isAborted ↔ ∀ sst ∈ ssts, sst.Addressable :=
    loopsShow_iff hsorted fun keepAllVersions entries =>
      ConcactIterator.loopYields_iff (fun sst hmem => (hssts sst hmem).1)
        (fun sst hmem => (hssts sst hmem).2) hranges
  rw [EnumeratesTables, hall]
  exact ⟨fun hshow => hshow.2, fun hsmall =>
    ⟨fun sst hmem => (hone sst hmem).mpr (hsmall sst hmem), hsmall⟩⟩

/-- No record of the first table is visible. -/
theorem ssts_enumerated_iff_sample :
    ∃ first second : SST, first.records = [⟨[1], [7], 9⟩] ∧
      second.records = [⟨[2], [6], 4⟩, ⟨[2], [], 3⟩] ∧
      EnumeratesTables [first, second] 5 fun _ => false := by
  obtain ⟨builder, hadd⟩ : ∃ builder, (SSTBuilder.construct smallConfig true).addAll
      [⟨[1], [7], 9⟩] = .ok builder := ⟨_, rfl⟩
  obtain ⟨builder', hadd'⟩ : ∃ builder, (SSTBuilder.construct smallConfig true).addAll
      [⟨[2], [6], 4⟩, ⟨[2], [], 3⟩] = .ok builder := ⟨_, rfl⟩
  obtain ⟨first, hfirst, hlength⟩ : ∃ sst, builder.build 0 = .ok sst ∧
      sst.dataLength = 22 := by
    obtain rfl := Except.ok.inj hadd
    exact ⟨_, rfl, rfl⟩
  obtain ⟨second, hsecond, hlength'⟩ : ∃ sst, builder'.build 1 = .ok sst ∧
      sst.dataLength = 37 := by
    obtain rfl := Except.ok.inj hadd'
    exact ⟨_, rfl, rfl⟩
  have hmade := SST.madeFrom_of_build hadd hfirst
  have hmade' := SST.madeFrom_of_build hadd' hsecond
  have hsorted : Versions.Sorted [(⟨[1], [7], 9⟩ : Entry)] := List.pairwise_singleton _ _
  have hsorted' : Versions.Sorted [(⟨[2], [6], 4⟩ : Entry), ⟨[2], [], 3⟩] := by
    rw [Versions.Sorted]
    decide
  have hrecords := hmade.records_eq hsorted
  have hrecords' := hmade'.records_eq hsorted'
  refine ⟨first, second, hrecords, hrecords',
    (ssts_enumerated_iff ?_ ?_ 5 fun _ => false).mpr ?_⟩
  · intro sst hmem
    rcases List.mem_pair.mp hmem with rfl | rfl
    · exact ⟨smallConfig, true, _, hmade, hsorted⟩
    · exact ⟨smallConfig, true, _, hmade', hsorted'⟩
  · rw [List.map_cons, List.map_singleton, hrecords, hrecords', List.pairwise_pair]
    unfold KeysBefore
    decide
  · intro sst hmem
    rcases List.mem_pair.mp hmem with rfl | rfl
    · rw [hlength]
      decide
    · rw [hlength']
      decide

/-- A loop over the table of the long stream throws at its last block. -/
theorem ssts_enumeration_throws : ∃ sst : SST,
    sst.MadeFrom Engine.shippedConfig true Engine.longStream ∧
      Versions.Sorted Engine.longStream ∧ ¬EnumeratesTables [sst] 0 fun _ => false := by
  obtain ⟨sst, hmade, hlarge⟩ := longStream_madeFrom
  have hsorted := Engine.longStream_strictKeys.sorted
  refine ⟨sst, hmade, hsorted, fun hshow => ?_⟩
  have hall := (hshow.1 sst (List.mem_singleton_self sst)).1
  have hloop := ((hmade.wellFormed hsorted).loopYields_iff hmade.blocksShort).mp hall
  exact hloop.1.not_ge hlarge

end KopiDb

import KopiDb.Lib.LittleEndian
import KopiDb.SstContract

/-!
# Values outside the tables

In WiscKey mode the builder moves values above a threshold to a value log and stores a
reference of twelve bytes in their place.  A reader takes every stored value of at least
twelve bytes for a reference.
-/

namespace KopiDb

/-- What the tables use of the value log; the code behind it is open. -/
structure VLog where
  State : Type
  append : State → Bytes → Bytes → State × ℕ
  readValue : State → ℕ → ℕ → Bytes

/-- The reference that stands for a value: where it is and how long it is. -/
def vlogRef (offset size : ℕ) : Bytes := toLe 8 offset ++ toLe 4 size

/-- `resolve_value` of a file in WiscKey mode. -/
def resolveValue (log : VLog) (state : log.State) (rawValue : Bytes) : Bytes :=
  if rawValue = [] then rawValue
  else if rawValue.length < 12 then rawValue
  else log.readValue state (ofLe (rawValue.take 8)) (ofLe ((rawValue.drop 8).take 4))

/-- A record with its value read back. -/
def resolveEntry (log : VLog) (state : log.State) (entry : Entry) : Entry :=
  { entry with value := resolveValue log state entry.value }

/-- Whether the builder moves a value to the log. -/
def separates (threshold : ℕ) (value : Bytes) : Bool :=
  decide (value ≠ [] ∧ threshold > 0 ∧ value.length > threshold)

namespace SSTBuilder

/-- The value that `add` gives to the block in WiscKey mode. -/
def actualValue (log : VLog) (threshold : ℕ) (state : log.State) (key value : Bytes) :
    log.State × Bytes :=
  if separates threshold value then
    let appended := log.append state key value
    (appended.1, vlogRef appended.2 value.length)
  else (state, value)

/-- `add` in WiscKey mode. -/
def addWiscKey (log : VLog) (threshold : ℕ) (building : SSTBuilder × log.State) (entry : Entry) :
    Except Err (SSTBuilder × log.State) :=
  let actual := actualValue log threshold building.2 entry.key entry.value
  match building.1.add entry.key actual.2 entry.txid with
  | .error err => .error err
  | .ok builder => .ok (builder, actual.1)

/-- Add records one after the other in WiscKey mode. -/
def addAllWiscKey (log : VLog) (threshold : ℕ) (building : SSTBuilder × log.State)
    (entries : List Entry) : Except Err (SSTBuilder × log.State) :=
  entries.foldlM (addWiscKey log threshold) building

end SSTBuilder

section

variable {log : VLog} {threshold : ℕ}

/-- The log and the stored records after a run of records. -/
def storeAll (log : VLog) (threshold : ℕ) : log.State → List Entry → log.State × List Entry
  | state, [] => (state, [])
  | state, entry :: rest =>
      let actual := SSTBuilder.actualValue log threshold state entry.key entry.value
      let stored := storeAll log threshold actual.1 rest
      (stored.1, { entry with value := actual.2 } :: stored.2)

/-- At the end the log still answers every reference that it gave out for the records. -/
def Answers (log : VLog) (threshold : ℕ) (final : log.State) : log.State → List Entry → Prop
  | _, [] => True
  | state, entry :: rest =>
      (separates threshold entry.value = true →
        (log.append state entry.key entry.value).2 < 256 ^ 8 ∧
          log.readValue final (log.append state entry.key entry.value).2 entry.value.length =
            entry.value) ∧
      Answers log threshold final
        (SSTBuilder.actualValue log threshold state entry.key entry.value).1 rest

/-- The log happens to hold a value where its own first twelve bytes point. -/
def PointsToItself (log : VLog) (state : log.State) (value : Bytes) : Prop :=
  log.readValue state (ofLe (value.take 8)) (ofLe ((value.drop 8).take 4)) = value

theorem length_vlogRef (offset size : ℕ) : (vlogRef offset size).length = 12 := by
  rw [vlogRef, List.length_append, length_toLe, length_toLe]

/-- A reference leads back to what was appended. -/
theorem resolveValue_vlogRef {state : log.State} {offset size : ℕ} (hoffset : offset < 256 ^ 8)
    (hsize : size < 256 ^ 4) :
    resolveValue log state (vlogRef offset size) = log.readValue state offset size := by
  have hne : vlogRef offset size ≠ [] := by
    rw [← List.length_pos_iff, length_vlogRef]
    exact Nat.succ_pos 11
  have htail : (toLe 4 size).take 4 = toLe 4 size :=
    List.take_of_length_le (length_toLe 4 size).le
  rw [resolveValue, if_neg hne, if_neg (by rw [length_vlogRef]; exact lt_irrefl 12), vlogRef,
    List.take_left' (length_toLe 8 offset), List.drop_left' (length_toLe 8 offset), htail,
    ofLe_toLe hoffset, ofLe_toLe hsize]

/-- An inline value is read as it is unless it is as long as a reference. -/
theorem resolveValue_eq_self {state : log.State} {value : Bytes} :
    resolveValue log state value = value ↔
      (12 ≤ value.length → PointsToItself log state value) := by
  unfold resolveValue
  split_ifs with hempty hshort
  · subst hempty
    exact iff_of_true rfl fun habsurd => absurd habsurd (by decide)
  · exact iff_of_true rfl fun habsurd => absurd habsurd hshort.not_ge
  · exact (imp_iff_right (not_lt.mp hshort)).symm

/-- A table in WiscKey mode is the inline table of the stored records. -/
theorem SSTBuilder.addAllWiscKey_eq_ok {builder builder' : SSTBuilder} {state final : log.State}
    {entries : List Entry}
    (hadd : SSTBuilder.addAllWiscKey log threshold (builder, state) entries =
      .ok (builder', final)) :
    final = (storeAll log threshold state entries).1 ∧
      builder.addAll (storeAll log threshold state entries).2 = .ok builder' := by
  induction entries generalizing builder state with
  | nil =>
      obtain ⟨rfl, rfl⟩ := Prod.mk.inj (Except.ok.inj hadd)
      exact ⟨rfl, rfl⟩
  | cons entry rest ih =>
      rw [SSTBuilder.addAllWiscKey, List.foldlM_cons] at hadd
      cases hstep : builder.add entry.key
          (SSTBuilder.actualValue log threshold state entry.key entry.value).2 entry.txid with
      | error err =>
          rw [SSTBuilder.addWiscKey, hstep] at hadd
          cases hadd
      | ok added =>
          rw [SSTBuilder.addWiscKey, hstep] at hadd
          obtain ⟨hfinal, hrest⟩ := ih hadd
          refine ⟨hfinal, ?_⟩
          rw [SSTBuilder.addAll, storeAll, List.foldlM_cons, hstep]
          exact hrest

/-- The stored records have the keys and numbers of the added ones. -/
theorem map_storeAll (state : log.State) (entries : List Entry) :
    ((storeAll log threshold state entries).2.map fun entry => (entry.key, entry.txid)) =
      entries.map fun entry => (entry.key, entry.txid) := by
  induction entries generalizing state with
  | nil => rfl
  | cons entry rest ih => rw [storeAll, List.map_cons, List.map_cons, ih]

theorem sorted_storeAll {entries : List Entry} (hsorted : Versions.Sorted entries)
    (state : log.State) : Versions.Sorted (storeAll log threshold state entries).2 := by
  let before (left right : Bytes × ℕ) : Prop :=
    left.1 < right.1 ∨ (left.1 = right.1 ∧ right.2 ≤ left.2)
  have hpairs : (entries.map fun entry => (entry.key, entry.txid)).Pairwise before :=
    List.pairwise_map.mpr hsorted
  rw [← @map_storeAll log threshold state] at hpairs
  have hstored := List.pairwise_map.mp hpairs
  exact hstored

/-- One record reads back as it was added. -/
private theorem resolveEntry_actualValue {state final : log.State} {entry : Entry}
    (hentry : separates threshold entry.value = true →
      (log.append state entry.key entry.value).2 < 256 ^ 8 ∧
        log.readValue final (log.append state entry.key entry.value).2 entry.value.length =
          entry.value)
    (hlength : entry.value.length < 256 ^ 4) (hthreshold : 0 < threshold) :
    resolveEntry log final { entry with
        value := (SSTBuilder.actualValue log threshold state entry.key entry.value).2 } = entry ↔
      (12 ≤ entry.value.length → entry.value.length ≤ threshold →
        PointsToItself log final entry.value) := by
  have hvalue {value : Bytes} : resolveEntry log final { entry with value := value } = entry ↔
      resolveValue log final value = entry.value :=
    ⟨congrArg Version.value, congrArg (Version.mk entry.key · entry.txid)⟩
  rw [hvalue, SSTBuilder.actualValue]
  cases hseparates : separates threshold entry.value with
  | true =>
      obtain ⟨hoffset, hread⟩ := hentry hseparates
      have hlong := (of_decide_eq_true hseparates).2.2
      rw [if_pos rfl, resolveValue_vlogRef hoffset hlength]
      exact iff_of_true hread fun _ hle => absurd hle (not_le.mpr hlong)
  | false =>
      rw [if_neg Bool.false_ne_true, resolveValue_eq_self]
      refine ⟨fun hself hlong _ => hself hlong, fun hself hlong => hself hlong ?_⟩
      have hinline := of_decide_eq_false hseparates
      by_contra hover
      refine hinline ⟨?_, hthreshold, not_le.mp hover⟩
      rintro hempty
      rw [hempty] at hlong
      cases hlong

/-- The records read back as they were added, but for inline values that look like a
reference. -/
theorem map_resolve_storeAll {state final : log.State} {entries : List Entry}
    (hanswers : Answers log threshold final state entries)
    (hlength : ∀ entry ∈ entries, entry.value.length < 256 ^ 4) (hthreshold : 0 < threshold) :
    (storeAll log threshold state entries).2.map (resolveEntry log final) = entries ↔
      ∀ entry ∈ entries, 12 ≤ entry.value.length → entry.value.length ≤ threshold →
        PointsToItself log final entry.value := by
  induction entries generalizing state with
  | nil => exact iff_of_true rfl (List.forall_mem_nil _)
  | cons entry rest ih =>
      obtain ⟨hentry, hrest⟩ := hanswers
      obtain ⟨hshort, hshortRest⟩ := List.forall_mem_cons.mp hlength
      rw [storeAll, List.map_cons, List.cons_eq_cons, ih hrest hshortRest, List.forall_mem_cons,
        resolveEntry_actualValue hentry hshort hthreshold]

end

/-- What the readers of a table in WiscKey mode see is what was added, and no read throws. -/
def ReadsBack (log : VLog) (state : log.State) (sst : SST) (entries : List Entry) : Prop :=
  (∀ trancId keepAllVersions isAborted, ∃ stored,
    LoopYields (SstIterator.tryBegin sst trancId keepAllVersions isAborted)
        SstIterator.nextReads stored ∧
      stored.map (resolveEntry log state) =
        Versions.shown trancId isAborted keepAllVersions entries) ∧
  ∀ key trancId isAborted, key ≠ [] →
    ∃ it, sst.tryGet key trancId isAborted = .ok it ∧
      it.current?.map (resolveEntry log state) = Versions.read entries key trancId isAborted

section

variable {log : VLog} {threshold : ℕ} {state final : log.State} {entries : List Entry}

/-- Reading back is a matter of the stored records and of the size of the table. -/
theorem readsBack_iff {sst : SST} (hsst : sst.WellFormed) (hshort : sst.BlocksShort) :
    ReadsBack log final sst entries ↔
      sst.Addressable ∧ sst.records.map (resolveEntry log final) = entries := by
  constructor
  · intro hreads
    obtain ⟨stored, hloop, hstored⟩ := hreads.1 0 true fun _ => false
    obtain ⟨hsmall, rfl⟩ := (hsst.loopYields_iff hshort).mp hloop
    rw [Versions.shown_all, Versions.shown_all] at hstored
    exact ⟨hsmall, hstored⟩
  · rintro ⟨hsmall, hmap⟩
    constructor
    · intro trancId keepAllVersions isAborted
      refine ⟨_, (hsst.loopYields_iff hshort).mpr ⟨hsmall, rfl⟩, ?_⟩
      rw [← Versions.shown_map (f := resolveEntry log final) (fun _ => rfl) fun _ => rfl, hmap]
    · intro key trancId isAborted hkey
      refine ⟨_, hsmall.tryGet key trancId isAborted, ?_⟩
      rw [hsst.get_current? hkey,
        ← hsst.sorted.read_map (f := resolveEntry log final) (fun _ => rfl) fun _ => rfl, hmap]

/-- A table in WiscKey mode is made from the stored records. -/
theorem wiscKey_stored {config : Config} {builder : SSTBuilder} {sstId : ℕ} {sst : SST}
    (hsorted : Versions.Sorted entries)
    (hadd : SSTBuilder.addAllWiscKey log threshold (SSTBuilder.new config, state) entries =
      .ok (builder, final)) (hbuild : builder.build sstId = .ok sst) :
    sst.WellFormed ∧ sst.BlocksShort ∧
      sst.records = (storeAll log threshold state entries).2 := by
  have hmade : sst.MadeFrom config true (storeAll log threshold state entries).2 :=
    SST.madeFrom_of_build (SSTBuilder.addAllWiscKey_eq_ok hadd).2 hbuild
  have hstored := @sorted_storeAll log threshold entries hsorted state
  exact ⟨hmade.wellFormed hstored, hmade.blocksShort, hmade.records_eq hstored⟩

end

/-- The records of a table in WiscKey mode are read back as they were added if and only if its
block section is below 2^32 bytes and no value with a length from twelve up to the threshold was
added, except where the log happens to hold that value at the reference its first twelve bytes
spell. -/
theorem wiscKey_reads_back (config : Config) {log : VLog} {threshold : ℕ} {state final : log.State}
    {entries : List Entry} {builder : SSTBuilder} {sstId : ℕ} {sst : SST}
    (hthreshold : 1 ≤ threshold) (hsorted : Versions.Sorted entries)
    (hlength : ∀ entry ∈ entries, entry.value.length < 2 ^ 32)
    (hadd : SSTBuilder.addAllWiscKey log threshold (SSTBuilder.new config, state) entries =
      .ok (builder, final))
    (hbuild : builder.build sstId = .ok sst) (hanswers : Answers log threshold final state entries) :
    ReadsBack log final sst entries ↔
      sst.dataLength < 2 ^ 32 ∧
        ∀ entry ∈ entries, 12 ≤ entry.value.length → entry.value.length ≤ threshold →
          PointsToItself log final entry.value := by
  obtain ⟨hsst, hshort, hrecords⟩ := wiscKey_stored hsorted hadd hbuild
  rw [readsBack_iff hsst hshort, hrecords, map_resolve_storeAll hanswers hlength hthreshold,
    SST.Addressable]

/-- A log in memory; a reference is the number of the value. -/
def memoryLog : VLog where
  State := List Bytes
  append := fun values _ value => (values ++ [value], values.length)
  readValue := fun values offset _ => values.getD offset []

/-- A short value, a long value and a deletion with a threshold of eleven. -/
theorem wiscKey_reads_back_sample :
    let entries : List Entry := [⟨[97], [1, 2, 3], 2⟩, ⟨[98], List.replicate 13 7, 1⟩, ⟨[99], [], 3⟩]
    ∃ builder final sst,
      SSTBuilder.addAllWiscKey memoryLog 11 (SSTBuilder.new smallConfig, []) entries =
        .ok (builder, final) ∧
      builder.build 0 = .ok sst ∧ ReadsBack memoryLog final sst entries := by
  intro entries
  obtain ⟨builder, final, sst, hadd, hbuild, hsmall⟩ : ∃ builder final sst,
      SSTBuilder.addAllWiscKey memoryLog 11 (SSTBuilder.new smallConfig, []) entries =
        .ok (builder, final) ∧ builder.build 0 = .ok sst ∧ sst.dataLength < 2 ^ 32 :=
    ⟨_, _, _, rfl, rfl, by decide⟩
  have hfinal := (SSTBuilder.addAllWiscKey_eq_ok hadd).1
  refine ⟨builder, final, sst, hadd, hbuild, ?_⟩
  have hsorted : Versions.Sorted entries := by
    unfold Versions.Sorted
    decide
  have hanswers : Answers memoryLog 11 final ([] : List Bytes) entries := by
    rw [hfinal]
    exact ⟨fun habsurd => absurd habsurd (by decide), fun _ => ⟨by decide, rfl⟩,
      fun habsurd => absurd habsurd (by decide), trivial⟩
  apply (wiscKey_reads_back smallConfig (by decide) hsorted (by decide) hadd hbuild
    hanswers).mpr
  refine ⟨hsmall, fun entry hmem hlong hle => ?_⟩
  exact absurd (hlong.trans hle) (by decide)

/-- With the threshold of the tests a value of twelve bytes is not read back. -/
theorem wiscKey_value_lost :
    let entries : List Entry := [⟨[97], List.replicate 12 120, 1⟩]
    ∃ builder final sst,
      SSTBuilder.addAllWiscKey memoryLog 64 (SSTBuilder.new smallConfig, []) entries =
        .ok (builder, final) ∧
      builder.build 0 = .ok sst ∧ Answers memoryLog 64 final ([] : List Bytes) entries ∧
      ¬ReadsBack memoryLog final sst entries := by
  intro entries
  obtain ⟨builder, final, sst, hadd, hbuild⟩ : ∃ builder final sst,
      SSTBuilder.addAllWiscKey memoryLog 64 (SSTBuilder.new smallConfig, []) entries =
        .ok (builder, final) ∧ builder.build 0 = .ok sst := ⟨_, _, _, rfl, rfl⟩
  have hfinal := (SSTBuilder.addAllWiscKey_eq_ok hadd).1
  obtain ⟨hsst, hshort, hrecords⟩ :=
    wiscKey_stored (List.pairwise_singleton _ _) hadd hbuild
  have hanswers : Answers memoryLog 64 final ([] : List Bytes) entries :=
    ⟨fun habsurd => absurd habsurd (by decide), trivial⟩
  refine ⟨builder, final, sst, hadd, hbuild, hanswers, ?_⟩
  rw [readsBack_iff hsst hshort, hrecords, hfinal]
  exact fun hreads => absurd hreads.2 (by decide)

end KopiDb

import KopiDb.FullCompact

/-!
# Point reads

A point read asks the memory tables, every file of level 0 and at most one file of
every deeper level.  In a state that satisfies the level invariant the answer is the
newest visible version of the key among all records.
-/

namespace KopiDb

/-- The value and number that a read returns of the record it found. -/
def answer (found : Option Entry) : Option (Bytes × ℕ) :=
  found.map fun entry => (entry.value, entry.txid)

/-- A deletion that is found means that there is no value. -/
def live (found : Option (Bytes × ℕ)) : Option (Bytes × ℕ) :=
  found.filter fun pair => decide (pair.1 ≠ [])

@[simp]
theorem answer_none : answer none = none := rfl

@[simp]
theorem answer_some (entry : Entry) : answer (some entry) = some (entry.value, entry.txid) :=
  rfl

theorem live_answer (found : Option Entry) :
    live (answer found) = answer (found.filter fun entry => decide (entry.value ≠ [])) := by
  cases found with
  | none => rfl
  | some entry => by_cases hvalue : entry.value = [] <;> simp [live, Option.filter, hvalue]

theorem nil_lt_of_ne_nil {key : Bytes} (hkey : key ≠ []) : [] < key := by
  obtain ⟨head, tail, rfl⟩ := List.exists_cons_of_ne_nil hkey
  exact List.nil_lt_cons head tail

/-! ## The key range of a file -/

namespace SST.WellFormed

variable {sst : SST}

theorem firstKey_le (hsst : sst.WellFormed) {entry : Entry} (hmem : entry ∈ sst.records)
    (hkey : entry.key ≠ []) : sst.firstKey ≤ entry.key := by
  rw [hsst.firstKey_eq]
  exact firstUserKey_le hsst.sorted hmem hkey

theorem le_lastKey (hsst : sst.WellFormed) {entry : Entry} (hmem : entry ∈ sst.records) :
    entry.key ≤ sst.lastKey := by
  rw [hsst.lastKey_eq]
  exact le_finalKey hsst.sorted hmem

theorem records_ne_nil (hsst : sst.WellFormed) : sst.records ≠ [] := by
  obtain ⟨block, rest, hblocks⟩ := List.exists_cons_of_ne_nil hsst.nonempty
  have hne := hsst.blocks_nonempty block (by rw [hblocks]; exact List.mem_cons_self)
  rw [records, hblocks, List.flatMap_cons]
  exact List.append_ne_nil_of_left_ne_nil hne _

/-- The last key is the key of a record. -/
theorem lastKey_mem (hsst : sst.WellFormed) :
    ∃ entry ∈ sst.records, entry.key = sst.lastKey := by
  rw [hsst.lastKey_eq]
  exact finalKey_mem hsst.records_ne_nil

/-- A first key that is not empty is the key of a record. -/
theorem firstKey_mem (hsst : sst.WellFormed) (hne : sst.firstKey ≠ []) :
    ∃ entry ∈ sst.records, entry.key = sst.firstKey := by
  rw [hsst.firstKey_eq] at hne ⊢
  exact firstUserKey_mem hne

/-- A file whose range reaches up to a user key has a first user key. -/
theorem firstKey_ne_nil (hsst : sst.WellFormed) {key : Bytes} (hkey : key ≠ [])
    (hle : key ≤ sst.lastKey) : sst.firstKey ≠ [] := by
  obtain ⟨entry, hmem, hentry⟩ := hsst.lastKey_mem
  have hpos : [] < key := nil_lt_of_ne_nil hkey
  rw [hsst.firstKey_eq]
  refine firstUserKey_ne_nil hmem ?_
  rw [hentry]
  exact (hpos.trans_le hle).ne'

/-- Files in key order do not share a key range. -/
theorem lastKey_lt_firstKey {right : SST} (hleft : sst.WellFormed) (hright : right.WellFormed)
    (hbefore : KeysBefore sst.records right.records) (hne : right.firstKey ≠ []) :
    sst.lastKey < right.firstKey := by
  obtain ⟨last, hlast, hlastKey⟩ := hleft.lastKey_mem
  obtain ⟨first, hfirst, hfirstKey⟩ := hright.firstKey_mem hne
  rw [← hlastKey, ← hfirstKey]
  exact hbefore last hlast first hfirst

end SST.WellFormed

namespace Engine

/-! ## The files of the search -/

theorem sstAt_eq_ok_iff {engine : Engine} {id : ℕ} {sst : SST} :
    engine.sstAt id = .ok sst ↔ engine.ssts.find? id = some sst := by
  rw [sstAt]
  cases engine.ssts.find? id <;> simp

theorem LevelInvariant.mem_fileRecords {engine : Engine} (hinv : LevelInvariant engine) {id : ℕ}
    {sst : SST} (hfind : engine.ssts.find? id = some sst) {entry : Entry}
    (hmem : entry ∈ sst.records) : entry ∈ engine.fileRecords := by
  have hid : id ∈ engine.levelSstIds.flatten := by
    rw [hinv.mem_iff, OrdMap.contains_eq_isSome, hfind]
    rfl
  rw [fileRecords_eq, recordsOf]
  exact List.mem_flatMap.mpr ⟨sst, mem_sstsOf.mpr ⟨id, hid, hfind⟩, hmem⟩

section Search

variable {engine : Engine} {lookup lookup' : SST → Except Err (Option Entry)}
  (hsame : ∀ id sst, engine.sstAt id = .ok sst → lookup sst = lookup' sst)
include hsame

private theorem searchL0_congr (ids : List ℕ) (best : Option (Bytes × ℕ)) :
    engine.searchL0 lookup ids best = engine.searchL0 lookup' ids best := by
  induction ids generalizing best with
  | nil => rfl
  | cons id rest ih =>
      rw [searchL0, searchL0]
      cases hat : engine.sstAt id with
      | error err => rfl
      | ok sst =>
          dsimp only
          rw [hsame id sst hat]
          cases lookup' sst with
          | error err => rfl
          | ok candidate => exact ih _

private theorem searchLevel_congr (key : Bytes) (ids : List ℕ) (best : Option (Bytes × ℕ))
    (fuel left right : ℕ) :
    engine.searchLevel lookup key ids best fuel left right =
      engine.searchLevel lookup' key ids best fuel left right := by
  induction fuel generalizing left right with
  | zero => rfl
  | succ fuel ih =>
      rw [searchLevel, searchLevel]
      dsimp only
      cases hat : engine.sstAt (ids.getD ((left + right) / 2) 0) with
      | error err => rfl
      | ok sst =>
          dsimp only
          rw [hsame _ sst hat, ih, ih]

private theorem searchLevels_congr (key : Bytes) (levels : List (List ℕ))
    (best : Option (Bytes × ℕ)) :
    engine.searchLevels lookup key levels best =
      engine.searchLevels lookup' key levels best := by
  induction levels generalizing best with
  | nil => rfl
  | cons ids rest ih =>
      rw [searchLevels, searchLevels, searchLevel_congr hsame]
      cases engine.searchLevel lookup' key ids best ids.length 0 ids.length with
      | error err => rfl
      | ok best => exact ih best

/-- The search looks into files of the engine only. -/
theorem search_congr (key : Bytes) : engine.search lookup key = engine.search lookup' key := by
  unfold search
  cases engine.levelSstIds with
  | nil => rfl
  | cons l0 deeper =>
      dsimp only
      rw [searchL0_congr hsame]
      cases engine.searchL0 lookup' l0 none with
      | error err => rfl
      | ok best => exact searchLevels_congr hsame key deeper best

end Search

/-! ## Level 0 -/

theorem updateBestFromSst_eq {sst : SST} (hsst : sst.WellFormed) {key : Bytes}
    (hkey : key ≠ []) (trancId : ℕ) (best : Option Entry) (isAborted : ℕ → Bool) :
    updateBestFromSst sst key trancId (answer best) isAborted =
      answer (Versions.prefer best (Versions.read sst.records key trancId isAborted)) := by
  unfold updateBestFromSst updateBest
  rw [hsst.get_current? hkey]
  cases Versions.read sst.records key trancId isAborted with
  | none => rw [Versions.prefer_none_right]
  | some candidate =>
      cases best with
      | none => rfl
      | some found =>
          rw [Versions.prefer_some_some]
          dsimp only [answer_some]
          split_ifs <;> rfl

section

variable {engine : Engine} {key : Bytes} (trancId : ℕ) (isAborted : ℕ → Bool)

theorem sstGetL0_eq (hinv : LevelInvariant engine) (hkey : key ≠ []) {ids : List ℕ}
    (hids : ∀ id ∈ ids, id ∈ engine.levelSstIds.flatten) (best : Option Entry) :
    engine.sstGetL0 key trancId isAborted ids (answer best) =
      .ok (answer (Versions.prefer best
        (Versions.read (engine.recordsOf ids) key trancId isAborted))) := by
  induction ids generalizing best with
  | nil => rw [sstGetL0_nil, recordsOf, sstsOf]; simp
  | cons id rest ih =>
      obtain ⟨sst, hfind⟩ := hinv.find?_isSome (hids id List.mem_cons_self)
      have hsst := hinv.wellFormed id sst hfind
      have hrecords : engine.recordsOf (id :: rest) =
          sst.records ++ engine.recordsOf rest := by
        rw [recordsOf, sstsOf, List.filterMap_cons_some hfind, List.flatMap_cons]
        rfl
      rw [sstGetL0_cons, sstAt_eq_ok_iff.mpr hfind]
      dsimp only
      rw [updateBestFromSst_eq hsst hkey,
        ih fun other hother => hids other (List.mem_cons_of_mem _ hother), hrecords,
        Versions.read_append, Versions.prefer_assoc]

/-! ## Deeper levels -/

/-- The files of a level that a bisection works on. -/
structure SearchedLevel (engine : Engine) (ids : List ℕ) (ssts : List SST) : Prop where
  length_eq : ids.length = ssts.length
  sstAt_eq : ∀ idx (hidx : idx < ssts.length), engine.sstAt (ids.getD idx 0) = .ok ssts[idx]
  wellFormed : ∀ sst ∈ ssts, sst.WellFormed
  separated : (ssts.map SST.records).Pairwise KeysBefore

theorem searchedLevel_of_invariant (hinv : LevelInvariant engine) {level : ℕ}
    (hlevel : level ≠ 0) :
    SearchedLevel engine (engine.level level) (engine.sstsOf (engine.level level)) := by
  have hids : (engine.sstsOf (engine.level level)).map SST.sstId = engine.level level :=
    hinv.sstsOf_map_sstId fun id hmem => mem_level_flatten hmem
  refine ⟨?_, ?_, fun sst hmem => hinv.wellFormed_of_mem hmem, hinv.separated level hlevel⟩
  · rw [← List.length_map SST.sstId, hids]
  · intro idx hidx
    obtain ⟨id, -, hfind⟩ := mem_sstsOf.mp (List.getElem_mem hidx)
    have hid : (engine.level level).getD idx 0 = id := by
      rw [← hids, List.getD_eq_getElem?_getD, List.getElem?_map,
        List.getElem?_eq_getElem hidx]
      exact hinv.keyed id _ hfind
    rw [hid, sstAt_eq_ok_iff.mpr hfind]

variable {ids : List ℕ} {ssts : List SST}

private theorem SearchedLevel.before (hlevel : SearchedLevel engine ids ssts) {i j : ℕ}
    (hi : i < ssts.length) (hj : j < ssts.length) (hlt : i < j) :
    KeysBefore ssts[i].records ssts[j].records := by
  have hpair := List.pairwise_iff_getElem.mp hlevel.separated i j
    (by rwa [List.length_map]) (by rwa [List.length_map]) hlt
  simpa using hpair

/-- Files up to one that ends below the key do not hold it. -/
private theorem SearchedLevel.absent_left (hlevel : SearchedLevel engine ids ssts)
    {i mid : ℕ} (hi : i < ssts.length) (hmid : mid < ssts.length) (hle : i ≤ mid)
    (hlast : ssts[mid].lastKey < key) : ∀ entry ∈ ssts[i].records, entry.key ≠ key := by
  have hsst := hlevel.wellFormed _ (List.getElem_mem hmid)
  rintro entry hmem rfl
  rcases hle.lt_or_eq with hlt | rfl
  · obtain ⟨last, hlastMem, hlastKey⟩ := hsst.lastKey_mem
    have hbefore := hlevel.before hi hmid hlt entry hmem last hlastMem
    rw [hlastKey] at hbefore
    exact hbefore.not_gt hlast
  · exact (hsst.le_lastKey hmem).not_gt hlast

/-- Files from one on that begins above the key do not hold it. -/
private theorem SearchedLevel.absent_right (hlevel : SearchedLevel engine ids ssts)
    (hkey : key ≠ []) {i mid : ℕ} (hi : i < ssts.length) (hmid : mid < ssts.length)
    (hle : mid ≤ i) (hfirst : key < ssts[mid].firstKey) :
    ∀ entry ∈ ssts[i].records, entry.key ≠ key := by
  have hsst := hlevel.wellFormed _ (List.getElem_mem hmid)
  rintro entry hmem rfl
  rcases hle.lt_or_eq with hlt | rfl
  · have hpos : [] < entry.key := nil_lt_of_ne_nil hkey
    obtain ⟨first, hfirstMem, hfirstKey⟩ := hsst.firstKey_mem (hpos.trans hfirst).ne'
    have hbefore := hlevel.before hmid hi hlt first hfirstMem entry hmem
    rw [hfirstKey] at hbefore
    exact hbefore.not_gt hfirst
  · exact (hsst.firstKey_le hmem hkey).not_gt hfirst

/-- Only the file whose range holds the key can hold the key. -/
private theorem SearchedLevel.absent_others (hlevel : SearchedLevel engine ids ssts)
    (hkey : key ≠ []) {i hit : ℕ} (hi : i < ssts.length) (hhit : hit < ssts.length)
    (hne : i ≠ hit) (hfirst : ssts[hit].firstKey ≤ key) (hlast : key ≤ ssts[hit].lastKey) :
    ∀ entry ∈ ssts[i].records, entry.key ≠ key := by
  have hsst := hlevel.wellFormed _ (List.getElem_mem hhit)
  rintro entry hmem rfl
  rcases hne.lt_or_gt with hlt | hgt
  · obtain ⟨first, hfirstMem, hfirstKey⟩ :=
      hsst.firstKey_mem (hsst.firstKey_ne_nil hkey hlast)
    have hbefore := hlevel.before hi hhit hlt entry hmem first hfirstMem
    rw [hfirstKey] at hbefore
    exact hbefore.not_ge hfirst
  · obtain ⟨last, hlastMem, hlastKey⟩ := hsst.lastKey_mem
    have hbefore := hlevel.before hhit hi hgt last hlastMem entry hmem
    rw [hlastKey] at hbefore
    exact hbefore.not_ge hlast

/-- The bisection probes the file whose range holds the key; when it finds none, no
file of its window holds the key. -/
private theorem searchLevel_cases (hlevel : SearchedLevel engine ids ssts) (hkey : key ≠ [])
    (lookup : SST → Except Err (Option Entry)) (best : Option (Bytes × ℕ))
    {fuel left right : ℕ} (hright : right ≤ ssts.length) (hfuel : right - left ≤ fuel) :
    (∃ hit, ∃ hlt : hit < ssts.length, ssts[hit].firstKey ≤ key ∧ key ≤ ssts[hit].lastKey ∧
      engine.searchLevel lookup key ids best fuel left right =
        (lookup ssts[hit]).map fun candidate => updateBest candidate best) ∨
      (engine.searchLevel lookup key ids best fuel left right = .ok best ∧
        ∀ i (hi : i < ssts.length), left ≤ i → i < right →
          ∀ entry ∈ ssts[i].records, entry.key ≠ key) := by
  induction fuel generalizing left right with
  | zero => exact Or.inr ⟨rfl, fun i hi hleft hlt => by omega⟩
  | succ fuel ih =>
      rw [searchLevel]
      split_ifs with hwindow
      · have hmid : (left + right) / 2 < ssts.length := by omega
        dsimp only
        rw [hlevel.sstAt_eq _ hmid]
        dsimp only
        split_ifs with hhit hlast
        · refine Or.inl ⟨_, hmid, hhit.1, hhit.2, ?_⟩
          cases lookup ssts[(left + right) / 2] <;> rfl
        · have hfuel' : right - ((left + right) / 2 + 1) ≤ fuel := by omega
          rcases ih hright hfuel' with hfound | ⟨hrun, habsent⟩
          · exact Or.inl hfound
          · refine Or.inr ⟨hrun, fun i hi hleft hlt => ?_⟩
            by_cases hside : i ≤ (left + right) / 2
            · exact hlevel.absent_left hi hmid hside hlast
            · exact habsent i hi (by omega) hlt
        · have hfuel' : (left + right) / 2 - left ≤ fuel := by omega
          rcases ih hmid.le hfuel' with hfound | ⟨hrun, habsent⟩
          · exact Or.inl hfound
          · refine Or.inr ⟨hrun, fun i hi hleft hlt => ?_⟩
            by_cases hside : (left + right) / 2 ≤ i
            · refine hlevel.absent_right hkey hi hmid hside (lt_of_not_ge fun hfirst => ?_)
              exact hhit ⟨hfirst, not_lt.mp hlast⟩
            · exact habsent i hi hleft (by omega)
      · exact Or.inr ⟨rfl, fun i hi hleft hlt => by omega⟩

/-- The bisection answers from all records of the level. -/
theorem sstGetLevel_eq (hlevel : SearchedLevel engine ids ssts) (hkey : key ≠ [])
    (best : Option Entry) :
    engine.sstGetLevel key trancId isAborted ids (answer best) ids.length 0 ids.length =
      .ok (answer (Versions.prefer best
        (Versions.read (ssts.flatMap SST.records) key trancId isAborted))) := by
  rw [sstGetLevel]
  rcases searchLevel_cases hlevel hkey (lookupIn key trancId isAborted)
      (answer best) hlevel.length_eq.le (Nat.sub_le ids.length 0) with
    ⟨hit, hlt, hfirst, hlast, hrun⟩ | ⟨hrun, habsent⟩
  · have hprobed : (lookupIn key trancId isAborted ssts[hit]).map
        (fun candidate => updateBest candidate (answer best)) =
          .ok (updateBestFromSst ssts[hit] key trancId (answer best) isAborted) := rfl
    have honly := Versions.read_flatMap_of_only SST.records hlt
      (fun idx hidx hne => hlevel.absent_others hkey hidx hlt hne hfirst hlast) trancId isAborted
    rw [hrun, hprobed, updateBestFromSst_eq (hlevel.wellFormed _ (List.getElem_mem hlt)) hkey,
      honly]
  · have hnone : Versions.read (ssts.flatMap SST.records) key trancId isAborted = none := by
      refine Versions.read_eq_none_of_absent (fun entry hmem => ?_) trancId isAborted
      obtain ⟨sst, hsst, hentry⟩ := List.mem_flatMap.mp hmem
      obtain ⟨idx, hidx, rfl⟩ := List.mem_iff_getElem.mp hsst
      exact habsent idx hidx (Nat.zero_le idx) (hlevel.length_eq ▸ hidx) entry hentry
    rw [hrun, hnone, Versions.prefer_none_right]

/-- A file that holds the key is the one that the bisection probes. -/
theorem searchLevel_probe (hlevel : SearchedLevel engine ids ssts) (hkey : key ≠ [])
    (lookup : SST → Except Err (Option Entry)) (best : Option (Bytes × ℕ)) {sst : SST}
    (hmem : sst ∈ ssts) (hheld : ∃ entry ∈ sst.records, entry.key = key) :
    engine.searchLevel lookup key ids best ids.length 0 ids.length =
      (lookup sst).map fun candidate => updateBest candidate best := by
  obtain ⟨entry, hentry, hentryKey⟩ := hheld
  obtain ⟨idx, hidx, rfl⟩ := List.mem_iff_getElem.mp hmem
  rcases searchLevel_cases hlevel hkey lookup best
      hlevel.length_eq.le (Nat.sub_le ids.length 0) with
    ⟨hit, hlt, hfirst, hlast, hrun⟩ | ⟨-, habsent⟩
  · by_cases hne : idx = hit
    · subst hne
      exact hrun
    · exact absurd hentryKey (hlevel.absent_others hkey hidx hlt hne hfirst hlast entry hentry)
  · exact absurd hentryKey
      (habsent idx hidx (Nat.zero_le idx) (hlevel.length_eq ▸ hidx) entry hentry)

private theorem sstGetLevels_eq (hinv : LevelInvariant engine) (hkey : key ≠ []) {first : ℕ}
    (hfirst : first ≠ 0) (best : Option Entry) :
    engine.sstGetLevels key trancId isAborted (engine.levelSstIds.drop first) (answer best) =
      .ok (answer (Versions.prefer best
        (Versions.read ((engine.levelSstIds.drop first).flatMap engine.recordsOf) key trancId
          isAborted))) := by
  induction hrest : engine.levelSstIds.drop first generalizing first best with
  | nil => rw [sstGetLevels_nil]; simp
  | cons ids rest ih =>
      have hids : engine.level first = ids := by
        have hhead := congrArg List.head? hrest
        rw [List.head?_drop, List.head?_cons] at hhead
        rw [Engine.level, List.getD_eq_getElem?_getD, hhead, Option.getD_some]
      have htail : engine.levelSstIds.drop (first + 1) = rest := by
        rw [← List.tail_drop, hrest, List.tail_cons]
      have hlevel := searchedLevel_of_invariant hinv hfirst
      rw [hids] at hlevel
      rw [sstGetLevels_cons, sstGetLevel_eq trancId isAborted hlevel hkey]
      dsimp only
      rw [ih (Nat.succ_ne_zero first) _ htail, List.flatMap_cons, Versions.read_append,
        ← Versions.prefer_assoc]
      rfl

/-- The search of the files answers from all records in files. -/
theorem sstGet_fileRecords (hinv : LevelInvariant engine) (hkey : key ≠ []) :
    engine.sstGet_ key trancId isAborted =
      .ok (answer (Versions.read engine.fileRecords key trancId isAborted)) := by
  have hdeeper := sstGetLevels_eq trancId isAborted hinv hkey
    Nat.one_ne_zero
  have hl0 := fun best => sstGetL0_eq trancId isAborted hinv hkey
    (fun id hmem => @mem_level_flatten engine 0 id hmem) best
  rw [sstGet_eq_levels, fileRecords]
  cases hlevels : engine.levelSstIds with
  | nil => rfl
  | cons ids deeper =>
      have hids : engine.level 0 = ids := by rw [Engine.level, hlevels]; rfl
      rw [hlevels, List.drop_one, List.tail_cons] at hdeeper
      rw [hids] at hl0
      have hnone := hl0 none
      rw [answer_none, Versions.prefer_none_left] at hnone
      dsimp only
      rw [hnone]
      dsimp only
      rw [hdeeper, List.flatMap_cons, Versions.read_append]

/-- `get` and `get_batch` prefer the larger number, then the memory tables. -/
theorem resolve_eq (best sstRet : Option Entry) :
    resolve (answer best) (answer sstRet) = live (answer (Versions.prefer best sstRet)) := by
  have hlive : ∀ entry : Entry, (if entry.value = [] then none
      else some (entry.value, entry.txid)) = live (some (entry.value, entry.txid)) := by
    intro entry
    by_cases hvalue : entry.value = [] <;> simp [live, Option.filter, hvalue]
  cases best with
  | none =>
      cases sstRet with
      | none => rfl
      | some found => exact hlive found
  | some memory =>
      cases sstRet with
      | none => exact hlive memory
      | some found =>
          rw [Versions.prefer_some_some]
          simp only [resolve, answer_some, gt_iff_lt]
          split_ifs with hlt
          · exact hlive found
          · exact hlive memory

/-- A point read answers from all records of the engine. -/
theorem get_eq (hinv : LevelInvariant engine) (hkey : key ≠ []) (man : ReadPolicy)
    (requireCommitted : Bool) :
    engine.get (some man) key trancId requireCommitted =
      .ok (live (answer (Versions.read engine.records key trancId
        fun id => man.shouldSkipRead id requireCommitted))) := by
  have hmemory : engine.memtable.getRecord key trancId
      (fun id => man.shouldSkipRead id requireCommitted) =
      answer (Versions.read engine.memtable.records key trancId
        fun id => man.shouldSkipRead id requireCommitted) := by
    rw [← MemTable.get_current? _ hkey]
    rfl
  simp only [get_some, sstGet_fileRecords trancId _ hinv hkey, hmemory]
  rw [resolve_eq, records, Versions.read_append]

end

/-! ## The empty key -/

/-- Only deletions, and so commit markers, are stored under the empty key. -/
def MarkersOnly (entries : List Entry) : Prop :=
  ∀ entry ∈ entries, entry.key = [] → entry.value = []

/-- Everything that a search found has the property. -/
private def AllFound (property : Bytes × ℕ → Prop) (found : Option (Bytes × ℕ)) : Prop :=
  ∀ pair ∈ found, property pair

section

variable {engine : Engine} {property : Bytes × ℕ → Prop} (trancId : ℕ)
  (isAborted : ℕ → Bool)

/-- What a search of the files for the empty key needs to know about them: the property
holds of the records that a reader may see under that key. -/
private def FilesGive (engine : Engine) (property : Bytes × ℕ → Prop) : Prop :=
  ∀ id sst, engine.ssts.find? id = some sst → ∀ entry ∈ sst.records, entry.key = [] →
    Versions.visible trancId isAborted entry.txid → property (entry.value, entry.txid)

private theorem updateBestFromSst_allFound {sst : SST} (hsst : sst.WellFormed)
    (hgive : ∀ entry ∈ sst.records, entry.key = [] →
      Versions.visible trancId isAborted entry.txid → property (entry.value, entry.txid))
    {best : Option (Bytes × ℕ)} (hbest : AllFound property best) :
    AllFound property (updateBestFromSst sst [] trancId best isAborted) := by
  unfold updateBestFromSst updateBest
  split
  · exact hbest
  next candidate hget =>
      obtain ⟨hmem, hkey, hvisible⟩ := hsst.get_current?_mem hget
      have hvalue : AllFound property (some (candidate.value, candidate.txid)) := by
        intro pair hpair
        rw [← Option.mem_some_iff.mp hpair]
        exact hgive candidate hmem hkey hvisible
      split
      · exact hvalue
      · split_ifs
        · exact hvalue
        · exact hbest

private theorem sstGetL0_allFound (hinv : LevelInvariant engine)
    (hgive : FilesGive trancId isAborted engine property) {ids : List ℕ}
    (hids : ∀ id ∈ ids, id ∈ engine.levelSstIds.flatten) {best : Option (Bytes × ℕ)}
    (hbest : AllFound property best) :
    ∃ found, engine.sstGetL0 [] trancId isAborted ids best = .ok found ∧
      AllFound property found := by
  induction ids generalizing best with
  | nil => exact ⟨best, rfl, hbest⟩
  | cons id rest ih =>
      obtain ⟨sst, hfind⟩ := hinv.find?_isSome (hids id List.mem_cons_self)
      rw [sstGetL0_cons, sstAt_eq_ok_iff.mpr hfind]
      exact ih (fun other hother => hids other (List.mem_cons_of_mem _ hother))
        (updateBestFromSst_allFound trancId isAborted (hinv.wellFormed id sst hfind)
          (hgive id sst hfind) hbest)

private theorem sstGetLevel_allFound (hinv : LevelInvariant engine)
    (hgive : FilesGive trancId isAborted engine property) {ids : List ℕ}
    (hids : ∀ id ∈ ids, id ∈ engine.levelSstIds.flatten) {best : Option (Bytes × ℕ)}
    (hbest : AllFound property best) (left : ℕ) {fuel right : ℕ} (hright : right ≤ ids.length) :
    ∃ found, engine.sstGetLevel [] trancId isAborted ids best fuel left right = .ok found ∧
      AllFound property found := by
  induction fuel generalizing left right with
  | zero => exact ⟨best, rfl, hbest⟩
  | succ fuel ih =>
      rw [sstGetLevel_succ]
      split_ifs with hwindow
      · have hmid : (left + right) / 2 < ids.length := by omega
        have hmem : ids.getD ((left + right) / 2) 0 ∈ ids := by
          rw [List.getD_eq_getElem _ _ hmid]
          exact List.getElem_mem hmid
        obtain ⟨sst, hfind⟩ := hinv.find?_isSome (hids _ hmem)
        rw [sstAt_eq_ok_iff.mpr hfind]
        dsimp only
        split_ifs
        · exact ⟨_, rfl, updateBestFromSst_allFound trancId isAborted
            (hinv.wellFormed _ sst hfind) (hgive _ sst hfind) hbest⟩
        · exact ih _ hright
        · exact ih left hmid.le
      · exact ⟨best, rfl, hbest⟩

private theorem sstGetLevels_allFound (hinv : LevelInvariant engine)
    (hgive : FilesGive trancId isAborted engine property) {levels : List (List ℕ)}
    (hlevels : ∀ ids ∈ levels, ids ∈ engine.levelSstIds) {best : Option (Bytes × ℕ)}
    (hbest : AllFound property best) :
    ∃ found, engine.sstGetLevels [] trancId isAborted levels best = .ok found ∧
      AllFound property found := by
  induction levels generalizing best with
  | nil => exact ⟨best, rfl, hbest⟩
  | cons ids rest ih =>
      have hids : ∀ id ∈ ids, id ∈ engine.levelSstIds.flatten := fun id hmem =>
        List.mem_flatten.mpr ⟨ids, hlevels ids List.mem_cons_self, hmem⟩
      obtain ⟨found, hrun, hfound⟩ := sstGetLevel_allFound trancId isAborted hinv hgive hids
        hbest 0 (le_refl ids.length)
      rw [sstGetLevels_cons, hrun]
      exact ih (fun other hother => hlevels other (List.mem_cons_of_mem _ hother)) hfound

private theorem sstGet_allFound (property : Bytes × ℕ → Prop) (hinv : LevelInvariant engine)
    (hgive : ∀ entry ∈ engine.fileRecords, entry.key = [] →
      Versions.visible trancId isAborted entry.txid → property (entry.value, entry.txid)) :
    ∃ found, engine.sstGet_ [] trancId isAborted = .ok found ∧ AllFound property found := by
  have hfiles : FilesGive trancId isAborted engine property := by
    intro id sst hfind entry hmem
    exact hgive entry (hinv.mem_fileRecords hfind hmem)
  have hnone : AllFound property none := by simp [AllFound]
  rw [sstGet_eq_levels]
  cases hlevels : engine.levelSstIds with
  | nil => exact ⟨none, rfl, hnone⟩
  | cons ids deeper =>
      have hids : ∀ id ∈ ids, id ∈ engine.levelSstIds.flatten := fun id hmem =>
        List.mem_flatten.mpr ⟨ids, by rw [hlevels]; exact List.mem_cons_self, hmem⟩
      obtain ⟨found, hrun, hfound⟩ := sstGetL0_allFound trancId isAborted hinv hfiles hids
        hnone
      dsimp only
      rw [hrun]
      refine sstGetLevels_allFound trancId isAborted hinv hfiles (fun other hmem => ?_) hfound
      rw [hlevels]
      exact List.mem_cons_of_mem _ hmem

/-- A search of the files for the empty key finds deletions only. -/
private theorem sstGet_deleted (hinv : LevelInvariant engine)
    (hmarkers : MarkersOnly engine.fileRecords) :
    ∃ found, engine.sstGet_ [] trancId isAborted = .ok found ∧
      AllFound (fun pair => pair.1 = []) found :=
  sstGet_allFound trancId isAborted (fun pair => pair.1 = []) hinv
    fun entry hmem hkey _ => hmarkers entry hmem hkey

/-- No iterator of a memory table stands on a record with an empty key. -/
private theorem memory_empty_key (mem : MemTable) :
    MemTable.copied (mem.get_ [] trancId isAborted) = none := by
  have htable : ∀ table : SkipList, (table.get [] trancId isAborted).current? = none := by
    intro table
    have hhead := table.get_rest_head? [] trancId isAborted
    unfold SkipListIterator.current?
    split
    · rfl
    next node rest hrest =>
        rw [hrest, List.head?_cons] at hhead
        rw [if_pos (Versions.read_eq_some hhead.symm).2.1]
  have hfrozen : ∀ (tables : List SkipList) (best : SkipListIterator),
      best.current? = none → (tables.foldl (fun best table =>
        MemTable.better best (table.get [] trancId isAborted)) best).current? = none := by
    intro tables
    induction tables with
    | nil => exact fun best hbest => hbest
    | cons table rest ih =>
        intro best hbest
        refine ih _ ?_
        rw [MemTable.better_current?, hbest, htable]
        rfl
  rw [MemTable.copied, MemTable.get_, MemTable.better_current?, MemTable.curGet_, htable,
    MemTable.frozenGet_, hfrozen _ _ rfl]
  rfl

private theorem resolve_deleted {found : Option (Bytes × ℕ)}
    (hfound : AllFound (fun pair => pair.1 = []) found) : resolve none found = none := by
  cases found with
  | none => rfl
  | some pair => simp [resolve, hfound pair rfl]

/-- The empty key has no value. -/
theorem get_empty_key (hinv : LevelInvariant engine)
    (hmarkers : MarkersOnly engine.fileRecords) (man : ReadPolicy) (requireCommitted : Bool) :
    engine.get (some man) [] trancId requireCommitted = .ok none := by
  obtain ⟨found, hrun, hfound⟩ := sstGet_deleted trancId
    (fun id => man.shouldSkipRead id requireCommitted) hinv hmarkers
  have hmemory : engine.memtable.getRecord [] trancId
      (fun id => man.shouldSkipRead id requireCommitted) = none := memory_empty_key _ _ _
  simp only [get_some, hmemory, hrun]
  rw [resolve_deleted hfound]

/-- A value under the empty key is that of a record that the reader may see. -/
theorem get_empty_key_mem (hinv : LevelInvariant engine) (man : ReadPolicy)
    (requireCommitted : Bool) :
    ∃ found, engine.get (some man) [] trancId requireCommitted = .ok found ∧
      ∀ pair ∈ found, ∃ entry ∈ engine.fileRecords, entry.key = [] ∧
        (entry.value, entry.txid) = pair ∧ Versions.visible trancId
          (fun id => man.shouldSkipRead id requireCommitted) entry.txid := by
  obtain ⟨found, hrun, hfound⟩ := sstGet_allFound trancId
    (fun id => man.shouldSkipRead id requireCommitted)
    (fun pair => ∃ entry ∈ engine.fileRecords, entry.key = [] ∧
      (entry.value, entry.txid) = pair ∧ Versions.visible trancId
        (fun id => man.shouldSkipRead id requireCommitted) entry.txid)
    hinv fun entry hmem hkey hvisible => ⟨entry, hmem, hkey, rfl, hvisible⟩
  have hmemory : engine.memtable.getRecord [] trancId
      (fun id => man.shouldSkipRead id requireCommitted) = none := memory_empty_key _ _ _
  refine ⟨resolve none found, by simp only [get_some, hmemory, hrun], fun pair hpair => ?_⟩
  cases found with
  | none => cases hpair
  | some other =>
      simp only [resolve] at hpair
      split_ifs at hpair
      · cases hpair
      · obtain rfl := Option.mem_some_iff.mp hpair
        exact hfound other rfl

/-- A read depends on which writers of stored records are skipped, and on no others. -/
theorem get_skip_congr (hinv : LevelInvariant engine) {man man' : ReadPolicy}
    {requireCommitted : Bool}
    (hskip : ∀ entry ∈ engine.records, man.shouldSkipRead entry.txid requireCommitted =
      man'.shouldSkipRead entry.txid requireCommitted) (key : Bytes) :
    engine.get (some man) key trancId requireCommitted =
      engine.get (some man') key trancId requireCommitted := by
  by_cases hkey : key = []
  · subst hkey
    have hfiles : engine.sstGet_ [] trancId (fun id => man.shouldSkipRead id requireCommitted) =
        engine.sstGet_ [] trancId fun id => man'.shouldSkipRead id requireCommitted := by
      refine search_congr (fun id sst hat => ?_) []
      have hfind := sstAt_eq_ok_iff.mp hat
      refine congrArg Except.ok ((hinv.wellFormed id sst hfind).get_skip_congr ?_)
      intro entry hmem
      exact hskip entry (List.mem_append_right _ (hinv.mem_fileRecords hfind hmem))
    rw [get_some, get_some, hfiles, MemTable.getRecord, MemTable.getRecord, memory_empty_key,
      memory_empty_key]
  · rw [get_eq trancId hinv hkey, get_eq trancId hinv hkey]
    congr 3
    exact Versions.read_skip_congr fun entry hmem _ => hskip entry hmem

/-- A batch read answers every position like a point read, also for the empty key. -/
theorem getBatch_eq (hinv : LevelInvariant engine) {keys : List Bytes}
    (hmarkers : [] ∈ keys → MarkersOnly engine.fileRecords) (man : ReadPolicy) :
    engine.getBatch (some man) keys trancId =
      .ok (keys.map fun key => (key, if key = [] then none else
        live (answer (Versions.read engine.records key trancId man.isAborted)))) := by
  rw [getBatch_some, MemTable.getBatch]
  induction keys with
  | nil => rfl
  | cons key rest ih =>
      have hrest := ih fun hmem => hmarkers (List.mem_cons_of_mem _ hmem)
      rw [List.map_cons, resolveBatch_cons]
      by_cases hkey : key = []
      · subst hkey
        obtain ⟨found, hrun, hfound⟩ :=
          sstGet_deleted trancId man.isAborted hinv (hmarkers List.mem_cons_self)
        rw [hrun]
        dsimp only
        rw [hrest, memory_empty_key]
        dsimp only
        rw [resolve_deleted hfound]
        rfl
      · have hmemory : MemTable.copied (engine.memtable.get_ key trancId man.isAborted) =
            answer (Versions.read engine.memtable.records key trancId man.isAborted) := by
          rw [← MemTable.get_current? _ hkey]
          rfl
        rw [sstGet_fileRecords trancId _ hinv hkey]
        dsimp only
        rw [hrest, hmemory]
        dsimp only
        rw [resolve_eq, List.map_cons, records, Versions.read_append, if_neg hkey]

end

end Engine

end KopiDb

import KopiDb.SstOffsets

/-!
# Room for commit markers

All versions of a key go into one block, and a block takes a record only if it starts within
the first 2^16 bytes.  Commit markers are versions of the empty key, so it depends on their
number whether records can be written as tables.
-/

namespace KopiDb

/-- The user keys of records, as often as they have versions. -/
def userKeys (records : List Entry) : Multiset Bytes :=
  ((records.map Version.key).filter fun key => decide (key ≠ []) : List Bytes)

def isMarker (entry : Entry) : Bool := decide (entry.key = [])

/-- The number of commit markers. -/
def markers (records : List Entry) : ℕ := records.countP isMarker

/-- Markers have twelve bytes, and so many of them start within the first 2^16 bytes. -/
def maxMarkers : ℕ := uint16Max / 12 + 1

/-- Records that pass the checks of the block one by one, with one version of every user key. -/
structure Light (records : List Entry) : Prop where
  accepted : ∀ entry ∈ records, entry.Accepted
  marker : ∀ entry ∈ records, entry.key = [] → entry.value = []
  once : (userKeys records).Nodup

theorem userKeys_append (front back : List Entry) :
    userKeys (front ++ back) = userKeys front + userKeys back := by
  rw [userKeys, List.map_append, List.filter_append]
  rfl

theorem userKeys_perm {left right : List Entry} (hperm : left.Perm right) :
    userKeys left = userKeys right :=
  Multiset.coe_eq_coe.mpr ((hperm.map Version.key).filter _)

theorem markers_append (front back : List Entry) :
    markers (front ++ back) = markers front + markers back := List.countP_append

theorem markers_of_all {records : List Entry} (hall : ∀ entry ∈ records, entry.key = []) :
    markers records = records.length :=
  List.countP_eq_length.mpr fun entry hmem => decide_eq_true (hall entry hmem)

theorem Light.perm {left right : List Entry} (hlight : Light left) (hperm : right.Perm left) :
    Light right where
  accepted entry hmem := hlight.accepted entry (hperm.subset hmem)
  marker entry hmem := hlight.marker entry (hperm.subset hmem)
  once := by
    rw [userKeys_perm hperm]
    exact hlight.once

theorem Light.sublist {part whole : List Entry} (hlight : Light whole)
    (hpart : part.Sublist whole) : Light part where
  accepted entry hmem := hlight.accepted entry (hpart.subset hmem)
  marker entry hmem := hlight.marker entry (hpart.subset hmem)
  once := by
    refine Multiset.nodup_of_le ?_ hlight.once
    exact Multiset.coe_le.mpr (((hpart.map Version.key).filter _).subperm)

/-! ## Marker groups in the builder -/

namespace Packing

variable {capacity : ℕ} {run : List Entry} {entry : Entry}

theorem finalKey_ofRun (capacity : ℕ) (run : List Entry) :
    finalKey (ofRun capacity run).current = finalKey run := by
  induction run using List.reverseRecOn with
  | nil => rfl
  | append_singleton front last _ => rw [ofRun_append, finalKey_push, finalKey_append]

/-- Markers stay in one block. -/
theorem ofRun_markers (hmarkers : ∀ entry ∈ run, entry.key = []) :
    ofRun capacity run = ⟨[], run⟩ := by
  induction run using List.reverseRecOn with
  | nil => rfl
  | append_singleton front last ih =>
      obtain ⟨hfront, hlast⟩ := List.forall_mem_append.mp hmarkers
      rw [List.forall_mem_singleton] at hlast
      have hfinal : last.key = finalKey front := by
        rw [hlast, finalKey]
        cases hback : front.getLast? with
        | none => rfl
        | some previous => exact (hfront previous (List.mem_of_getLast? hback)).symm
      rw [ofRun_append, ih hfront, push, if_pos (Or.inr (Or.inl hfinal))]

theorem sum_markers (hmarkers : ∀ entry ∈ run, entry.key = [] ∧ entry.value = []) :
    (run.map entrySize).sum = run.length * 12 := by
  rw [List.sum_eq_card_nsmul (run.map entrySize) 12, List.length_map, smul_eq_mul]
  intro size hsize
  obtain ⟨entry, hmem, rfl⟩ := List.mem_map.mp hsize
  obtain ⟨hkey, hvalue⟩ := hmarkers entry hmem
  rw [entrySize, hkey, hvalue]
  rfl

/-- Only markers have the key of the record before them. -/
theorem markers_of_finalKey (hsorted : Versions.Sorted (run ++ [entry]))
    (honce : (userKeys (run ++ [entry])).Nodup) (hkey : entry.key = finalKey run) :
    ∀ other ∈ run ++ [entry], other.key = [] := by
  have hempty : entry.key = [] := by
    by_contra hne
    rw [hkey] at hne
    have hrun : run ≠ [] := by
      rintro rfl
      exact hne rfl
    obtain ⟨front, last, rfl⟩ := (List.eq_nil_or_concat' run).resolve_left hrun
    rw [finalKey_append] at hkey hne
    have htwice : (userKeys ([last] ++ [entry])).Nodup := by
      rw [List.append_assoc, userKeys_append] at honce
      exact (Multiset.nodup_add.mp honce).2.1
    have hkeys : userKeys ([last] ++ [entry]) = ([last.key, last.key] : List Bytes) := by
      simp [userKeys, hkey, hne]
    rw [hkeys] at htwice
    exact (List.nodup_cons.mp (Multiset.coe_nodup.mp htwice)).1 List.mem_cons_self
  intro other hmem
  rcases List.mem_append.mp hmem with hrun | hlast
  · have hle : other.key ≤ entry.key :=
      ((List.pairwise_append.mp hsorted).2.2 other hrun entry List.mem_cons_self).key_le
    rw [hempty] at hle
    by_contra hne
    exact (nil_lt_of_ne_nil hne).not_ge hle
  · rw [List.mem_singleton.mp hlast]
    exact hempty

end Packing

namespace SSTBuilder

variable {config : Config} {builder : SSTBuilder} {run : List Entry} {entry : Entry}

/-- What the builder does with a record under the key of the record before it. -/
theorem add_sameKey (hpacks : builder.Packs config.lsmBlockSize
      (Packing.ofRun config.lsmBlockSize run))
    (haccepted : entry.Accepted) (hkey : entry.key = finalKey run) :
    (builder.block.dataSize ≤ uint16Max ∧ builder.block.size < uint16Max ∧
      ∃ builder', builder.add entry.key entry.value entry.txid = .ok builder' ∧
        builder'.createFails = builder.createFails ∧
          builder'.block.size = builder.block.size + 1) ∨
    ((uint16Max < builder.block.dataSize ∨ uint16Max ≤ builder.block.size) ∧
      ∃ text, builder.add entry.key entry.value entry.txid = .error (.lengthError text)) := by
  have hforce : decide (entry.key = builder.lastKey) = true := by
    rw [hpacks.lastKey, Packing.finalKey_ofRun]
    exact decide_eq_true hkey
  have hlengths : ¬(entry.key.length > uint16Max ∨ entry.value.length > uint16Max) :=
    not_or.mpr ⟨haccepted.1.not_gt, haccepted.2.not_gt⟩
  have hroom : ¬(¬(true = true) ∧ ¬builder.block.isEmpty = true ∧
      builder.block.curSize + entrySize ⟨entry.key, entry.value, entry.txid⟩ + 2 >
        builder.block.capacity) := fun hfull => hfull.1 rfl
  unfold SSTBuilder.add Block.addEntry
  dsimp only
  rw [hforce, if_neg hlengths, if_neg hroom]
  by_cases hdata : builder.block.dataSize > uint16Max
  · rw [if_pos hdata]
    exact Or.inr ⟨Or.inl hdata, _, rfl⟩
  · rw [if_neg hdata]
    by_cases hsize : builder.block.size ≥ uint16Max
    · rw [if_pos hsize]
      exact Or.inr ⟨Or.inr hsize, _, rfl⟩
    · rw [if_neg hsize]
      refine Or.inl ⟨not_lt.mp hdata, not_le.mp hsize, _, rfl, rfl, ?_⟩
      rw [Block.size, List.length_append]
      rfl

/-- A builder that holds nothing but markers. -/
theorem size_markers (hpacks : builder.Packs config.lsmBlockSize
      (Packing.ofRun config.lsmBlockSize run))
    (hmarkers : ∀ entry ∈ run, entry.key = [] ∧ entry.value = []) :
    builder.block.dataSize = run.length * 12 ∧ builder.block.size = run.length := by
  rw [Packing.ofRun_markers fun entry hmem => (hmarkers entry hmem).1] at hpacks
  rw [Block.dataSize, Block.size, hpacks.current]
  exact ⟨Packing.sum_markers hmarkers, rfl⟩

/-- Light records with few markers are added without an exception. -/
theorem Ready.add_light (hready : builder.Ready config)
    (hpacks : builder.Packs config.lsmBlockSize (Packing.ofRun config.lsmBlockSize run))
    (hcapacity : config.lsmBlockSize ≤ uint16Max) (hsorted : Versions.Sorted (run ++ [entry]))
    (hlight : Light (run ++ [entry])) (hfew : markers (run ++ [entry]) ≤ maxMarkers) :
    ∃ builder', builder.add entry.key entry.value entry.txid = .ok builder' ∧
      builder'.Ready config := by
  have haccepted := hlight.accepted entry (List.mem_append_right _ List.mem_cons_self)
  by_cases hkey : entry.key = finalKey run
  · have hmarkers := Packing.markers_of_finalKey hsorted hlight.once hkey
    have hcount : markers (run ++ [entry]) = run.length + 1 := by
      rw [markers_of_all hmarkers, List.length_append, List.length_singleton]
    obtain ⟨hdata, hsize⟩ := size_markers hpacks fun other hmem =>
      ⟨hmarkers other (List.mem_append_left _ hmem),
        hlight.marker other (List.mem_append_left _ hmem)
          (hmarkers other (List.mem_append_left _ hmem))⟩
    rw [hcount, maxMarkers, uint16Max] at hfew
    rcases add_sameKey hpacks haccepted hkey with
      ⟨-, hlt, builder', hadd, hcreate, hnext⟩ | ⟨hfull, -⟩
    · refine ⟨builder', hadd, hcreate.trans hready.createFails, ?_⟩
      rw [hnext]
      exact hlt
    · rw [hdata, hsize, uint16Max] at hfull
      omega
  · refine hready.add hpacks hcapacity haccepted ?_
    rwa [Packing.finalKey_ofRun]

theorem Ready.addAll_light {entries : List Entry} (hready : builder.Ready config)
    (hpacks : builder.Packs config.lsmBlockSize (Packing.ofRun config.lsmBlockSize run))
    (hcapacity : config.lsmBlockSize ≤ uint16Max) (hsorted : Versions.Sorted (run ++ entries))
    (hlight : Light (run ++ entries)) (hfew : markers (run ++ entries) ≤ maxMarkers) :
    ∃ builder', builder.addAll entries = .ok builder' ∧ builder'.Ready config ∧
      builder'.Packs config.lsmBlockSize
        (Packing.ofRun config.lsmBlockSize (run ++ entries)) := by
  induction entries generalizing builder run with
  | nil => exact ⟨builder, rfl, hready, by rwa [List.append_nil]⟩
  | cons entry rest ih =>
      rw [show run ++ entry :: rest = run ++ [entry] ++ rest by simp] at hsorted hlight hfew ⊢
      have hfew' : markers (run ++ [entry]) ≤ maxMarkers := by
        rw [markers_append] at hfew
        omega
      obtain ⟨builder', hadd, hready'⟩ := hready.add_light hpacks hcapacity
        (List.pairwise_append.mp hsorted).1 (hlight.sublist (List.sublist_append_left _ _)) hfew'
      have hpacks' := hpacks.add hadd
      rw [← Packing.ofRun_append] at hpacks'
      obtain ⟨last, hadds, hlast⟩ := ih hready' hpacks' hsorted hlight hfew
      refine ⟨last, ?_, hlast⟩
      rw [SSTBuilder.addAll, List.foldlM_cons, hadd]
      exact hadds

/-- A full builder only fails to create its file. -/
theorem Ready.build_cases (hready : builder.Ready config) (hfull : builder.block.entries ≠ [])
    (sstId : ℕ) : (∃ sst, builder.build sstId = .ok sst) ∨
      config.createFails sstId = true ∧
        ∃ text, builder.build sstId = .error (.runtimeError text) := by
  cases hcreate : config.createFails sstId with
  | false => exact Or.inl (hready.build hfull hcreate)
  | true =>
      right
      have hempty : ¬builder.block.isEmpty = true := fun hnil => hfull (List.isEmpty_iff.mp hnil)
      unfold SSTBuilder.build finishBlock Block.encodedSize
      rw [if_neg hempty, if_neg hready.size.not_gt]
      dsimp only
      rw [List.head?_append, List.getLast?_append, hready.createFails, hcreate]
      cases builder.blocks.head? <;> exact ⟨rfl, _, rfl⟩

end SSTBuilder

/-- A failure of the file system. -/
def Fault (config : Config) (err : Err) : Prop :=
  (∃ text, err = .runtimeError text) ∧ ¬Engine.NoFailures config

theorem Fault.of_create {config : Config} {sstId : ℕ} (hcreate : config.createFails sstId = true)
    (text : String) : Fault config (.runtimeError text) := by
  refine ⟨⟨text, rfl⟩, fun hfailures => ?_⟩
  rw [hfailures.createFails] at hcreate
  cases hcreate

theorem Fault.of_read {config : Config} {level : ℕ} {entry : Entry}
    (hread : config.readFails level entry = true) (text : String) :
    Fault config (.runtimeError text) := by
  refine ⟨⟨text, rfl⟩, fun hfailures => ?_⟩
  rw [hfailures.readFails] at hread
  cases hread

/-! ## Merges -/

namespace Engine

variable {config : Config} {engine : Engine} {target targetLevel : ℕ}

/-- One round over light records. -/
theorem GenPacks.step_light {state : GenState} {done : List (List Entry)}
    {pending rest : List Entry} {entry : Entry} (hpacks : GenPacks config state done pending)
    (hready : state.builder.Ready config) (hcapacity : config.lsmBlockSize ≤ uint16Max)
    (hsorted : Versions.Sorted (pending ++ [entry])) (hlight : Light (pending ++ [entry]))
    (hfew : markers (pending ++ [entry]) ≤ maxMarkers) (target targetLevel : ℕ) :
    (∃ state', genStep config target targetLevel state entry rest.head? = .ok state' ∧
      state'.builder.Ready config) ∨
    ∃ after err, genStep config target targetLevel state entry rest.head? = .error (after, err) ∧
      Fault config err := by
  obtain ⟨builder, hadd, hnext⟩ :=
    hready.add_light hpacks.builder hcapacity hsorted hlight hfew
  have hfull : builder.block.entries ≠ [] := by
    have hbuilder := hpacks.builder.add hadd
    rw [hbuilder.current]
    exact Packing.push_current_ne_nil _ _ _
  unfold genStep
  rw [hadd]
  dsimp only
  by_cases hread : config.readFails targetLevel entry = true
  · rw [if_pos hread]
    exact Or.inr ⟨_, _, rfl, Fault.of_read hread _⟩
  · rw [if_neg hread]
    split_ifs
    · unfold GenState.emit takeSstId
      rcases hnext.build_cases hfull state.engine.nextSstId with
        ⟨sst, hbuild⟩ | ⟨hcreate, text, hbuild⟩
      · dsimp only
        rw [hbuild]
        exact Or.inl ⟨_, rfl, SSTBuilder.ready_new config⟩
      · dsimp only
        rw [hbuild]
        exact Or.inr ⟨_, _, rfl, Fault.of_create hcreate text⟩
    · exact Or.inl ⟨_, rfl, hnext⟩

/-- A loop over light records. -/
theorem GenPacks.loop_light {state : GenState} {done : List (List Entry)}
    {pending rest : List Entry} (hpacks : GenPacks config state done pending)
    (hready : state.builder.Ready config) (hcapacity : config.lsmBlockSize ≤ uint16Max)
    (hsorted : Versions.Sorted (pending ++ rest)) (hlight : Light (pending ++ rest))
    (hfew : markers (pending ++ rest) ≤ maxMarkers) (target targetLevel : ℕ) :
    (∃ state', Cursor.foldLookahead (genStep config target targetLevel) rest state = .ok state' ∧
      state'.builder.Ready config) ∨
    ∃ after err, Cursor.foldLookahead (genStep config target targetLevel) rest state =
      .error (after, err) ∧ Fault config err := by
  induction rest generalizing state done pending with
  | nil => exact Or.inl ⟨state, rfl, hready⟩
  | cons entry rest ih =>
      rw [show pending ++ entry :: rest = pending ++ [entry] ++ rest by simp]
        at hsorted hlight hfew
      have hfew' : markers (pending ++ [entry]) ≤ maxMarkers := by
        rw [markers_append] at hfew
        omega
      rw [Cursor.foldLookahead]
      rcases @GenPacks.step_light config state done pending rest entry hpacks hready hcapacity
          (List.pairwise_append.mp hsorted).1 (hlight.sublist (List.sublist_append_left _ _))
          hfew' target targetLevel with
        ⟨state', hstep, hready'⟩ | ⟨after, err, hstep, hfault⟩
      · obtain ⟨done', pending', hpacks', hpending, -⟩ := hpacks.step hstep
        rw [hstep]
        have hpart : (pending' ++ rest).Sublist (pending ++ [entry] ++ rest) := by
          rcases hpending with rfl | rfl
          · exact List.sublist_append_right _ _
          · exact List.Sublist.refl _
        have hcount : markers (pending' ++ rest) ≤ markers (pending ++ [entry] ++ rest) :=
          List.Sublist.countP_le hpart
        exact ih hpacks' hready' (hsorted.sublist hpart) (hlight.sublist hpart)
          (hcount.trans hfew)
      · rw [hstep]
        exact Or.inr ⟨after, err, rfl, hfault⟩

/-- Light records with few markers are written as tables, unless the file system fails. -/
theorem genSstFromIter_light {ι : Type} [Cursor ι Entry] {iter : ι}
    (hcapacity : config.lsmBlockSize ≤ uint16Max)
    (hsorted : Versions.Sorted (Cursor.toList iter)) (hlight : Light (Cursor.toList iter))
    (hfew : markers (Cursor.toList iter) ≤ maxMarkers) :
    (∃ ssts, (genSstFromIter config engine iter target targetLevel).2 = .ok ssts) ∨
      ∃ err, (genSstFromIter config engine iter target targetLevel).2 = .error err ∧
        Fault config err := by
  have hstart := genPacks_start config engine
  simp only [genSstFromIter, Cursor.forEach_eq_foldLookahead]
  have hlight' := @GenPacks.loop_light config _ [] [] (Cursor.toList iter) hstart
    (SSTBuilder.ready_new config) hcapacity hsorted hlight hfew target targetLevel
  rcases hlight' with ⟨state, hloop, hready⟩ | ⟨after, err, hloop, hfault⟩
  · obtain ⟨done, pending, hpacks, -⟩ := hstart.loop hloop
    rw [hloop]
    dsimp only
    split_ifs with hpending
    · have hfull : state.builder.block.entries ≠ [] := by
        rw [hpacks.builder.current]
        exact Packing.ofRun_current_ne_nil _ (hpacks.hasPending.mp hpending)
      unfold GenState.emit takeSstId
      rcases hready.build_cases hfull state.engine.nextSstId with
        ⟨sst, hbuild⟩ | ⟨hcreate, text, hbuild⟩
      · dsimp only
        rw [hbuild]
        exact Or.inl ⟨_, rfl⟩
      · dsimp only
        rw [hbuild]
        exact Or.inr ⟨_, rfl, Fault.of_create hcreate text⟩
    · exact Or.inl ⟨_, rfl⟩
  · rw [hloop]
    exact Or.inr ⟨err, rfl, hfault⟩

end Engine

end KopiDb

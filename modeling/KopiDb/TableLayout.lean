import KopiDb.SstFile
import KopiDb.MetaBytes

/-!
# How many bytes a table takes

The builder packs records greedily: a record goes to the current block if the block is empty,
ends with its key or has room for it, and opens a new block otherwise.  The bytes of a table
follow from this packing of its records.
-/

namespace KopiDb

/-- Records, cut into blocks that are closed and the current one. -/
structure Packing where
  closed : List (List Entry)
  current : List Entry

namespace Packing

/-- The bytes of a block without checksum: the records, two bytes for each and two for their
number. -/
def bodyLength (entries : List Entry) : ℕ :=
  (entries.map entrySize).sum + entries.length * 2 + 2

/-- The bytes of a block. -/
def blockLength (entries : List Entry) : ℕ := bodyLength entries + 4

def empty : Packing := ⟨[], []⟩

def push (capacity : ℕ) (packing : Packing) (entry : Entry) : Packing :=
  if packing.current = [] ∨ entry.key = finalKey packing.current ∨
      bodyLength (packing.current ++ [entry]) ≤ capacity then
    { packing with current := packing.current ++ [entry] }
  else ⟨packing.closed ++ [packing.current], [entry]⟩

/-- The packing of a run of records. -/
def ofRun (capacity : ℕ) (run : List Entry) : Packing := run.foldl (push capacity) empty

/-- All blocks, once the current one is closed. -/
def blocks (packing : Packing) : List (List Entry) :=
  if packing.current = [] then packing.closed else packing.closed ++ [packing.current]

/-- The bytes of the closed blocks. -/
def closedLength (packing : Packing) : ℕ := (packing.closed.map blockLength).sum

/-- The bytes of the meta entries: eight and the first and the last key for every block.  The
first key of a block is its first key that is not empty, which may be in a later block. -/
def describedLength : List (List Entry) → ℕ
  | [] => 0
  | block :: rest =>
      8 + (firstUserKey (block ++ rest.flatten)).length + (finalKey block).length +
        describedLength rest

/-- The bytes of a table in front of its filter: blocks, meta entries, their number and hash. -/
def tableLength (packing : Packing) : ℕ :=
  (packing.blocks.map blockLength).sum + (describedLength packing.blocks + 8)

theorem ofRun_append (capacity : ℕ) (run : List Entry) (entry : Entry) :
    ofRun capacity (run ++ [entry]) = push capacity (ofRun capacity run) entry := by
  rw [ofRun, List.foldl_append]
  rfl

theorem push_current_ne_nil (capacity : ℕ) (packing : Packing) (entry : Entry) :
    (push capacity packing entry).current ≠ [] := by
  unfold push
  split_ifs
  · exact List.append_ne_nil_of_right_ne_nil _ (List.cons_ne_nil _ _)
  · exact List.cons_ne_nil _ _

theorem ofRun_current_ne_nil (capacity : ℕ) {run : List Entry} (hrun : run ≠ []) :
    (ofRun capacity run).current ≠ [] := by
  obtain ⟨front, last, rfl⟩ := List.eq_nil_or_concat run |>.resolve_left hrun
  rw [List.concat_eq_append, ofRun_append]
  exact push_current_ne_nil _ _ _

theorem finalKey_push (capacity : ℕ) (packing : Packing) (entry : Entry) :
    finalKey (push capacity packing entry).current = entry.key := by
  unfold push
  split_ifs
  · exact finalKey_append _ _
  · rfl

/-- A record either leaves the closed blocks alone or closes the current one. -/
theorem push_closed (capacity : ℕ) (packing : Packing) (entry : Entry) :
    (push capacity packing entry).closed = packing.closed ∨
      entry.key ≠ finalKey packing.current ∧
        (push capacity packing entry).closed = packing.closed ++ [packing.current] := by
  unfold push
  split_ifs with hroom
  · exact Or.inl rfl
  · exact Or.inr ⟨fun hkey => hroom (Or.inr (Or.inl hkey)), rfl⟩

theorem closedLength_push_le (capacity : ℕ) (packing : Packing) (entry : Entry) :
    packing.closedLength ≤ (push capacity packing entry).closedLength := by
  unfold closedLength
  rcases push_closed capacity packing entry with hsame | ⟨-, hmore⟩
  · rw [hsame]
  · rw [hmore, List.map_append, List.sum_append]
    exact Nat.le_add_right _ _

theorem closedLength_mono (capacity : ℕ) (run more : List Entry) :
    (ofRun capacity run).closedLength ≤ (ofRun capacity (run ++ more)).closedLength := by
  induction more generalizing run with
  | nil => rw [List.append_nil]
  | cons entry rest ih =>
      have hpush := closedLength_push_le capacity (ofRun capacity run) entry
      rw [← ofRun_append] at hpush
      have hrest := ih (run ++ [entry])
      rw [List.append_assoc, List.singleton_append] at hrest
      exact hpush.trans hrest

theorem closedLength_le_tableLength (packing : Packing) :
    packing.closedLength ≤ packing.tableLength := by
  unfold closedLength tableLength blocks
  split_ifs
  · exact Nat.le_add_right _ _
  · rw [List.map_append, List.sum_append, Nat.add_assoc]
    exact Nat.le_add_right _ _

/-- The bytes of the closed blocks but the last. -/
def settledLength (packing : Packing) : ℕ := (packing.closed.dropLast.map blockLength).sum

theorem settledLength_le (packing : Packing) : packing.settledLength ≤ packing.closedLength :=
  List.Sublist.sum_le_sum ((List.dropLast_sublist _).map _) fun _ _ => Nat.zero_le _

/-- A record settles at most what was closed before it, and nothing if it has the last key. -/
theorem settledLength_push (capacity : ℕ) (packing : Packing) (entry : Entry) :
    ((push capacity packing entry).settledLength ≤ packing.closedLength) ∧
      (entry.key = finalKey packing.current →
        (push capacity packing entry).settledLength = packing.settledLength) := by
  have hsettled := settledLength_le packing
  unfold settledLength closedLength at *
  rcases push_closed capacity packing entry with hsame | ⟨hkey, hmore⟩
  · rw [hsame]
    exact ⟨hsettled, fun _ => rfl⟩
  · rw [hmore, List.dropLast_concat]
    exact ⟨le_rfl, fun hsame => absurd hsame hkey⟩

theorem sum_blocks (packing : Packing) :
    (packing.blocks.map fun block => (block.map entrySize).sum).sum =
      ((packing.closed.flatten ++ packing.current).map entrySize).sum := by
  have hflatten : packing.blocks.flatten = packing.closed.flatten ++ packing.current := by
    unfold blocks
    split_ifs with hempty
    · rw [hempty, List.append_nil]
    · rw [List.flatten_append, List.flatten_singleton]
  rw [← hflatten, List.map_flatten, List.sum_flatten, List.map_map]
  rfl

/-! ## The packing of sorted records -/

theorem flatten_ofRun (capacity : ℕ) (run : List Entry) :
    (ofRun capacity run).closed.flatten ++ (ofRun capacity run).current = run := by
  induction run using List.reverseRecOn with
  | nil => rfl
  | append_singleton run entry ih =>
      rw [ofRun_append, push]
      split_ifs
      · rw [← List.append_assoc, ih]
      · rw [List.flatten_append, List.flatten_singleton, ih]

/-- A table has at least the bytes of its records. -/
theorem records_le_tableLength (capacity : ℕ) (run : List Entry) :
    (run.map entrySize).sum ≤ (ofRun capacity run).tableLength := by
  have hsum := sum_blocks (ofRun capacity run)
  rw [flatten_ofRun] at hsum
  rw [← hsum]
  refine (List.sum_le_sum fun block _ => ?_).trans (Nat.le_add_right _ _)
  rw [blockLength, bodyLength, Nat.add_assoc, Nat.add_assoc]
  exact Nat.le_add_right _ _

/-- In sorted records only the first block may be without user keys. -/
theorem userKeys_ofRun {capacity : ℕ} {run : List Entry} (hsorted : Versions.Sorted run) :
    (∀ block ∈ (ofRun capacity run).closed.tail, firstUserKey block ≠ []) ∧
      ((ofRun capacity run).closed ≠ [] → firstUserKey (ofRun capacity run).current ≠ []) := by
  induction run using List.reverseRecOn with
  | nil => exact ⟨fun _ hmem => absurd hmem List.not_mem_nil, fun hne => absurd rfl hne⟩
  | append_singleton run entry ih =>
      obtain ⟨hblocks, hcurrent⟩ := ih (hsorted.sublist (List.sublist_append_left _ _))
      have hflatten := flatten_ofRun capacity run
      rw [ofRun_append, push]
      split_ifs with hroom
      · refine ⟨hblocks, fun hne => ?_⟩
        rw [firstUserKey_append, if_neg (hcurrent hne)]
        exact hcurrent hne
      · rw [not_or, not_or] at hroom
        obtain ⟨hfull, hkey, -⟩ := hroom
        constructor
        · rw [List.tail_append]
          split_ifs with hnone
          · exact fun _ hmem => absurd hmem List.not_mem_nil
          · refine List.forall_mem_append.mpr ⟨hblocks, List.forall_mem_singleton.mpr ?_⟩
            exact hcurrent fun hnil => hnone (List.isEmpty_iff.mpr hnil)
        · intro _
          rw [firstUserKey_singleton]
          obtain ⟨last, hlast, hlastKey⟩ := finalKey_mem hfull
          have hmem : last ∈ run := by
            rw [← hflatten]
            exact List.mem_append_right _ hlast
          have hle : last.key ≤ entry.key :=
            ((List.pairwise_append.mp hsorted).2.2 last hmem entry List.mem_cons_self).key_le
          rw [← hlastKey] at hkey
          intro hempty
          have hlt : last.key < entry.key := lt_of_le_of_ne hle (Ne.symm hkey)
          rw [hempty] at hlt
          exact List.not_lt_nil _ hlt

/-- Where no two records fit into a block, every key has a block of its own. -/
theorem ofRun_apart {capacity : ℕ} (hcapacity : capacity < 30) {front : List Entry}
    {last : Entry} (hstrict : Versions.StrictKeys (front ++ [last])) :
    ofRun capacity (front ++ [last]) = ⟨front.map fun entry => [entry], [last]⟩ := by
  induction front using List.reverseRecOn generalizing last with
  | nil => rfl
  | append_singleton front previous ih =>
      have hpair := List.pairwise_append.mp hstrict
      have hlt : previous.key < last.key :=
        hpair.2.2 previous (List.mem_append_right _ List.mem_cons_self) last List.mem_cons_self
      have hlong : ¬bodyLength ([previous] ++ [last]) ≤ capacity := by
        simp only [bodyLength, entrySize, List.cons_append, List.nil_append, List.map_cons,
          List.map_nil, List.sum_cons, List.sum_nil, List.length_cons, List.length_nil]
        omega
      rw [ofRun_append, ih hpair.1, push, if_neg, List.map_append, List.map_singleton]
      rintro (hnil | hkey | hfits)
      · cases hnil
      · exact hlt.ne' hkey
      · exact hlong hfits

theorem key_length_le {entries : List Entry} {entry : Entry} (hmem : entry ∈ entries) :
    entry.key.length + 18 ≤ blockLength entries := by
  have hle : entrySize entry ≤ (entries.map entrySize).sum :=
    List.le_sum_of_mem (List.mem_map_of_mem hmem)
  have hsize : entrySize entry = 2 + entry.key.length + 2 + entry.value.length + 8 := rfl
  have hpos := List.length_pos_of_mem hmem
  rw [blockLength, bodyLength]
  omega

theorem finalKey_length_le (entries : List Entry) :
    (finalKey entries).length + 6 ≤ blockLength entries := by
  by_cases hempty : entries = []
  · rw [hempty]
    exact le_rfl
  · obtain ⟨entry, hmem, hkey⟩ := finalKey_mem hempty
    rw [← hkey]
    exact (Nat.add_le_add_left (by decide) _).trans (key_length_le hmem)

theorem describedLength_le {blocks : List (List Entry)}
    (huser : ∀ block ∈ blocks, firstUserKey block ≠ []) :
    describedLength blocks ≤ 2 * (blocks.map blockLength).sum := by
  induction blocks with
  | nil => exact Nat.zero_le _
  | cons block rest ih =>
      obtain ⟨hblock, hrest⟩ := List.forall_mem_cons.mp huser
      have hothers := ih hrest
      have hlast := finalKey_length_le block
      obtain ⟨entry, hmem, hkey⟩ := firstUserKey_mem hblock
      have hfirst := key_length_le hmem
      rw [hkey] at hfirst
      rw [describedLength, firstUserKey_append, if_neg hblock, List.map_cons, List.sum_cons]
      omega

/-- Past the first block a meta entry is not longer than twice its block. -/
theorem tableLength_le {packing : Packing}
    (hkeys : ∀ entry ∈ packing.blocks.flatten, entry.key.length ≤ uint16Max)
    (huser : ∀ block ∈ packing.blocks.tail, firstUserKey block ≠ []) :
    packing.tableLength ≤ 3 * (packing.blocks.map blockLength).sum + (uint16Max + 16) := by
  unfold tableLength
  cases hblocks : packing.blocks with
  | nil =>
      rw [describedLength]
      omega
  | cons block rest =>
      rw [hblocks] at hkeys huser
      have hrest : describedLength rest ≤ 2 * (rest.map blockLength).sum :=
        describedLength_le huser
      have hlast := finalKey_length_le block
      have hfirst : (firstUserKey (block ++ rest.flatten)).length ≤ uint16Max := by
        by_cases hnone : firstUserKey (block ++ rest.flatten) = []
        · rw [hnone]
          exact Nat.zero_le _
        · obtain ⟨entry, hmem, hkey⟩ := firstUserKey_mem hnone
          rw [← hkey]
          exact hkeys entry hmem
      rw [describedLength, List.map_cons, List.sum_cons]
      omega

end Packing

theorem Block.bodyLength_append {block : Block} (entry : Entry) :
    Packing.bodyLength (block.entries ++ [entry]) = block.curSize + entrySize entry + 2 := by
  simp only [Packing.bodyLength, Block.curSize, Block.dataSize, Block.size, List.map_append,
    List.sum_append, List.map_singleton, List.sum_singleton, List.length_append,
    List.length_singleton]
  omega

/-- The length of a block is bounded by what `add_entry` checks before the last record. -/
def Packing.maxBlockLength : ℕ := 5 * uint16Max + 18

/-- What the checks of the records leave of a packing. -/
def Packing.Bounded (packing : Packing) : Prop :=
  ∀ block ∈ packing.closed ++ [packing.current], blockLength block ≤ maxBlockLength ∧
    ∀ entry ∈ block, entry.key.length ≤ uint16Max

/-- All blocks of a bounded packing, from those that are settled. -/
theorem Packing.Bounded.length_le {packing : Packing} (hbounded : packing.Bounded) :
    (packing.blocks.map blockLength).sum ≤ packing.settledLength + 2 * maxBlockLength := by
  have hcurrent : blockLength packing.current ≤ maxBlockLength :=
    (hbounded _ (List.mem_append_right _ (List.mem_singleton_self _))).1
  have hclosed : (packing.closed.map blockLength).sum ≤
      packing.settledLength + maxBlockLength := by
    unfold settledLength
    rcases List.eq_nil_or_concat packing.closed with hnil | ⟨front, last, hlast⟩
    · rw [hnil]
      exact Nat.zero_le _
    · have hlength : blockLength last ≤ maxBlockLength := by
        refine (hbounded last (List.mem_append_left _ ?_)).1
        rw [hlast, List.concat_eq_append]
        exact List.mem_append_right _ (List.mem_singleton_self _)
      rw [hlast, List.concat_eq_append, List.dropLast_concat, List.map_append, List.sum_append,
        List.map_singleton, List.sum_singleton]
      exact Nat.add_le_add_left hlength _
  unfold blocks
  split_ifs
  · omega
  · rw [List.map_append, List.sum_append, List.map_singleton, List.sum_singleton]
    omega

theorem Packing.bounded_empty : Bounded empty :=
  List.forall_mem_singleton.mpr ⟨by decide, fun _ hmem => absurd hmem List.not_mem_nil⟩

/-- The table of sorted records, when its settled blocks stay below a target. -/
theorem Packing.Bounded.tableLength_le {capacity target : ℕ} {run : List Entry}
    (hbounded : (ofRun capacity run).Bounded) (hsorted : Versions.Sorted run)
    (hsettled : (ofRun capacity run).settledLength ≤ target) :
    (ofRun capacity run).tableLength ≤
      3 * (target + 2 * maxBlockLength) + (uint16Max + 16) := by
  obtain ⟨hclosed, hcurrent⟩ := @userKeys_ofRun capacity run hsorted
  have hlength := hbounded.length_le
  refine (Packing.tableLength_le ?_ ?_).trans (by omega)
  · intro entry hmem
    obtain ⟨block, hblock, hentry⟩ := List.mem_flatten.mp hmem
    refine (hbounded block ?_).2 entry hentry
    unfold blocks at hblock
    split_ifs at hblock
    · exact List.mem_append_left _ hblock
    · exact hblock
  · unfold blocks
    split_ifs
    · exact hclosed
    · rw [List.tail_append]
      split_ifs with hnone
      · exact fun _ hmem => absurd hmem List.not_mem_nil
      · refine List.forall_mem_append.mpr ⟨hclosed, List.forall_mem_singleton.mpr ?_⟩
        exact hcurrent fun hnil => hnone (List.isEmpty_iff.mpr hnil)

theorem Block.addEntry_bounded {block block' : Block} {entry : Entry} {forceWrite : Bool}
    (hadd : block.addEntry entry.key entry.value entry.txid forceWrite = .ok (some block')) :
    Packing.blockLength (block.entries ++ [entry]) ≤ Packing.maxBlockLength := by
  rw [Packing.blockLength, bodyLength_append]
  unfold addEntry at hadd
  split_ifs at hadd with hlengths hfull hoffset hcount
  · cases hadd
  · simp only [Packing.maxBlockLength, curSize, entrySize, uint16Max] at *
    omega

/-- A record that is not refused by an exception is taken if it is forced, first or fits. -/
theorem Block.addEntry_room {block : Block} {entry : Entry} {forceWrite : Bool}
    {result : Option Block}
    (hadd : block.addEntry entry.key entry.value entry.txid forceWrite = .ok result) :
    result = if forceWrite = true ∨ block.entries = [] ∨
        Packing.bodyLength (block.entries ++ [entry]) ≤ block.capacity then
      some { block with entries := block.entries ++ [entry] } else none := by
  rw [bodyLength_append]
  unfold addEntry at hadd
  split_ifs at hadd with hlengths hfull hoffset hcount
  · obtain ⟨hforce, hempty, hroom⟩ := hfull
    rw [if_neg]
    · exact (Except.ok.inj hadd).symm
    · rintro (hyes | hnil | hfits)
      · exact hforce hyes
      · exact hempty (List.isEmpty_iff.mpr hnil)
      · exact hroom.not_ge hfits
  · rw [if_pos]
    · exact (Except.ok.inj hadd).symm
    · by_contra hno
      rw [not_or, not_or] at hno
      exact hfull ⟨hno.1, fun hnil => hno.2.1 (List.isEmpty_iff.mp hnil), not_le.mp hno.2.2⟩

namespace SSTBuilder

/-- What `add` can do when it does not throw: the current block takes the record, or it is
finished and a new one takes it. -/
theorem add_cases {builder builder' : SSTBuilder} {entry : Entry}
    (hadd : builder.add entry.key entry.value entry.txid = .ok builder') :
    (∃ block, builder.block.addEntry entry.key entry.value entry.txid
          (decide (entry.key = builder.lastKey)) = .ok (some block) ∧
        builder'.block = block ∧ builder'.blocks = builder.blocks ∧
        builder'.dataLength = builder.dataLength ∧ builder'.blockSize = builder.blockSize ∧
        builder'.firstKey = (if builder.firstKey = [] then entry.key else builder.firstKey) ∧
        builder'.lastKey = entry.key) ∨
      ∃ encodedSize block, builder.block.addEntry entry.key entry.value entry.txid
          (decide (entry.key = builder.lastKey)) = .ok none ∧
        builder.block.encodedSize = .ok encodedSize ∧
        (Block.new builder.blockSize).addEntry entry.key entry.value entry.txid false =
          .ok (some block) ∧
        builder'.block = block ∧
        builder'.blocks = builder.blocks ++
          [(⟨if builder.firstKey = [] then entry.key else builder.firstKey, builder.lastKey⟩,
            builder.block)] ∧
        builder'.dataLength = builder.dataLength + encodedSize ∧
        builder'.blockSize = builder.blockSize ∧ builder'.firstKey = entry.key ∧
        builder'.lastKey = entry.key := by
  unfold SSTBuilder.add at hadd
  dsimp only at hadd
  split at hadd
  next err _ => cases hadd
  next block hblock =>
      obtain rfl := Except.ok.inj hadd
      exact Or.inl ⟨block, hblock, rfl, rfl, rfl, rfl, rfl, rfl⟩
  next hfull =>
      unfold finishBlock at hadd
      dsimp only at hadd
      cases hencoded : builder.block.encodedSize with
      | error err =>
          rw [hencoded] at hadd
          cases hadd
      | ok encodedSize =>
          rw [hencoded] at hadd
          dsimp only at hadd
          split at hadd
          next err _ => cases hadd
          next opened hopened =>
              obtain rfl := Except.ok.inj hadd
              obtain ⟨block, rfl⟩ : ∃ block, opened = some block := by
                rcases Block.addEntry_eq_ok hopened with ⟨-, -, hne⟩ | ⟨hsome, -⟩
                · exact absurd rfl hne
                · exact ⟨_, hsome⟩
              exact Or.inr ⟨encodedSize, block, hfull, rfl, hopened, rfl, rfl, rfl, rfl, rfl, rfl⟩

/-- The builder after the records that are packed so. -/
structure Packs (capacity : ℕ) (builder : SSTBuilder) (packing : Packing) : Prop where
  closed : (builder.blocks.map fun block => block.2.entries) = packing.closed
  current : builder.block = ⟨packing.current, capacity⟩
  blockSize : builder.blockSize = capacity
  dataLength : builder.dataLength = packing.closedLength
  firstKey : builder.firstKey = firstUserKey packing.current
  lastKey : builder.lastKey = finalKey packing.current
  described : Described builder.blocks packing.current
  userKeys : ∀ block ∈ builder.blocks, block.1.firstKey ≠ []

theorem packs_new (config : Config) :
    Packs config.lsmBlockSize (new config) Packing.empty where
  closed := rfl
  current := rfl
  blockSize := rfl
  dataLength := rfl
  firstKey := rfl
  lastKey := rfl
  described := trivial
  userKeys := fun _ hmem => absurd hmem List.not_mem_nil

end SSTBuilder

/-- Records behind blocks with first keys do not change what is said of the blocks. -/
theorem Described.append_of_userKeys {blocks : List (BlockMeta × Block)}
    {following : List Entry} (hdescribed : Described blocks following)
    (huser : ∀ block ∈ blocks, block.1.firstKey ≠ []) (more : List Entry) :
    Described blocks (following ++ more) := by
  induction blocks with
  | nil => trivial
  | cons block rest ih =>
      obtain ⟨hfirst, hlast, hrest⟩ := hdescribed
      obtain ⟨hblock, hothers⟩ := List.forall_mem_cons.mp huser
      refine ⟨?_, hlast, ih hrest hothers⟩
      rw [hfirst] at hblock
      rw [hfirst, ← List.append_assoc _ following, ← List.append_assoc _ _ more,
        firstUserKey_append (block.2.entries ++ _) more, if_neg hblock]

/-- A run without user keys ends with the empty key. -/
theorem finalKey_eq_nil_of_firstUserKey {entries : List Entry}
    (hfirst : firstUserKey entries = []) : finalKey entries = [] := by
  by_cases hempty : entries = []
  · rw [hempty]
    rfl
  · obtain ⟨entry, hmem, hkey⟩ := finalKey_mem hempty
    by_contra hne
    exact firstUserKey_ne_nil hmem (hkey ▸ hne) hfirst

theorem Packing.blockLength_of_encodedSize {block : Block} {encodedSize : ℕ}
    (hencoded : block.encodedSize = .ok encodedSize) :
    encodedSize = blockLength block.entries := by
  unfold Block.encodedSize at hencoded
  split_ifs at hencoded
  exact (Except.ok.inj hencoded).symm

namespace SSTBuilder

variable {capacity : ℕ} {builder builder' : SSTBuilder} {packing : Packing} {entry : Entry}

/-- One record more. -/
theorem Packs.add (hpacks : builder.Packs capacity packing)
    (hadd : builder.add entry.key entry.value entry.txid = .ok builder') :
    builder'.Packs capacity (packing.push capacity entry) := by
  have hentries : builder.block.entries = packing.current := by rw [hpacks.current]
  have hcapacity : builder.block.capacity = capacity := by rw [hpacks.current]
  have hfirst : (if builder.firstKey = [] then entry.key else builder.firstKey) =
      firstUserKey (packing.current ++ [entry]) := by
    rw [firstUserKey_append, firstUserKey_singleton, hpacks.firstKey]
  rcases add_cases hadd with
    ⟨block, hblock, hcurrent, hblocks, hlength, hsize, hfirstKey, hlastKey⟩ |
    ⟨encodedSize, block, hblock, hencoded, hopened, hcurrent, hblocks, hlength, hsize,
      hfirstKey, hlastKey⟩
  · have hroom := Block.addEntry_room hblock
    split_ifs at hroom with hfits
    rw [decide_eq_true_iff, hentries, hcapacity, hpacks.lastKey] at hfits
    have hpush : packing.push capacity entry =
        ⟨packing.closed, packing.current ++ [entry]⟩ := if_pos (or_left_comm.mp hfits)
    rw [hpush]
    constructor
    · rw [hblocks, hpacks.closed]
    · rw [hcurrent, Option.some.inj hroom, hentries, hcapacity]
    · rw [hsize, hpacks.blockSize]
    · rw [hlength, hpacks.dataLength]
      rfl
    · rw [hfirstKey, hfirst]
    · rw [hlastKey, finalKey_append]
    · rw [hblocks]
      exact hpacks.described.append_of_userKeys hpacks.userKeys [entry]
    · rw [hblocks]
      exact hpacks.userKeys
  · have hroom := Block.addEntry_room hblock
    split_ifs at hroom with hfits
    rw [decide_eq_true_iff, hentries, hcapacity, hpacks.lastKey] at hfits
    have hpush : packing.push capacity entry =
        ⟨packing.closed ++ [packing.current], [entry]⟩ :=
      if_neg fun hroom => hfits (or_left_comm.mp hroom)
    have hopen := Block.addEntry_room hopened
    have hnew : (Block.new builder.blockSize).entries = [] := rfl
    rw [if_pos (Or.inr (Or.inl hnew)), hpacks.blockSize] at hopen
    -- A block without user keys ends with the empty key, which a record that opens the next
    -- block does not have.
    have huser : (if builder.firstKey = [] then entry.key else builder.firstKey) ≠ [] := by
      split_ifs with hnone
      · intro hkey
        rw [hpacks.firstKey] at hnone
        exact hfits (Or.inl (hkey.trans (finalKey_eq_nil_of_firstUserKey hnone).symm))
      · exact hnone
    rw [hpush]
    constructor
    · rw [hblocks, List.map_append, hpacks.closed, List.map_singleton, hentries]
    · rw [hcurrent, Option.some.inj hopen]
      rfl
    · rw [hsize, hpacks.blockSize]
    · rw [hlength, hpacks.dataLength, Packing.blockLength_of_encodedSize hencoded, hentries]
      simp only [Packing.closedLength, List.map_append, List.sum_append, List.map_singleton,
        List.sum_singleton]
    · rw [hfirstKey, firstUserKey_singleton]
    · rw [hlastKey]
      rfl
    · rw [hblocks]
      refine described_append_singleton.mpr ⟨?_, ?_, ?_⟩
      · rw [hentries]
        exact hpacks.described.append_of_userKeys hpacks.userKeys [entry]
      · rw [hentries, hfirst]
      · rw [hentries, hpacks.lastKey]
    · rw [hblocks]
      exact List.forall_mem_append.mpr ⟨hpacks.userKeys, List.forall_mem_singleton.mpr huser⟩

theorem Packs.bounded (hpacks : builder.Packs capacity packing)
    (hadd : builder.add entry.key entry.value entry.txid = .ok builder')
    (hbounded : packing.Bounded) : (packing.push capacity entry).Bounded := by
  have hentries : builder.block.entries = packing.current := by rw [hpacks.current]
  have hcapacity : builder.block.capacity = capacity := by rw [hpacks.current]
  obtain ⟨hclosed, hcurrent⟩ := List.forall_mem_append.mp hbounded
  rw [List.forall_mem_singleton] at hcurrent
  rcases add_cases hadd with ⟨block, hblock, -⟩ | ⟨encodedSize, block, hblock, -, hopened, -⟩
  · have hkey := (Block.addEntry_lengths hblock).1
    have hlength := Block.addEntry_bounded hblock
    have hroom := Block.addEntry_room hblock
    split_ifs at hroom with hfits
    rw [decide_eq_true_iff, hentries, hcapacity, hpacks.lastKey] at hfits
    rw [Packing.push, if_pos (or_left_comm.mp hfits)]
    refine List.forall_mem_append.mpr ⟨hclosed, List.forall_mem_singleton.mpr ⟨?_, ?_⟩⟩
    · rwa [hentries] at hlength
    · exact List.forall_mem_append.mpr ⟨hcurrent.2, List.forall_mem_singleton.mpr hkey⟩
  · have hkey := (Block.addEntry_lengths hblock).1
    have hlength := Block.addEntry_bounded hopened
    have hroom := Block.addEntry_room hblock
    split_ifs at hroom with hfits
    rw [decide_eq_true_iff, hentries, hcapacity, hpacks.lastKey] at hfits
    rw [Packing.push, if_neg fun hroom => hfits (or_left_comm.mp hroom)]
    refine List.forall_mem_append.mpr ⟨hbounded, List.forall_mem_singleton.mpr ⟨hlength, ?_⟩⟩
    exact List.forall_mem_singleton.mpr hkey

/-- A whole run of records. -/
theorem Packs.addAll {run entries : List Entry}
    (hpacks : builder.Packs capacity (Packing.ofRun capacity run))
    (hbounded : (Packing.ofRun capacity run).Bounded)
    (hadd : builder.addAll entries = .ok builder') :
    builder'.Packs capacity (Packing.ofRun capacity (run ++ entries)) ∧
      (Packing.ofRun capacity (run ++ entries)).Bounded := by
  induction entries generalizing builder run with
  | nil =>
      obtain rfl := Except.ok.inj hadd
      rw [List.append_nil]
      exact ⟨hpacks, hbounded⟩
  | cons entry rest ih =>
      rw [SSTBuilder.addAll, List.foldlM_cons] at hadd
      cases hstep : builder.add entry.key entry.value entry.txid with
      | error err =>
          rw [hstep] at hadd
          cases hadd
      | ok next =>
          rw [hstep] at hadd
          have hnext := hpacks.add hstep
          have hmore := hpacks.bounded hstep hbounded
          rw [← Packing.ofRun_append] at hnext hmore
          have hrest := ih hnext hmore hadd
          rwa [List.append_assoc, List.singleton_append] at hrest

/-- The table that is built from packed records. -/
theorem Packs.build (hpacks : builder.Packs capacity packing) {sstId : ℕ} {sst : SST}
    (hbuild : builder.build sstId = .ok sst) :
    (sst.blocks.map fun block => block.2.entries) = packing.blocks ∧
      Described sst.blocks [] := by
  have hentries : builder.block.entries = packing.current := by rw [hpacks.current]
  unfold SSTBuilder.build at hbuild
  split at hbuild
  next err _ => cases hbuild
  next finished hfinished =>
      split at hbuild
      next front back hfront hback =>
          split_ifs at hbuild
          obtain rfl := Except.ok.inj hbuild
          dsimp only
          split_ifs at hfinished with hempty
          · obtain rfl := Except.ok.inj hfinished
            have hnil : packing.current = [] := by
              rw [← hentries]
              exact List.isEmpty_iff.mp hempty
            have hdescribed := hpacks.described
            rw [hnil] at hdescribed
            exact ⟨by rw [hpacks.closed, Packing.blocks, if_pos hnil], hdescribed⟩
          · obtain ⟨dataLength, rfl⟩ := finishBlock_eq_ok hfinished
            have hne : packing.current ≠ [] := by
              rw [← hentries]
              exact fun hnil => hempty (List.isEmpty_iff.mpr hnil)
            constructor
            · rw [List.map_append, hpacks.closed, List.map_singleton, hentries,
                Packing.blocks, if_neg hne]
            · refine described_append_singleton.mpr ⟨?_, ?_, ?_⟩
              · rw [List.append_nil, hentries]
                exact hpacks.described
              · rw [List.append_nil, hentries, hpacks.firstKey]
              · rw [hentries, hpacks.lastKey]
      next => cases hbuild

end SSTBuilder

/-- A block of a bounded packing ends far below 2^32 bytes. -/
theorem SSTBuilder.Packs.blocksShort {capacity : ℕ} {builder : SSTBuilder} {packing : Packing}
    (hpacks : builder.Packs capacity packing) (hbounded : packing.Bounded) {sstId : ℕ} {sst : SST}
    (hbuild : builder.build sstId = .ok sst) : sst.BlocksShort := by
  intro block hmem
  have hblock : block.2.entries ∈ packing.blocks := by
    rw [← (hpacks.build hbuild).1]
    exact List.mem_map_of_mem hmem
  have hlength : Packing.blockLength block.2.entries ≤ Packing.maxBlockLength := by
    refine (hbounded _ ?_).1
    unfold Packing.blocks at hblock
    split_ifs at hblock
    · exact List.mem_append_left _ hblock
    · exact hblock
  exact hlength.trans_lt (by decide)

/-! ## Records that are always taken -/

/-- Lengths that `add_entry` accepts. -/
def Entry.Accepted (entry : Entry) : Prop :=
  entry.key.length ≤ uint16Max ∧ entry.value.length ≤ uint16Max

/-- Blocks of at most 64 KiB that take a record under a new key do not throw. -/
theorem Block.addEntry_ok {block : Block} (hcapacity : block.capacity ≤ uint16Max)
    {entry : Entry} (haccepted : entry.Accepted) :
    ∃ result, block.addEntry entry.key entry.value entry.txid false = .ok result := by
  unfold addEntry
  rw [if_neg (not_or.mpr ⟨haccepted.1.not_gt, haccepted.2.not_gt⟩)]
  by_cases hfull : ¬(false = true) ∧ ¬block.isEmpty = true ∧
      block.curSize + entrySize ⟨entry.key, entry.value, entry.txid⟩ + 2 > block.capacity
  · rw [if_pos hfull]
    exact ⟨_, rfl⟩
  · have hroom : block.dataSize ≤ uint16Max ∧ block.size < uint16Max := by
      by_cases hempty : block.isEmpty = true
      · rw [dataSize, size, List.isEmpty_iff.mp hempty]
        decide
      · have hcur : block.curSize = block.dataSize + block.size * 2 + 2 := rfl
        have hfits : ¬block.curSize + entrySize ⟨entry.key, entry.value, entry.txid⟩ + 2 >
            block.capacity := fun hmore => hfull ⟨Bool.false_ne_true, hempty, hmore⟩
        omega
    rw [if_neg hfull, if_neg hroom.1.not_gt, if_neg hroom.2.not_ge]
    exact ⟨_, rfl⟩

namespace SSTBuilder

variable {config : Config} {builder : SSTBuilder} {packing : Packing} {entry : Entry}

/-- A builder that takes every record under a new key. -/
structure Ready (config : Config) (builder : SSTBuilder) : Prop where
  createFails : builder.createFails = config.createFails
  size : builder.block.size ≤ uint16Max

theorem ready_new (config : Config) : Ready config (new config) := ⟨rfl, Nat.zero_le _⟩

theorem Ready.add (hready : builder.Ready config)
    (hpacks : builder.Packs config.lsmBlockSize packing)
    (hcapacity : config.lsmBlockSize ≤ uint16Max) (haccepted : entry.Accepted)
    (hkey : entry.key ≠ finalKey packing.current) :
    ∃ builder', builder.add entry.key entry.value entry.txid = .ok builder' ∧
      builder'.Ready config := by
  have hforce : decide (entry.key = builder.lastKey) = false := by
    rw [hpacks.lastKey]
    exact decide_eq_false hkey
  have hblock : builder.block.capacity ≤ uint16Max := by
    rw [hpacks.current]
    exact hcapacity
  have hnew : (Block.new builder.blockSize).capacity ≤ uint16Max := by
    rw [hpacks.blockSize]
    exact hcapacity
  have hsize : ∀ {block block' : Block}, block.addEntry entry.key entry.value entry.txid false =
      .ok (some block') → block'.size ≤ uint16Max := by
    intro block block' hadd
    rcases Block.addEntry_eq_ok hadd with ⟨hnone, -⟩ | ⟨hsome, hroom⟩
    · cases hnone
    · rw [Option.some.inj hsome, Block.size, List.length_append]
      exact hroom
  obtain ⟨result, hresult⟩ := Block.addEntry_ok hblock haccepted
  obtain ⟨opened, hopened⟩ := Block.addEntry_ok hnew haccepted
  unfold SSTBuilder.add
  dsimp only
  rw [hforce, hresult]
  cases result with
  | some block => exact ⟨_, rfl, hready.createFails, hsize hresult⟩
  | none =>
      unfold finishBlock Block.encodedSize
      dsimp only
      rw [if_neg hready.size.not_gt]
      dsimp only
      rw [hopened]
      refine ⟨_, rfl, hready.createFails, ?_⟩
      cases opened with
      | none => exact Nat.zero_le _
      | some block => exact hsize hopened

theorem Ready.build (hready : builder.Ready config)
    (hfull : builder.block.entries ≠ []) {sstId : ℕ}
    (hcreate : config.createFails sstId = false) : ∃ sst, builder.build sstId = .ok sst := by
  have hempty : ¬builder.block.isEmpty = true := fun hempty => hfull (List.isEmpty_iff.mp hempty)
  unfold SSTBuilder.build finishBlock Block.encodedSize
  rw [if_neg hempty, if_neg hready.size.not_gt]
  dsimp only
  rw [List.head?_append, List.getLast?_append, hready.createFails, hcreate]
  cases builder.blocks.head? <;> exact ⟨_, rfl⟩

/-- Records in strict order of their keys are added without an exception. -/
theorem Ready.addAll {run entries : List Entry} (hready : builder.Ready config)
    (hpacks : builder.Packs config.lsmBlockSize (Packing.ofRun config.lsmBlockSize run))
    (hcapacity : config.lsmBlockSize ≤ uint16Max) (haccepted : ∀ entry ∈ entries, entry.Accepted)
    (hstrict : Versions.StrictKeys entries)
    (hnew : ∀ entry ∈ entries,
      finalKey (Packing.ofRun config.lsmBlockSize run).current < entry.key) :
    ∃ builder', builder.addAll entries = .ok builder' ∧ builder'.Ready config ∧
      builder'.Packs config.lsmBlockSize
        (Packing.ofRun config.lsmBlockSize (run ++ entries)) := by
  induction entries generalizing builder run with
  | nil => exact ⟨builder, rfl, hready, by rwa [List.append_nil]⟩
  | cons entry rest ih =>
      obtain ⟨hentry, hothers⟩ := List.forall_mem_cons.mp haccepted
      obtain ⟨hlater, htail⟩ := List.pairwise_cons.mp hstrict
      obtain ⟨builder', hadd, hready'⟩ := hready.add hpacks hcapacity hentry
        (hnew entry List.mem_cons_self).ne'
      have hpacks' := hpacks.add hadd
      rw [← Packing.ofRun_append] at hpacks'
      have hlast : ∀ other ∈ rest,
          finalKey (Packing.ofRun config.lsmBlockSize (run ++ [entry])).current < other.key := by
        intro other hmem
        rw [Packing.ofRun_append, Packing.finalKey_push]
        exact hlater other hmem
      obtain ⟨last, hadds, hready'', hpacks''⟩ := ih hready' hpacks' hothers htail hlast
      refine ⟨last, ?_, hready'', ?_⟩
      · rw [SSTBuilder.addAll, List.foldlM_cons, hadd]
        exact hadds
      · rwa [List.append_assoc] at hpacks''

end SSTBuilder

namespace SST

theorem length_block (block : Block) :
    block.raw.encoded.length = Packing.blockLength block.entries :=
  block.length_raw_encoded

theorem dataLength_eq (sst : SST) : sst.dataLength =
    ((sst.blocks.map fun block => block.2.entries).map Packing.blockLength).sum := by
  rw [dataLength, List.map_map]
  rfl

theorem length_described {blocks : List (BlockMeta × Block)} (hdescribed : Described blocks [])
    (offset : ℕ) : ((locate offset blocks).flatMap BlockMeta.encodeOne).length =
      Packing.describedLength (blocks.map fun block => block.2.entries) := by
  induction blocks generalizing offset with
  | nil => rfl
  | cons block rest ih =>
      obtain ⟨hfirst, hlast, hrest⟩ := hdescribed
      rw [List.append_nil] at hfirst
      rw [locate, List.flatMap_cons, List.length_append, ih hrest, BlockMeta.length_encodeOne,
        hfirst, hlast, List.map_cons, Packing.describedLength, List.flatMap_def]

/-- The bytes in front of the filter are those of the packing. -/
theorem tableLength_eq {config : Config} {capacity sstId : ℕ} {builder : SSTBuilder}
    {packing : Packing} {sst : SST} (hpacks : builder.Packs capacity packing)
    (hbuild : builder.build sstId = .ok sst) :
    (sst.data ++ sst.metaSection config).length = packing.tableLength := by
  obtain ⟨hblocks, hdescribed⟩ := hpacks.build hbuild
  rw [List.length_append, length_data, dataLength_eq, hblocks, metaSection,
    BlockMeta.length_encodeMetaToSlice, length_described hdescribed, hblocks,
    Packing.tableLength]

end SST

end KopiDb

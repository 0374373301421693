import KopiDb.Core
import KopiDb.Lib.Cursor
import KopiDb.Lib.BinarySearch

/-!
# Blocks and block iterators

A block holds a run of records that is written and read as one piece.  The model
keeps the decoded records; the byte counts that decide when a block is full are
those of the encoding.
-/

namespace KopiDb

structure Block where
  entries : List Entry
  capacity : ℕ
  deriving DecidableEq, Repr

namespace Block

/-- `Block::Block(capacity)` -/
def new (capacity : ℕ) : Block := ⟨[], capacity⟩

/-- `data.size()`; also the start offset of the next record. -/
def dataSize (block : Block) : ℕ := (block.entries.map entrySize).sum

/-- `size()`: the number of offsets. -/
def size (block : Block) : ℕ := block.entries.length

/-- `cur_size()`: the data, two bytes for every offset and two for their number. -/
def curSize (block : Block) : ℕ := block.dataSize + block.size * 2 + 2

def isEmpty (block : Block) : Bool := block.entries.isEmpty

/-- `add_entry`: `none` when the block is full and the caller has to start another
one. -/
def addEntry (block : Block) (key value : Bytes) (trancId : ℕ)
    (forceWrite : Bool) : Except Err (Option Block) :=
  if key.length > uint16Max ∨ value.length > uint16Max then
    .error (.lengthError
      "Block::add_entry: key or value exceeds uint16_t length limit")
  else if ¬forceWrite ∧ ¬block.isEmpty ∧
      block.curSize + entrySize ⟨key, value, trancId⟩ + 2 > block.capacity then
    .ok none
  else if block.dataSize > uint16Max then
    .error (.lengthError "Block::add_entry: entry offset exceeds uint16_t limit")
  else if block.size ≥ uint16Max then
    .error (.lengthError "Block::add_entry: entry count exceeds uint16_t limit")
  else .ok (some { block with entries := block.entries ++ [⟨key, value, trancId⟩] })

/-- The bytes of an encoded block with its checksum. -/
def encodedLength (block : Block) : ℕ := block.dataSize + block.size * 2 + 2 + 4

/-- The byte count of `encode()` with its checksum. -/
def encodedSize (block : Block) : Except Err ℕ :=
  if block.size > uint16Max then .error (.runtimeError "Too many entries")
  else .ok (block.dataSize + block.size * 2 + 2 + 4)

/-- What `add_entry` can do when it does not throw: refuse a non-empty block
unless forced, or append the record. -/
theorem addEntry_eq_ok {block : Block} {key value : Bytes} {trancId : ℕ}
    {forceWrite : Bool} {result : Option Block}
    (hadd : block.addEntry key value trancId forceWrite = .ok result) :
    (result = none ∧ forceWrite = false ∧ block.entries ≠ []) ∨
      (result = some { block with entries := block.entries ++ [⟨key, value, trancId⟩] } ∧
        block.size < uint16Max) := by
  unfold addEntry at hadd
  split_ifs at hadd with hlen hfull hoffset hcount
  · left
    obtain rfl := Except.ok.inj hadd
    exact ⟨rfl, by simpa using hfull.1, by simpa [isEmpty] using hfull.2.1⟩
  · right
    exact ⟨(Except.ok.inj hadd).symm, by omega⟩

theorem addEntry_lengths {block : Block} {key value : Bytes} {trancId : ℕ}
    {forceWrite : Bool} {result : Option Block}
    (hadd : block.addEntry key value trancId forceWrite = .ok result) :
    key.length ≤ uint16Max ∧ value.length ≤ uint16Max := by
  unfold addEntry at hadd
  split_ifs at hadd with hlen <;> exact not_or.mp hlen |>.imp not_lt.mp not_lt.mp

/-- `is_same_key` -/
def isSameKey (block : Block) (idx : ℕ) (targetKey : Bytes) : Bool :=
  match block.entries[idx]? with
  | none => false
  | some entry => decide (entry.key = targetKey)

/-- The retreat of `adjust_idx_by_tranc_id` to the first record of a key. -/
def groupStart (block : Block) (key : Bytes) : ℕ → ℕ
  | 0 => 0
  | idx + 1 => if block.isSameKey idx key then groupStart block key idx else idx + 1

/-- The scan of `adjust_idx_by_tranc_id` over the versions of a key. -/
def scanGroup (key : Bytes) (trancId : ℕ) (isAborted : ℕ → Bool) :
    List Entry → ℕ → Option ℕ
  | [], _ => none
  | entry :: rest, idx =>
      if entry.key = key then
        if Versions.visible trancId isAborted entry.txid then some idx
        else scanGroup key trancId isAborted rest (idx + 1)
      else none

/-- `adjust_idx_by_tranc_id`: the first visible version of the key at `idx`,
`none` for `-1`. -/
def adjustIdxByTrancId (block : Block) (idx trancId : ℕ) (isAborted : ℕ → Bool) :
    Option ℕ :=
  match block.entries[idx]? with
  | none => none
  | some entry =>
      let start := block.groupStart entry.key idx
      scanGroup entry.key trancId isAborted (block.entries.drop start) start

/-- `compare_key_at`, seen as the position of the record relative to the key. -/
def compareKeyAt (block : Block) (target : Bytes) (idx : ℕ) : Ordering :=
  match block.entries[idx]? with
  | none => .gt
  | some entry =>
      if entry.key < target then .lt else if entry.key = target then .eq else .gt

/-- `get_idx_binary` -/
def getIdxBinary (block : Block) (key : Bytes) (trancId : ℕ)
    (isAborted : ℕ → Bool) : Option ℕ :=
  match BinarySearch.binarySearch (block.compareKeyAt key) block.size with
  | .hit mid => block.adjustIdxByTrancId mid trancId isAborted
  | .miss _ => none

private theorem compareKeyAt_eq {block : Block} {target : Bytes} {idx : ℕ}
    (hidx : idx < block.entries.length) :
    block.compareKeyAt target idx =
      if block.entries[idx].key < target then .lt
      else if block.entries[idx].key = target then .eq else .gt := by
  simp [compareKeyAt, List.getElem?_eq_getElem hidx]

/-- In storage order the keys ascend with the index. -/
theorem key_le_of_le {entries : List Entry} (hsorted : Versions.Sorted entries)
    {i j : ℕ} (hij : i ≤ j) (hi : i < entries.length) (hj : j < entries.length) :
    entries[i].key ≤ entries[j].key := by
  rcases hij.lt_or_eq with hlt | rfl
  · exact (List.pairwise_iff_getElem.mp hsorted i j _ hj hlt).key_le
  · exact le_rfl

private theorem compareKeyAt_ordered {block : Block}
    (hsorted : Versions.Sorted block.entries) (target : Bytes) :
    BinarySearch.Ordered (block.compareKeyAt target) block.size where
  lt_of_le := by
    intro i j hij hj hlt
    have hle := key_le_of_le hsorted hij (hij.trans_lt hj) hj
    rw [compareKeyAt_eq hj] at hlt
    split_ifs at hlt with hkey
    rw [compareKeyAt_eq (hij.trans_lt hj), if_pos (hle.trans_lt hkey)]
  gt_of_le := by
    intro i j hij hj hgt
    have hi : i < block.entries.length := hij.trans_lt hj
    have hle := key_le_of_le hsorted hij hi hj
    rw [compareKeyAt_eq hi] at hgt
    split_ifs at hgt with hlt heq
    have hkey : target < block.entries[i].key :=
      lt_of_le_of_ne (not_lt.mp hlt) (Ne.symm heq)
    rw [compareKeyAt_eq hj, if_neg (hkey.trans_le hle).not_gt,
      if_neg (hkey.trans_le hle).ne']

private theorem groupStart_le (block : Block) (key : Bytes) (idx : ℕ) :
    block.groupStart key idx ≤ idx := by
  induction idx with
  | zero => exact le_rfl
  | succ idx ih =>
      rw [groupStart]
      split_ifs
      · exact ih.trans (Nat.le_succ idx)
      · exact le_rfl

/-- The retreat stops on a record of the key, behind the records of smaller keys. -/
private theorem groupStart_spec {block : Block} (hsorted : Versions.Sorted block.entries)
    {key : Bytes} {idx : ℕ} (hidx : idx < block.entries.length)
    (hkey : block.entries[idx].key = key) :
    (∀ entry ∈ block.entries.take (block.groupStart key idx), entry.key < key) ∧
      ∀ entry ∈ block.entries.drop (block.groupStart key idx), key ≤ entry.key := by
  have hfrom : ∀ {start : ℕ} (hstart : start < block.entries.length),
      block.entries[start].key = key →
        ∀ entry ∈ block.entries.drop start, key ≤ entry.key := by
    intro start hstart hstartKey entry hmem
    obtain ⟨i, hi, rfl⟩ := List.mem_drop_iff_getElem.mp hmem
    rw [← hstartKey]
    exact key_le_of_le hsorted (Nat.le_add_right start i) hstart _
  induction idx with
  | zero => exact ⟨by simp [groupStart], hfrom hidx hkey⟩
  | succ idx ih =>
      have hprev : idx < block.entries.length := by omega
      rw [groupStart]
      split_ifs with hsame
      · apply ih hprev
        simpa [isSameKey, List.getElem?_eq_getElem hprev] using hsame
      · refine ⟨?_, hfrom hidx hkey⟩
        intro entry hmem
        obtain ⟨i, hi, rfl⟩ := List.mem_take_iff_getElem.mp hmem
        have hne : block.entries[idx].key ≠ key := by
          simpa [isSameKey, List.getElem?_eq_getElem hprev] using hsame
        have hlast := key_le_of_le hsorted (Nat.le_succ idx) hprev hidx
        rw [hkey] at hlast
        exact (key_le_of_le hsorted (by omega : i ≤ idx) _ hprev).trans_lt
          (lt_of_le_of_ne hlast hne)

private theorem scanGroup_eq {entries : List Entry} (hsorted : Versions.Sorted entries)
    {key : Bytes} (hfrom : ∀ entry ∈ entries, key ≤ entry.key) (trancId : ℕ)
    (isAborted : ℕ → Bool) (start : ℕ) :
    scanGroup key trancId isAborted entries start =
      (entries.findIdx? fun entry => decide (entry.key = key) &&
        Versions.visible trancId isAborted entry.txid).map fun idx => idx + start := by
  induction entries generalizing start with
  | nil => rfl
  | cons entry rest ih =>
      rw [scanGroup, List.findIdx?_cons]
      split_ifs with hkey hvisible hhit hhit hhit
      · rw [Option.map_some, Nat.zero_add]
      · exact absurd (by simp [hkey, hvisible]) hhit
      · exact absurd hhit (by simp [hvisible])
      · rw [ih hsorted.tail fun entry hmem => hfrom entry (List.mem_cons_of_mem _ hmem),
          Option.map_map]
        congr 1
        funext idx
        rw [Function.comp_apply, Nat.add_assoc, Nat.add_comm start]
      · exact absurd hhit (by simp [hkey])
      · have hlt : key < entry.key :=
          lt_of_le_of_ne (hfrom entry List.mem_cons_self) (Ne.symm hkey)
        have hnone : rest.findIdx? (fun entry => decide (entry.key = key) &&
            Versions.visible trancId isAborted entry.txid) = none := by
          rw [List.findIdx?_eq_none_iff]
          intro other hmem
          simp [(hlt.trans_le (hsorted.key_le hmem)).ne']
        rw [hnone]
        rfl

/-- From any record of the key the adjustment finds its first eligible version. -/
theorem adjustIdxByTrancId_eq {block : Block} (hsorted : Versions.Sorted block.entries)
    {idx : ℕ} (hidx : idx < block.entries.length) {key : Bytes}
    (hkey : block.entries[idx].key = key) (trancId : ℕ) (isAborted : ℕ → Bool) :
    block.adjustIdxByTrancId idx trancId isAborted =
      block.entries.findIdx? fun entry => decide (entry.key = key) &&
        Versions.visible trancId isAborted entry.txid := by
  obtain ⟨hbefore, hfrom⟩ := groupStart_spec hsorted hidx hkey
  have hstart : block.groupStart key idx ≤ block.entries.length :=
    (groupStart_le block key idx).trans hidx.le
  have hnone : (block.entries.take (block.groupStart key idx)).findIdx?
      (fun entry => decide (entry.key = key) &&
        Versions.visible trancId isAborted entry.txid) = none := by
    rw [List.findIdx?_eq_none_iff]
    intro entry hmem
    simp [(hbefore entry hmem).ne]
  simp only [adjustIdxByTrancId, List.getElem?_eq_getElem hidx, hkey]
  rw [scanGroup_eq (hsorted.sublist (List.drop_sublist _ _)) hfrom]
  conv_rhs => rw [← List.take_append_drop (block.groupStart key idx) block.entries]
  rw [List.findIdx?_append, hnone, Option.none_or, List.length_take_of_le hstart]

/-- A block lookup finds the first eligible version of the key. -/
theorem getIdxBinary_eq {block : Block} (hsorted : Versions.Sorted block.entries)
    (key : Bytes) (trancId : ℕ) (isAborted : ℕ → Bool) :
    block.getIdxBinary key trancId isAborted =
      block.entries.findIdx? fun entry => decide (entry.key = key) &&
        Versions.visible trancId isAborted entry.txid := by
  have hordered := compareKeyAt_ordered hsorted key
  unfold getIdxBinary
  cases hsearch : BinarySearch.binarySearch (block.compareKeyAt key) block.size with
  | hit mid =>
      obtain ⟨hmid, hprobe⟩ := BinarySearch.binarySearch_hit hsearch
      have hkey : block.entries[mid].key = key := by
        rw [compareKeyAt_eq hmid] at hprobe
        split_ifs at hprobe with hlt heq
        exact heq
      exact adjustIdxByTrancId_eq hsorted hmid hkey trancId isAborted
  | miss stop =>
      symm
      rw [List.findIdx?_eq_none_iff]
      intro entry hmem
      have hne : entry.key ≠ key := by
        intro hkey
        obtain ⟨i, hi, rfl⟩ := List.mem_iff_getElem.mp hmem
        have hprobe : block.compareKeyAt key i = .eq := by
          rw [compareKeyAt_eq hi, if_neg (by rw [hkey]; exact lt_irrefl _), if_pos hkey]
        obtain ⟨found, hfound⟩ := BinarySearch.exists_binarySearch_hit hordered hi hprobe
        rw [hsearch] at hfound
        cases hfound
      simp [hne]

/-- A block lookup stands on the newest visible version of the key. -/
theorem getIdxBinary_eq_read {block : Block} (hsorted : Versions.Sorted block.entries)
    (key : Bytes) (trancId : ℕ) (isAborted : ℕ → Bool) :
    (block.getIdxBinary key trancId isAborted).bind
        (fun found => block.entries[found]?) =
      Versions.read block.entries key trancId isAborted := by
  rw [getIdxBinary_eq hsorted, hsorted.read_eq_find?]
  exact List.find?_eq_bind_findIdx?_getElem?.symm

end Block

/-! ## Block iterators -/

/-- `BlockIterator`: an index into a block with the filter of the reader. -/
structure BlockIterator where
  block : Block
  currentIndex : ℕ
  trancId : ℕ
  keepAllVersions : Bool
  isAborted : ℕ → Bool

namespace BlockIterator

/-- The records from the current index to the end of the block. -/
def rest (it : BlockIterator) : List Entry := it.block.entries.drop it.currentIndex

/-- `skip_by_tranc_id`: step over single records that the reader may not see. -/
def skipByTrancId (it : BlockIterator) : BlockIterator :=
  { it with
    currentIndex := it.currentIndex +
      (it.rest.takeWhile fun entry =>
        !Versions.visible it.trancId it.isAborted entry.txid).length }

/-- The constructor from an index. -/
def ofIndex (block : Block) (index trancId : ℕ) (keepAllVersions : Bool)
    (isAborted : ℕ → Bool) : BlockIterator :=
  skipByTrancId ⟨block, index, trancId, keepAllVersions, isAborted⟩

/-- The constructor from a key. -/
def ofKey (block : Block) (key : Bytes) (trancId : ℕ) (keepAllVersions : Bool)
    (isAborted : ℕ → Bool) : BlockIterator :=
  ⟨block, (block.getIdxBinary key trancId isAborted).getD block.size, trancId,
    keepAllVersions, isAborted⟩

def isEnd (it : BlockIterator) : Bool := it.block.size ≤ it.currentIndex

def current? (it : BlockIterator) : Option Entry := it.block.entries[it.currentIndex]?

/-- `operator++`: without `keep_all_versions_` the older versions of the key are
passed as well. -/
def next (it : BlockIterator) : BlockIterator :=
  match it.current? with
  | none => it
  | some entry =>
      let index := it.currentIndex + 1
      let index := if it.keepAllVersions then index else
        index + ((it.block.entries.drop index).takeWhile
          fun other => other.key = entry.key).length
      skipByTrancId { it with currentIndex := index }

theorem current?_eq_head? (it : BlockIterator) : it.current? = it.rest.head? := by
  rw [current?, rest, List.head?_drop]

theorem isEnd_iff {it : BlockIterator} : it.isEnd ↔ it.current? = none := by
  rw [isEnd, current?, List.getElem?_eq_none_iff, decide_eq_true_eq]
  rfl

private theorem drop_add_takeWhile {α : Type} (items : List α) (n : ℕ) (p : α → Bool) :
    items.drop (n + ((items.drop n).takeWhile p).length) =
      (items.drop n).dropWhile p := by
  rw [← List.drop_drop]
  conv_lhs =>
    arg 2
    rw [← List.takeWhile_append_dropWhile (p := p) (l := items.drop n)]
  rw [List.drop_left]

theorem rest_skipByTrancId (it : BlockIterator) :
    it.skipByTrancId.rest = it.rest.dropWhile fun entry =>
      !Versions.visible it.trancId it.isAborted entry.txid :=
  drop_add_takeWhile _ _ _

instance : Cursor BlockIterator Entry where
  current? := current?
  next := next
  remaining it := it.block.entries.length - it.currentIndex
  remaining_next := by
    intro it record hcurrent
    have hindex : it.currentIndex < it.block.entries.length :=
      (List.getElem?_eq_some_iff.mp hcurrent).1
    have hlt : it.currentIndex < it.next.currentIndex := by
      simp only [next, hcurrent, skipByTrancId]
      split_ifs <;> omega
    have hblock : it.next.block = it.block := by
      simp only [next, hcurrent, skipByTrancId]
    rw [hblock]
    omega

theorem cursor_current? (it : BlockIterator) : Cursor.current? it = it.rest.head? :=
  it.current?_eq_head?

theorem rest_next {it : BlockIterator} {entry : Entry} {rest : List Entry}
    (hrest : it.rest = entry :: rest) :
    it.next.rest =
      (if it.keepAllVersions then rest
        else rest.dropWhile fun other => other.key = entry.key).dropWhile fun other =>
          !Versions.visible it.trancId it.isAborted other.txid := by
  have hcurrent : it.current? = some entry := by
    rw [current?_eq_head?, hrest, List.head?_cons]
  have hdrop : it.block.entries.drop (it.currentIndex + 1) = rest := by
    have htail : it.rest.tail = rest := by rw [hrest, List.tail_cons]
    rw [← htail, BlockIterator.rest, List.tail_drop]
  simp only [next, hcurrent]
  rw [rest_skipByTrancId]
  congr 1
  unfold BlockIterator.rest
  dsimp only
  split_ifs
  · exact hdrop
  · rw [drop_add_takeWhile, hdrop]

private theorem toList_of_visible {it : BlockIterator} (hsorted : Versions.Sorted it.rest)
    (hvisible : ∀ entry, it.rest.head? = some entry →
      Versions.visible it.trancId it.isAborted entry.txid) :
    Cursor.toList it =
      Versions.shown it.trancId it.isAborted it.keepAllVersions it.rest := by
  induction hlen : it.rest.length using Nat.strong_induction_on generalizing it with
  | _ length ih =>
      cases hrest : it.rest with
      | nil =>
          rw [Cursor.toList_of_none (by rw [cursor_current?, hrest]; rfl)]
          simp [Versions.shown]
      | cons entry rest =>
          have hcurrent : Cursor.current? it = some entry := by
            rw [cursor_current?, hrest]; rfl
          have hnext := rest_next hrest
          rw [hrest] at hsorted
          have hfields : it.next.trancId = it.trancId ∧
              it.next.keepAllVersions = it.keepAllVersions ∧
              it.next.isAborted = it.isAborted := by
            have hsome : it.current? = some entry := hcurrent
            simp [next, hsome, skipByTrancId]
          have hsub : it.next.rest.Sublist rest := by
            rw [hnext]
            refine (List.dropWhile_sublist _).trans ?_
            split_ifs
            · exact List.Sublist.refl _
            · exact List.dropWhile_sublist _
          have htail := ih it.next.rest.length
            (by
              have := hsub.length_le
              rw [← hlen, hrest, List.length_cons]
              omega)
            (hsorted.tail.sublist hsub)
            (by
              intro other hother
              have hhead := List.head?_dropWhile_not
                (fun other : Entry => !Versions.visible it.trancId it.isAborted other.txid)
                (if it.keepAllVersions then rest
                  else rest.dropWhile fun other => other.key = entry.key)
              rw [← hnext, hother] at hhead
              rw [hfields.1, hfields.2.2]
              simpa using hhead)
            rfl
          rw [hfields.1, hfields.2.1, hfields.2.2, hnext, Versions.shown_dropWhile] at htail
          rw [Cursor.toList_of_some hcurrent,
            Versions.shown_cons hsorted (hvisible entry (by rw [hrest]; rfl))]
          exact congrArg (entry :: ·) htail

/-- Iterating a block from an index shows the visible records from there on. -/
theorem toList_ofIndex {block : Block} (hsorted : Versions.Sorted block.entries)
    (index trancId : ℕ) (keepAllVersions : Bool) (isAborted : ℕ → Bool) :
    Cursor.toList (ofIndex block index trancId keepAllVersions isAborted) =
      Versions.shown trancId isAborted keepAllVersions (block.entries.drop index) := by
  have hrest := rest_skipByTrancId ⟨block, index, trancId, keepAllVersions, isAborted⟩
  have hsub : Versions.Sorted
      (ofIndex block index trancId keepAllVersions isAborted).rest := by
    rw [ofIndex, hrest]
    exact hsorted.sublist ((List.dropWhile_sublist _).trans (List.drop_sublist _ _))
  rw [toList_of_visible hsub, ofIndex, hrest]
  · exact Versions.shown_dropWhile _ _ _ _
  · intro entry hentry
    have hhead := List.head?_dropWhile_not
      (fun entry : Entry => !Versions.visible trancId isAborted entry.txid)
      (block.entries.drop index)
    rw [ofIndex, hrest] at hentry
    simp only [rest] at hentry
    rw [hentry] at hhead
    change Versions.visible trancId isAborted entry.txid = true
    simpa using hhead

/-- The iterator built from a key stands on the newest visible version of it. -/
theorem ofKey_current? {block : Block} (hsorted : Versions.Sorted block.entries)
    (key : Bytes) (trancId : ℕ) (keepAllVersions : Bool) (isAborted : ℕ → Bool) :
    (ofKey block key trancId keepAllVersions isAborted).current? =
      Versions.read block.entries key trancId isAborted := by
  rw [← Block.getIdxBinary_eq_read hsorted]
  cases hidx : block.getIdxBinary key trancId isAborted with
  | none =>
      rw [Option.bind_none]
      simp [ofKey, current?, hidx, Block.size]
  | some idx => simp [ofKey, current?, hidx]

end BlockIterator

end KopiDb

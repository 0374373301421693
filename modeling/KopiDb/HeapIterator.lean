import KopiDb.Core
import KopiDb.Lib.Cursor

/-!
# Heap iterator

The priority queue that merges overlapping sources.  The model keeps the queue
as the list of its items in the order they are popped.
-/

namespace KopiDb

/-- `SearchItem`: a record with the rank of the source it was collected from. -/
structure SearchItem where
  entry : Entry
  idx : ℕ
  level : ℕ
  deriving DecidableEq, Repr

namespace SearchItem

/-- `operator<`: keys ascending, then versions descending, then ranks descending. -/
def lt (left right : SearchItem) : Bool :=
  if left.entry.key ≠ right.entry.key then decide (left.entry.key < right.entry.key)
  else if left.entry.txid ≠ right.entry.txid then
    decide (right.entry.txid < left.entry.txid)
  else decide (right.idx < left.idx)

/-- `left` may be popped before `right`. -/
def le (left right : SearchItem) : Prop := ¬lt right left

instance : DecidableRel le := fun left right =>
  inferInstanceAs (Decidable (¬lt right left))

theorem le_iff {left right : SearchItem} :
    le left right ↔
      left.entry.key < right.entry.key ∨
        (left.entry.key = right.entry.key ∧ (right.entry.txid < left.entry.txid ∨
          (left.entry.txid = right.entry.txid ∧ right.idx ≤ left.idx))) := by
  unfold le lt
  rcases lt_trichotomy left.entry.key right.entry.key with hlt | heq | hgt
  · simp [hlt, hlt.ne', hlt.not_gt]
  · simp only [heq, ne_eq, not_true_eq_false, if_false, lt_irrefl, true_and, false_or]
    rcases lt_trichotomy left.entry.txid right.entry.txid with hlt | htxid | hgt
    · simp [hlt, hlt.ne', hlt.ne, hlt.not_gt]
    · simp [htxid]
    · simp [hgt, hgt.ne, hgt.not_gt]
  · simp [hgt, hgt.ne, hgt.ne', hgt.not_gt]

theorem le_trans {first second third : SearchItem} (hleft : le first second)
    (hright : le second third) : le first third := by
  rw [le_iff] at hleft hright ⊢
  rcases hleft with hlt | ⟨heq, hleft⟩
  · rcases hright with hlt' | ⟨heq', -⟩
    · exact Or.inl (hlt.trans hlt')
    · exact Or.inl (heq' ▸ hlt)
  · rcases hright with hlt' | ⟨heq', hright⟩
    · exact Or.inl (heq ▸ hlt')
    · refine Or.inr ⟨heq.trans heq', ?_⟩
      omega

theorem le_total (left right : SearchItem) : le left right ∨ le right left := by
  rw [le_iff, le_iff]
  rcases lt_trichotomy left.entry.key right.entry.key with hlt | heq | hgt
  · exact Or.inl (Or.inl hlt)
  · rcases Nat.lt_trichotomy left.entry.txid right.entry.txid with hlt | htxid | hgt
    · exact Or.inr (Or.inr ⟨heq.symm, Or.inl hlt⟩)
    · rcases Nat.le_total right.idx left.idx with hidx | hidx
      · exact Or.inl (Or.inr ⟨heq, Or.inr ⟨htxid, hidx⟩⟩)
      · exact Or.inr (Or.inr ⟨heq.symm, Or.inr ⟨htxid.symm, hidx⟩⟩)
    · exact Or.inl (Or.inr ⟨heq, Or.inl hgt⟩)
  · exact Or.inr (Or.inl hgt)

instance : Std.Total le := ⟨le_total⟩

instance : IsTrans SearchItem le := ⟨fun _ _ _ => le_trans⟩

theorem precedes_of_le {left right : SearchItem} (hle : le left right) :
    Versions.Precedes left.entry right.entry := by
  rw [le_iff] at hle
  refine hle.imp_right fun h => ⟨h.1, ?_⟩
  omega

end SearchItem

/-- The pop order of a queue filled with `items`. -/
def heapOf (items : List SearchItem) : List SearchItem :=
  items.insertionSort SearchItem.le

theorem sorted_heapOf (items : List SearchItem) :
    Versions.Sorted ((heapOf items).map SearchItem.entry) :=
  List.pairwise_map.mpr
    ((List.pairwise_insertionSort SearchItem.le items).imp SearchItem.precedes_of_le)

theorem heapOf_perm (items : List SearchItem) : (heapOf items).Perm items :=
  List.perm_insertionSort _ _

/-- When the records of equal key and number were collected in descending rank,
the queue pops them in the order of collection. -/
theorem heapOf_sameVersions {items : List SearchItem}
    (hranks : items.Pairwise fun left right =>
      left.entry.key = right.entry.key → left.entry.txid = right.entry.txid →
        right.idx < left.idx) :
    Versions.SameVersions ((heapOf items).map SearchItem.entry)
      (items.map SearchItem.entry) := by
  intro key txid
  simp only [Versions.versionsOf, List.filter_map]
  congr 1
  have hperm := (heapOf_perm items).filter
    ((fun entry : Entry => decide (entry.key = key) && decide (entry.txid = txid)) ∘
      SearchItem.entry)
  have hmatch : ∀ {item : SearchItem},
      item ∈ items.filter ((fun entry : Entry => decide (entry.key = key) &&
        decide (entry.txid = txid)) ∘ SearchItem.entry) →
      item ∈ items ∧ item.entry.key = key ∧ item.entry.txid = txid := by
    intro item hmem
    simpa using hmem
  have hdesc : (items.filter ((fun entry : Entry => decide (entry.key = key) &&
      decide (entry.txid = txid)) ∘ SearchItem.entry)).Pairwise
      fun left right => right.idx < left.idx := by
    refine (hranks.filter _).imp_of_mem ?_
    intro left right hleft hright hrank
    have hleft := (hmatch hleft).2
    have hright := (hmatch hright).2
    exact hrank (hleft.1.trans hright.1.symm) (hleft.2.trans hright.2.symm)
  -- Both sides list the same items by descending rank, and the ranks differ.
  have hweak := hdesc.imp fun {left right : SearchItem} hlt =>
    (hlt.le : right.idx ≤ left.idx)
  refine List.Perm.eq_of_pairwise ?_ ?_ hweak hperm
  · intro left right hleft hright hle hge
    have hdistinct := hdesc.imp fun {first second : SearchItem} hlt =>
      (hlt.ne' : first.idx ≠ second.idx)
    by_contra hne
    have hsymm : Std.Symm fun first second : SearchItem => first.idx ≠ second.idx :=
      ⟨fun _ _ h => Ne.symm h⟩
    exact hdistinct.forall (hperm.subset hleft) hright hne (le_antisymm hge hle)
  · refine ((List.pairwise_insertionSort SearchItem.le items).filter _).imp_of_mem ?_
    intro left right hleft hright hle
    have hleft := (hmatch (hperm.subset hleft)).2
    have hright := (hmatch (hperm.subset hright)).2
    rw [SearchItem.le_iff] at hle
    rcases hle with hlt | ⟨-, hlt | ⟨-, hidx⟩⟩
    · rw [hleft.1, hright.1] at hlt
      exact absurd hlt (lt_irrefl _)
    · omega
    · exact hidx

/-- Items of sources in descending rank that hold every key and number at most once. -/
theorem ranked_flatMap {α : Type} {itemsOf : α → List SearchItem} (rank : α → ℕ)
    {sources : List α} (hrank : ∀ source, ∀ item ∈ itemsOf source, item.idx = rank source)
    (hdescending : sources.Pairwise fun left right => rank right < rank left)
    (hdistinct : ∀ source ∈ sources, (itemsOf source).Pairwise fun left right =>
      ¬(left.entry.key = right.entry.key ∧ left.entry.txid = right.entry.txid)) :
    (sources.flatMap itemsOf).Pairwise fun left right =>
      left.entry.key = right.entry.key → left.entry.txid = right.entry.txid →
        right.idx < left.idx := by
  induction sources with
  | nil => exact List.Pairwise.nil
  | cons first rest ih =>
      rw [List.pairwise_cons] at hdescending
      rw [List.flatMap_cons]
      refine List.pairwise_append.mpr ⟨?_, ?_, ?_⟩
      · exact (hdistinct first List.mem_cons_self).imp fun {left right} hne hkey htxid =>
          absurd ⟨hkey, htxid⟩ hne
      · exact ih hdescending.2 fun source hmem =>
          hdistinct source (List.mem_cons_of_mem _ hmem)
      · intro left hleft right hright _ _
        obtain ⟨source, hsource, hright⟩ := List.mem_flatMap.mp hright
        rw [hrank first left hleft, hrank source right hright]
        exact hdescending.1 source hsource

structure HeapIterator where
  items : List SearchItem
  maxTrancId : ℕ
  skipDelete : Bool
  keepAllVersions : Bool

namespace HeapIterator

/-- `skip_by_tranc_id`: pop the items above the read bound from the top. -/
def skipByTrancId (maxTrancId : ℕ) (items : List SearchItem) : List SearchItem :=
  items.dropWhile fun item => maxTrancId ≠ 0 ∧ item.entry.txid > maxTrancId

/-- Pop the items of one key from the top. -/
def dropKey (key : Bytes) (items : List SearchItem) : List SearchItem :=
  items.dropWhile fun item => item.entry.key = key

/-- The filter loop of the constructor and of `++`: until the top is legal, drop
what the bound hides and every key whose top version is a deletion. -/
def settle (maxTrancId : ℕ) (skipDelete : Bool) : ℕ → List SearchItem →
    List SearchItem
  | 0, items => items
  | fuel + 1, items =>
      match skipByTrancId maxTrancId items with
      | [] => []
      | top :: rest =>
          if skipDelete && top.entry.value = [] then
            settle maxTrancId skipDelete fuel (dropKey top.entry.key rest)
          else top :: rest

/-- The constructor from a vector of items. -/
def ofItems (itemVec : List SearchItem) (maxTrancId : ℕ) (skipDelete : Bool)
    (keepAllVersions : Bool) : HeapIterator :=
  let items := heapOf itemVec
  { items := settle maxTrancId skipDelete items.length items
    maxTrancId, skipDelete, keepAllVersions }

/-- The default constructor: an empty queue without a read bound. -/
def empty (skipDelete keepAllVersions : Bool) : HeapIterator :=
  { items := [], maxTrancId := 0, skipDelete, keepAllVersions }

def isValid (it : HeapIterator) : Bool := !it.items.isEmpty

def current? (it : HeapIterator) : Option Entry := it.items.head?.map SearchItem.entry

/-- `operator++` -/
def next (it : HeapIterator) : HeapIterator :=
  match it.items with
  | [] => it
  | top :: rest =>
      let items := if it.keepAllVersions then rest else dropKey top.entry.key rest
      { it with items := settle it.maxTrancId it.skipDelete items.length items }

private theorem length_dropKey_le (key : Bytes) (items : List SearchItem) :
    (dropKey key items).length ≤ items.length :=
  (List.dropWhile_sublist _).length_le

private theorem length_skip_le (maxTrancId : ℕ) (items : List SearchItem) :
    (skipByTrancId maxTrancId items).length ≤ items.length :=
  (List.dropWhile_sublist _).length_le

private theorem settle_sublist (maxTrancId : ℕ) (skipDelete : Bool) (fuel : ℕ)
    (items : List SearchItem) :
    (settle maxTrancId skipDelete fuel items).Sublist items := by
  induction fuel generalizing items with
  | zero => exact List.Sublist.refl _
  | succ fuel ih =>
      have hskip : (skipByTrancId maxTrancId items).Sublist items :=
        List.dropWhile_sublist _
      rw [settle]
      split
      next => exact List.nil_sublist _
      next top rest hitems =>
          rw [hitems] at hskip
          split_ifs
          · have hdrop : (dropKey top.entry.key rest).Sublist (top :: rest) :=
              (List.dropWhile_sublist _).cons _
            exact (ih _).trans (hdrop.trans hskip)
          · exact hskip

instance : Cursor HeapIterator Entry where
  current? := current?
  next := next
  remaining it := it.items.length
  remaining_next := by
    intro it record hcurrent
    cases hitems : it.items with
    | nil => simp [current?, hitems] at hcurrent
    | cons top rest =>
        have hlen : (if it.keepAllVersions then rest
            else dropKey top.entry.key rest).length ≤ rest.length := by
          split_ifs
          · exact le_rfl
          · exact length_dropKey_le _ _
        have hsettle := fun fuel => (settle_sublist it.maxTrancId it.skipDelete fuel
          (if it.keepAllVersions then rest else dropKey top.entry.key rest)).length_le
        simp only [next, hitems, List.length_cons]
        exact Nat.lt_succ_of_le ((hsettle _).trans hlen)

theorem current?_eq (it : HeapIterator) :
    Cursor.current? it = it.items.head?.map SearchItem.entry := rfl

/-- What a queue in pop order still yields, one version of every key: the first
version within the bound, without the deletions when they are skipped. -/
def render (maxTrancId : ℕ) (skipDelete : Bool) (items : List SearchItem) :
    List Entry :=
  (Versions.shown maxTrancId (fun _ => false) false
    (items.map SearchItem.entry)).filter fun entry =>
      !(skipDelete && decide (entry.value = []))

private theorem map_skip (maxTrancId : ℕ) (items : List SearchItem) :
    (skipByTrancId maxTrancId items).map SearchItem.entry =
      (items.map SearchItem.entry).dropWhile fun entry =>
        !Versions.visible maxTrancId (fun _ => false) entry.txid := by
  rw [List.dropWhile_map, skipByTrancId]
  congr 2
  funext item
  by_cases hbound : maxTrancId = 0
  · simp [Versions.visible, hbound]
  · have hzero : (maxTrancId == 0) = false := beq_eq_false_iff_ne.mpr hbound
    rcases Nat.lt_or_ge maxTrancId item.entry.txid with hlt | hle
    · simp [Versions.visible, hbound, hzero, hlt]
    · simp [Versions.visible, hzero, hle, hle.not_gt]

private theorem render_skip (maxTrancId : ℕ) (skipDelete : Bool)
    (items : List SearchItem) :
    render maxTrancId skipDelete (skipByTrancId maxTrancId items) =
      render maxTrancId skipDelete items := by
  rw [render, map_skip, Versions.shown_dropWhile, render]

private theorem map_dropKey (key : Bytes) (items : List SearchItem) :
    (dropKey key items).map SearchItem.entry =
      (items.map SearchItem.entry).dropWhile fun entry => entry.key = key := by
  rw [List.dropWhile_map]
  rfl

private theorem render_cons {maxTrancId : ℕ} {skipDelete : Bool} {top : SearchItem}
    {rest : List SearchItem}
    (hsorted : Versions.Sorted ((top :: rest).map SearchItem.entry))
    (hvisible : Versions.visible maxTrancId (fun _ => false) top.entry.txid) :
    render maxTrancId skipDelete (top :: rest) =
      (if skipDelete && decide (top.entry.value = []) then [] else [top.entry]) ++
        render maxTrancId skipDelete (dropKey top.entry.key rest) := by
  unfold render
  rw [List.map_cons] at hsorted
  rw [List.map_cons, Versions.shown_cons hsorted hvisible, map_dropKey,
    if_neg Bool.false_ne_true]
  by_cases hdelete : (skipDelete && decide (top.entry.value = [])) = true
  · rw [if_pos hdelete, List.filter_cons_of_neg (by simpa using hdelete),
      List.nil_append]
  · rw [if_neg hdelete, List.filter_cons_of_pos (by simpa [-not_and, not_and_or] using hdelete),
      List.singleton_append]

private theorem skip_head_visible {maxTrancId : ℕ} {items rest : List SearchItem}
    {top : SearchItem} (hitems : skipByTrancId maxTrancId items = top :: rest) :
    Versions.visible maxTrancId (fun _ => false) top.entry.txid := by
  have hfalse := List.head?_dropWhile_not
    (fun item : SearchItem => decide (maxTrancId ≠ 0 ∧ item.entry.txid > maxTrancId))
    items
  rw [show items.dropWhile (fun item : SearchItem =>
      decide (maxTrancId ≠ 0 ∧ item.entry.txid > maxTrancId)) = top :: rest
    from hitems] at hfalse
  simp only [List.head?_cons, decide_eq_false_iff_not] at hfalse
  simp only [Versions.visible]
  grind

/-- The filter loop does not change what the queue yields. -/
private theorem render_settle {maxTrancId : ℕ} {skipDelete : Bool} (fuel : ℕ)
    {items : List SearchItem}
    (hsorted : Versions.Sorted (items.map SearchItem.entry)) :
    render maxTrancId skipDelete (settle maxTrancId skipDelete fuel items) =
      render maxTrancId skipDelete items := by
  induction fuel generalizing items with
  | zero => rfl
  | succ fuel ih =>
      have hskip : Versions.Sorted
          ((skipByTrancId maxTrancId items).map SearchItem.entry) :=
        hsorted.sublist ((List.dropWhile_sublist _).map _)
      rw [settle, ← render_skip _ _ items]
      split
      next hitems => rw [hitems]
      next top rest hitems =>
          rw [hitems] at hskip ⊢
          split_ifs with hdelete
          · have hdrop : Versions.Sorted
                ((dropKey top.entry.key rest).map SearchItem.entry) :=
              hskip.sublist (((List.dropWhile_sublist _).cons _).map _)
            rw [ih hdrop, render_cons hskip (skip_head_visible hitems), if_pos hdelete,
              List.nil_append]
          · rfl

/-- A legal top is visible and, when deletions are skipped, not a deletion. -/
def Settled (maxTrancId : ℕ) (skipDelete : Bool) (items : List SearchItem) : Prop :=
  ∀ top, items.head? = some top →
    Versions.visible maxTrancId (fun _ => false) top.entry.txid ∧
      ¬(skipDelete = true ∧ top.entry.value = [])

private theorem settled_settle {maxTrancId : ℕ} {skipDelete : Bool} {fuel : ℕ}
    {items : List SearchItem} (hfuel : items.length ≤ fuel) :
    Settled maxTrancId skipDelete (settle maxTrancId skipDelete fuel items) := by
  induction fuel generalizing items with
  | zero =>
      intro top htop
      obtain rfl : items = [] := List.length_eq_zero_iff.mp (by omega)
      simp [settle] at htop
  | succ fuel ih =>
      have hlen := length_skip_le maxTrancId items
      rw [settle]
      split
      next => simp [Settled]
      next top rest hitems =>
          split_ifs with hdelete
          · apply ih
            have := length_dropKey_le top.entry.key rest
            rw [hitems, List.length_cons] at hlen
            omega
          · intro other hother
            obtain rfl : top = other := by simpa using hother
            exact ⟨skip_head_visible hitems, by simpa using hdelete⟩

private theorem toList_of_settled {it : HeapIterator} (hkeep : it.keepAllVersions = false)
    (hsorted : Versions.Sorted (it.items.map SearchItem.entry))
    (hsettled : Settled it.maxTrancId it.skipDelete it.items) :
    Cursor.toList it = render it.maxTrancId it.skipDelete it.items := by
  induction hlen : it.items.length using Nat.strong_induction_on generalizing it with
  | _ length ih =>
      cases hitems : it.items with
      | nil =>
          rw [Cursor.toList_of_none (by rw [current?_eq, hitems]; rfl)]
          rfl
      | cons top rest =>
          have hcurrent : Cursor.current? it = some top.entry := by
            rw [current?_eq, hitems]; rfl
          obtain ⟨hvisible, hdelete⟩ := hsettled top (by rw [hitems]; rfl)
          rw [hitems] at hsorted
          have hdrop : Versions.Sorted
              ((dropKey top.entry.key rest).map SearchItem.entry) :=
            hsorted.sublist (((List.dropWhile_sublist _).cons _).map _)
          have hnext : Cursor.next it =
              { it with
                items := settle it.maxTrancId it.skipDelete
                  (dropKey top.entry.key rest).length (dropKey top.entry.key rest) } := by
            change next it = _
            simp [next, hitems, hkeep]
          have hsettle := settle_sublist it.maxTrancId it.skipDelete
            (dropKey top.entry.key rest).length (dropKey top.entry.key rest)
          have hdropLen := length_dropKey_le top.entry.key rest
          have htail : Cursor.toList (Cursor.next it) =
              render it.maxTrancId it.skipDelete (dropKey top.entry.key rest) := by
            rw [hnext, ← render_settle (dropKey top.entry.key rest).length hdrop]
            have hshorter : (settle it.maxTrancId it.skipDelete
                (dropKey top.entry.key rest).length
                (dropKey top.entry.key rest)).length < length := by
              have := hsettle.length_le
              rw [hitems, List.length_cons] at hlen
              omega
            refine ih _ hshorter hkeep ?_ (settled_settle le_rfl) rfl
            · exact hdrop.sublist (hsettle.map _)
          rw [Cursor.toList_of_some hcurrent, htail, render_cons hsorted hvisible,
            if_neg (by simpa using hdelete), List.singleton_append]

/-- The constructor when the queue pops its items in the order `queue`. -/
def ofQueue (queue : List SearchItem) (maxTrancId : ℕ) (skipDelete : Bool)
    (keepAllVersions : Bool) : HeapIterator :=
  { items := settle maxTrancId skipDelete queue.length queue
    maxTrancId, skipDelete, keepAllVersions }

theorem ofItems_eq (itemVec : List SearchItem) (maxTrancId : ℕ) (skipDelete : Bool)
    (keepAllVersions : Bool) :
    ofItems itemVec maxTrancId skipDelete keepAllVersions =
      ofQueue (heapOf itemVec) maxTrancId skipDelete keepAllVersions := rfl

/-- A queue in storage order yields one version of every key. -/
theorem toList_ofQueue {queue : List SearchItem}
    (hsorted : Versions.Sorted (queue.map SearchItem.entry)) (maxTrancId : ℕ)
    (skipDelete : Bool) :
    Cursor.toList (ofQueue queue maxTrancId skipDelete false) =
      render maxTrancId skipDelete queue := by
  have hsettle := settle_sublist maxTrancId skipDelete queue.length queue
  have hyields := @toList_of_settled (ofQueue queue maxTrancId skipDelete false) rfl
    (hsorted.sublist (hsettle.map _)) (settled_settle le_rfl)
  exact hyields.trans (render_settle _ hsorted)

/-- A queue built from collected items yields one version of every key. -/
theorem toList_ofItems (itemVec : List SearchItem) (maxTrancId : ℕ)
    (skipDelete : Bool) :
    Cursor.toList (ofItems itemVec maxTrancId skipDelete false) =
      render maxTrancId skipDelete (heapOf itemVec) := by
  rw [ofItems_eq]
  exact toList_ofQueue (sorted_heapOf itemVec) maxTrancId skipDelete

/-- A queue that keeps all versions yields all its records. -/
theorem toList_keepAll (items : List SearchItem) :
    Cursor.toList (⟨items, 0, false, true⟩ : HeapIterator) =
      items.map SearchItem.entry := by
  induction items with
  | nil => exact Cursor.toList_of_none rfl
  | cons top rest ih =>
      have hcurrent : Cursor.current? (⟨top :: rest, 0, false, true⟩ : HeapIterator) =
          some top.entry := rfl
      have hskip : skipByTrancId 0 rest = rest := by
        unfold skipByTrancId
        cases rest <;> simp
      have hsettle : settle 0 false rest.length rest = rest := by
        cases hrest : rest with
        | nil => rfl
        | cons second others =>
            rw [hrest] at hskip
            simp [settle, hskip]
      have hnext : Cursor.next (⟨top :: rest, 0, false, true⟩ : HeapIterator) =
          ⟨rest, 0, false, true⟩ := by
        change next _ = _
        simp [next, hsettle]
      rw [Cursor.toList_of_some hcurrent, hnext, ih, List.map_cons]

/-- A queue in storage order without read bound that shows deletions yields the newest version
of every key. -/
theorem toList_unbounded {queue : List SearchItem}
    (hsorted : Versions.Sorted (queue.map SearchItem.entry)) :
    Cursor.toList (⟨queue, 0, false, false⟩ : HeapIterator) = render 0 false queue := by
  apply toList_of_settled rfl hsorted
  intro top _
  simp [Versions.visible]

theorem toList_newest (itemVec : List SearchItem) :
    Cursor.toList (⟨heapOf itemVec, 0, false, false⟩ : HeapIterator) =
      render 0 false (heapOf itemVec) :=
  toList_unbounded (sorted_heapOf itemVec)

theorem strictKeys_render (maxTrancId : ℕ) (skipDelete : Bool)
    (itemVec : List SearchItem) :
    Versions.StrictKeys (render maxTrancId skipDelete (heapOf itemVec)) :=
  List.Pairwise.filter _ ((sorted_heapOf itemVec).shown_strictKeys _ _)

/-- What the queue yields under a key is the read of the key, hidden when it is
a deletion to skip. -/
theorem find?_render (maxTrancId : ℕ) (skipDelete : Bool)
    (itemVec : List SearchItem) (key : Bytes) :
    (render maxTrancId skipDelete (heapOf itemVec)).find?
        (fun entry => entry.key = key) =
      (Versions.read ((heapOf itemVec).map SearchItem.entry) key maxTrancId
        fun _ => false).filter fun entry =>
          !(skipDelete && decide (entry.value = [])) := by
  have hsorted := sorted_heapOf itemVec
  rw [render, Versions.StrictKeys.find?_filter (hsorted.shown_strictKeys _ _),
    hsorted.find?_shown]

end HeapIterator

end KopiDb

import KopiDb.Core
import KopiDb.Lib.OrdMap

/-!
# The store under the commands

The commands use the store as one map.  A value that is empty is a deletion, so nothing
empty is ever found, and a prefix scan lists the records in byte order.
-/

namespace KopiDb.Redis

/-- The bytes of a string literal. -/
def ascii (text : String) : Bytes := text.toList.map fun char => Fin.ofNat 256 char.toNat

/-- The live records. -/
structure Store where
  records : OrdMap Bytes Bytes
  stored : ∀ key, records.find? key ≠ some []

namespace Store

def empty : Store := ⟨∅, by simp⟩

instance : EmptyCollection Store := ⟨empty⟩

def get (store : Store) (key : Bytes) : Option Bytes := store.records.find? key

def remove (store : Store) (key : Bytes) : Store where
  records := store.records.erase key
  stored := by
    intro other
    rw [OrdMap.find?_erase]
    split_ifs
    · simp
    · exact store.stored other

/-- Writing the empty value is a deletion.  Whether the call on the `LSM` throws, in a flush that
it starts, is not a matter of the map: the calls of a request may be told to. -/
def put (store : Store) (key value : Bytes) : Store :=
  if hvalue : value = [] then store.remove key
  else
    { records := store.records.insert key value
      stored := by
        intro other
        rw [OrdMap.find?_insert]
        split_ifs
        · simpa using hvalue
        · exact store.stored other }

def putBatch (store : Store) (kvs : List (Bytes × Bytes)) : Store :=
  kvs.foldl (fun store kv => store.put kv.1 kv.2) store

def removeBatch (store : Store) (keys : List Bytes) : Store :=
  keys.foldl Store.remove store

/-- `lsm_iters_monotony_predicate` with the predicate of a prefix. -/
def scan (store : Store) (start : Bytes) : List (Bytes × Bytes) :=
  store.records.entries.filter fun record => start.isPrefixOf record.1

@[simp]
theorem get_empty (key : Bytes) : (∅ : Store).get key = none := rfl

theorem get_ne_nil (store : Store) (key : Bytes) : store.get key ≠ some [] :=
  store.stored key

@[simp]
theorem get_remove (store : Store) (key other : Bytes) :
    (store.remove key).get other = if other = key then none else store.get other := by
  refine (OrdMap.find?_erase store.records key other).trans ?_
  congr

theorem get_put (store : Store) (key other value : Bytes) :
    (store.put key value).get other =
      if other = key then (if value = [] then none else some value)
      else store.get other := by
  unfold put
  by_cases hvalue : value = []
  · rw [dif_pos hvalue, get_remove, if_pos hvalue]
  · rw [dif_neg hvalue, if_neg hvalue]
    refine (OrdMap.find?_insert store.records key other value).trans ?_
    congr

@[simp]
theorem get_put_self (store : Store) (key value : Bytes) (hvalue : value ≠ []) :
    (store.put key value).get key = some value := by
  rw [get_put, if_pos rfl, if_neg hvalue]

theorem get_put_of_ne (store : Store) {key other : Bytes} (value : Bytes)
    (hkey : other ≠ key) : (store.put key value).get other = store.get other := by
  rw [get_put, if_neg hkey]

theorem get_remove_of_ne (store : Store) {key other : Bytes} (hkey : other ≠ key) :
    (store.remove key).get other = store.get other := by
  rw [get_remove, if_neg hkey]

theorem get_removeBatch (store : Store) (keys : List Bytes) (other : Bytes) :
    (store.removeBatch keys).get other =
      if other ∈ keys then none else store.get other := by
  induction keys generalizing store with
  | nil => rfl
  | cons key rest ih =>
      rw [removeBatch, List.foldl_cons, ← removeBatch, ih, get_remove]
      by_cases hother : other = key
      · simp [hother]
      · simp [hother]

theorem get_putBatch_of_not_mem (store : Store) {kvs : List (Bytes × Bytes)}
    {other : Bytes} (hother : other ∉ kvs.map Prod.fst) :
    (store.putBatch kvs).get other = store.get other := by
  induction kvs generalizing store with
  | nil => rfl
  | cons kv rest ih =>
      rw [List.map_cons, List.mem_cons, not_or] at hother
      rw [putBatch, List.foldl_cons, ← putBatch, ih _ hother.2, get_put_of_ne _ _ hother.1]

/-- A key that a batch writes one value to. -/
theorem get_putBatch_of_mem (store : Store) {kvs : List (Bytes × Bytes)} {key value : Bytes}
    (hvalue : value ≠ []) (hmem : (key, value) ∈ kvs)
    (hagree : ∀ kv ∈ kvs, kv.1 = key → kv.2 = value) :
    (store.putBatch kvs).get key = some value := by
  induction kvs generalizing store with
  | nil => cases hmem
  | cons kv rest ih =>
      rw [putBatch, List.foldl_cons, ← putBatch]
      by_cases hrest : (key, value) ∈ rest
      · exact ih _ hrest fun other hother => hagree other (List.mem_cons_of_mem _ hother)
      · obtain rfl := (List.mem_cons.mp hmem).resolve_right hrest
        rw [get_putBatch_of_not_mem, get_put_self _ _ _ hvalue]
        intro hkey
        obtain ⟨other, hother, hfirst⟩ := List.mem_map.mp hkey
        have hsecond := hagree other (List.mem_cons_of_mem _ hother) hfirst
        obtain ⟨first, second⟩ := other
        subst hfirst hsecond
        exact hrest hother

theorem mem_scan {store : Store} {start key value : Bytes} :
    (key, value) ∈ store.scan start ↔ start <+: key ∧ store.get key = some value := by
  rw [scan, List.mem_filter, List.isPrefixOf_iff_prefix, get, OrdMap.find?_eq_some_iff,
    and_comm]

theorem scan_ascending (store : Store) (start : Bytes) :
    (store.scan start).Pairwise fun left right => left.1 < right.1 :=
  store.records.sorted.filter _

/-- The records of a scan whose keys satisfy a predicate depend on no other records. -/
theorem scan_filter_congr {store store' : Store} {start : Bytes} {p : Bytes → Bool}
    (hget : ∀ key, start <+: key → p key → store.get key = store'.get key) :
    (store.scan start).filter (fun record => p record.1) =
      (store'.scan start).filter fun record => p record.1 := by
  have hmem : ∀ record, record ∈ (store.scan start).filter (fun record => p record.1) ↔
      record ∈ (store'.scan start).filter fun record => p record.1 := by
    rintro ⟨key, value⟩
    rw [List.mem_filter, List.mem_filter, mem_scan, mem_scan]
    constructor
    · rintro ⟨⟨hstart, hvalue⟩, hp⟩
      exact ⟨⟨hstart, (hget key hstart hp).symm.trans hvalue⟩, hp⟩
    · rintro ⟨⟨hstart, hvalue⟩, hp⟩
      exact ⟨⟨hstart, (hget key hstart hp).trans hvalue⟩, hp⟩
  have hsorted : ∀ store : Store, ((store.scan start).filter fun record => p record.1).Pairwise
      fun left right => left.1 < right.1 :=
    fun store => (store.scan_ascending start).filter _
  have hnodup : ∀ store : Store,
      ((store.scan start).filter fun record => p record.1).Nodup :=
    fun store => (hsorted store).imp fun hlt heq => (heq ▸ hlt).false
  have hperm := (List.perm_ext_iff_of_nodup (hnodup store) (hnodup store')).mpr hmem
  exact hperm.eq_of_pairwise (fun left right _ _ hlt hgt => absurd hgt hlt.not_gt)
    (hsorted store) (hsorted store')

/-- A scan depends on the records with the prefix only. -/
theorem scan_congr {store store' : Store} {start : Bytes}
    (hget : ∀ key, start <+: key → store.get key = store'.get key) :
    store.scan start = store'.scan start := by
  have hfilter := @scan_filter_congr store store' start (fun _ => true)
    fun key hstart _ => hget key hstart
  rwa [List.filter_true, List.filter_true] at hfilter

theorem ext_get {store store' : Store} (hget : ∀ key, store.get key = store'.get key) :
    store = store' := by
  have hscan := @scan_congr store store' [] fun key _ => hget key
  have hentries : ∀ store : Store, store.scan [] = store.records.entries := fun store =>
    List.filter_eq_self.mpr fun record _ => List.isPrefixOf_iff_prefix.mpr (List.nil_prefix)
  rw [hentries, hentries] at hscan
  obtain ⟨⟨entries, hsorted⟩, hstored⟩ := store
  obtain ⟨⟨entries', hsorted'⟩, hstored'⟩ := store'
  cases hscan
  rfl

end Store

end KopiDb.Redis

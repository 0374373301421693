import Mathlib

/-!
# Ordered finite maps

A finite map stored as its entry list with strictly ascending keys.  The order
is a field of the structure, so two maps with the same lookups are equal and an
iteration visits every key once, in key order.
-/

namespace KopiDb

/-- A finite map with its entries in ascending key order. -/
structure OrdMap (κ ν : Type*) [LinearOrder κ] where
  entries : List (κ × ν)
  sorted : entries.Pairwise fun left right => left.1 < right.1

namespace OrdMap

variable {κ ν : Type*} [LinearOrder κ]

def empty : OrdMap κ ν := ⟨[], List.Pairwise.nil⟩

instance : EmptyCollection (OrdMap κ ν) := ⟨empty⟩

instance : Inhabited (OrdMap κ ν) := ⟨empty⟩

def keys (map : OrdMap κ ν) : List κ := map.entries.map Prod.fst

def size (map : OrdMap κ ν) : ℕ := map.entries.length

def find? (map : OrdMap κ ν) (key : κ) : Option ν := map.entries.lookup key

def contains (map : OrdMap κ ν) (key : κ) : Bool := (map.find? key).isSome

/-- Ordered insertion, which overwrites the value of a key that is present. -/
def insertEntries (key : κ) (value : ν) : List (κ × ν) → List (κ × ν)
  | [] => [(key, value)]
  | entry :: rest =>
      if key < entry.1 then (key, value) :: entry :: rest
      else if key = entry.1 then (key, value) :: rest
      else entry :: insertEntries key value rest

private theorem insertEntries_key {key : κ} {value : ν} {entries : List (κ × ν)}
    {entry : κ × ν} (hmem : entry ∈ insertEntries key value entries) :
    entry = (key, value) ∨ entry ∈ entries := by
  induction entries with
  | nil => simpa [insertEntries] using hmem
  | cons head tail ih =>
      rw [insertEntries] at hmem
      split_ifs at hmem with hlt heq
      · simpa using hmem
      · rcases List.mem_cons.mp hmem with h | h
        · exact Or.inl h
        · exact Or.inr (List.mem_cons_of_mem _ h)
      · rcases List.mem_cons.mp hmem with h | h
        · exact Or.inr (h ▸ List.mem_cons_self)
        · exact (ih h).imp_right (List.mem_cons_of_mem _)

private theorem insertEntries_sorted (key : κ) (value : ν)
    {entries : List (κ × ν)}
    (hsorted : entries.Pairwise fun left right => left.1 < right.1) :
    (insertEntries key value entries).Pairwise
      fun left right => left.1 < right.1 := by
  induction entries with
  | nil => exact List.pairwise_singleton _ _
  | cons head tail ih =>
      have hcons := List.pairwise_cons.mp hsorted
      rw [insertEntries]
      split_ifs with hlt heq
      · refine List.pairwise_cons.mpr ⟨?_, hsorted⟩
        intro entry hmem
        rcases List.mem_cons.mp hmem with rfl | hmem
        · exact hlt
        · exact hlt.trans (hcons.1 entry hmem)
      · subst heq
        exact List.pairwise_cons.mpr ⟨fun entry hmem => hcons.1 entry hmem, hcons.2⟩
      · refine List.pairwise_cons.mpr ⟨?_, ih hcons.2⟩
        intro entry hmem
        rcases insertEntries_key hmem with rfl | hmem
        · exact lt_of_le_of_ne (not_lt.mp hlt) (Ne.symm heq)
        · exact hcons.1 entry hmem

def insert (map : OrdMap κ ν) (key : κ) (value : ν) : OrdMap κ ν :=
  ⟨insertEntries key value map.entries, insertEntries_sorted key value map.sorted⟩

def erase (map : OrdMap κ ν) (key : κ) : OrdMap κ ν :=
  ⟨map.entries.filter fun entry => entry.1 ≠ key, map.sorted.filter _⟩

@[simp]
theorem find?_empty (key : κ) : (∅ : OrdMap κ ν).find? key = none := rfl

@[simp]
theorem contains_empty (key : κ) : (∅ : OrdMap κ ν).contains key = false := rfl

/-- A lookup finds exactly the stored entry of the key. -/
theorem find?_eq_some_iff {map : OrdMap κ ν} {key : κ} {value : ν} :
    map.find? key = some value ↔ (key, value) ∈ map.entries := by
  obtain ⟨entries, hsorted⟩ := map
  change entries.lookup key = some value ↔ (key, value) ∈ entries
  induction entries with
  | nil => simp
  | cons head tail ih =>
      have hcons := List.pairwise_cons.mp hsorted
      rw [List.lookup_cons]
      by_cases hkey : key = head.1
      · subst hkey
        simp only [BEq.rfl, Option.some.injEq, List.mem_cons]
        constructor
        · rintro rfl
          exact Or.inl rfl
        · rintro (h | h)
          · rw [← h]
          · exact absurd (hcons.1 _ h) (lt_irrefl _)
      · simp only [beq_eq_false_iff_ne.mpr hkey, List.mem_cons]
        rw [ih hcons.2]
        constructor
        · exact Or.inr
        · rintro (h | h)
          · exact absurd (congrArg Prod.fst h) hkey
          · exact h

theorem find?_eq_none_iff {map : OrdMap κ ν} {key : κ} :
    map.find? key = none ↔ key ∉ map.keys := by
  rw [Option.eq_none_iff_forall_ne_some]
  simp only [ne_eq, find?_eq_some_iff, keys, List.mem_map, Prod.exists,
    exists_and_right, exists_eq_right, not_exists]

theorem contains_iff {map : OrdMap κ ν} {key : κ} :
    map.contains key ↔ key ∈ map.keys := by
  rw [contains, Option.isSome_iff_ne_none, ne_eq, find?_eq_none_iff, not_not]

theorem contains_eq_isSome (map : OrdMap κ ν) (key : κ) :
    map.contains key = (map.find? key).isSome := rfl

theorem keys_sorted (map : OrdMap κ ν) : map.keys.Pairwise (· < ·) :=
  List.pairwise_map.mpr map.sorted

theorem keys_nodup (map : OrdMap κ ν) : map.keys.Nodup :=
  map.keys_sorted.imp fun hlt => hlt.ne

private theorem mem_insertEntries_of_ne {key other : κ} {value value' : ν}
    {entries : List (κ × ν)} (hne : other ≠ key) :
    (other, value') ∈ insertEntries key value entries ↔
      (other, value') ∈ entries := by
  induction entries with
  | nil => simp [insertEntries, hne]
  | cons head tail ih =>
      rw [insertEntries]
      split_ifs with hlt heq
      · simp [hne]
      · have hhead : (other, value') ≠ head := by
          rintro rfl
          exact hne heq.symm
        simp [hne, hhead]
      · simp [ih]

private theorem mem_insertEntries_self (key : κ) (value : ν)
    (entries : List (κ × ν)) : (key, value) ∈ insertEntries key value entries := by
  induction entries with
  | nil => simp [insertEntries]
  | cons head tail ih =>
      rw [insertEntries]
      split_ifs <;> simp [ih]

theorem find?_insert (map : OrdMap κ ν) (key other : κ) (value : ν) :
    (map.insert key value).find? other =
      if other = key then some value else map.find? other := by
  split_ifs with hkey
  · subst hkey
    rw [find?_eq_some_iff]
    exact mem_insertEntries_self _ _ _
  · ext value'
    rw [find?_eq_some_iff, find?_eq_some_iff]
    exact mem_insertEntries_of_ne hkey

@[simp]
theorem find?_insert_self (map : OrdMap κ ν) (key : κ) (value : ν) :
    (map.insert key value).find? key = some value := by
  rw [find?_insert, if_pos rfl]

theorem find?_erase (map : OrdMap κ ν) (key other : κ) :
    (map.erase key).find? other = if other = key then none else map.find? other := by
  ext value
  rw [find?_eq_some_iff]
  simp only [erase, List.mem_filter, decide_eq_true_eq]
  split_ifs with hkey
  · simp [hkey]
  · simp [hkey, find?_eq_some_iff]

@[simp]
theorem contains_insert (map : OrdMap κ ν) (key other : κ) (value : ν) :
    (map.insert key value).contains other =
      (decide (other = key) || map.contains other) := by
  rw [contains, find?_insert]
  by_cases hkey : other = key <;> simp [hkey, contains]

@[simp]
theorem contains_erase (map : OrdMap κ ν) (key other : κ) :
    (map.erase key).contains other =
      (!decide (other = key) && map.contains other) := by
  rw [contains, find?_erase]
  by_cases hkey : other = key <;> simp [hkey, contains]

theorem mem_keys_insert {map : OrdMap κ ν} {key other : κ} {value : ν} :
    other ∈ (map.insert key value).keys ↔ other = key ∨ other ∈ map.keys := by
  simp [← contains_iff]

/-- A map is known by its lookups. -/
theorem ext_find? {left right : OrdMap κ ν}
    (hsame : ∀ key, left.find? key = right.find? key) : left = right := by
  have hentries : left.entries = right.entries := by
    apply List.Pairwise.eq_of_mem_iff left.sorted right.sorted
    rintro ⟨key, value⟩
    rw [← find?_eq_some_iff, ← find?_eq_some_iff, hsame]
  cases left
  cases right
  congr

end OrdMap

end KopiDb

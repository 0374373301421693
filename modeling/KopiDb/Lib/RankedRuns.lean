import KopiDb.Lib.SortedVersions

/-!
# Merges of ranked sources

Every version comes from a source with a rank, and of equal keys and numbers the one of the
higher rank goes first.  A merge of all versions is a list of them in this order, and what it
shows of a key is the version that leads it.
-/

namespace KopiDb.Versions

variable {κ ν : Type*} [LinearOrder κ]

/-- All versions with the ranks of their sources. -/
def sourced (sources : List (ℕ × List (Version κ ν))) : List (ℕ × Version κ ν) :=
  sources.flatMap fun source => source.2.map fun version => (source.1, version)

/-- Keys ascending, numbers descending, ranks descending. -/
def RankedBefore (left right : ℕ × Version κ ν) : Prop :=
  left.2.key < right.2.key ∨
    (left.2.key = right.2.key ∧ (right.2.txid < left.2.txid ∨
      (left.2.txid = right.2.txid ∧ right.1 ≤ left.1)))

theorem RankedBefore.precedes {left right : ℕ × Version κ ν} (hbefore : RankedBefore left right) :
    Precedes left.2 right.2 := by
  rcases hbefore with hlt | ⟨hkey, hlt | ⟨htxid, -⟩⟩
  · exact Or.inl hlt
  · exact Or.inr ⟨hkey, hlt.le⟩
  · exact Or.inr ⟨hkey, htxid.ge⟩

/-- Every version of the sources once, in the order of keys, numbers and ranks. -/
def MergesAll (sources : List (ℕ × List (Version κ ν))) (output : List (Version κ ν)) : Prop :=
  ∃ ranked : List (ℕ × Version κ ν), ranked.Perm (sourced sources) ∧
    ranked.Pairwise RankedBefore ∧ ranked.map Prod.snd = output

theorem MergesAll.sorted {sources : List (ℕ × List (Version κ ν))} {output : List (Version κ ν)}
    (hmerges : MergesAll sources output) : Sorted output := by
  obtain ⟨ranked, -, hbefore, rfl⟩ := hmerges
  exact List.pairwise_map.mpr (hbefore.imp RankedBefore.precedes)

/-- The version of a key that leads it: the largest number within the bound, and the highest
rank among those with this number. -/
structure Leading (sources : List (ℕ × List (Version κ ν))) (bound : ℕ)
    (chosen : ℕ × Version κ ν) : Prop where
  mem : chosen ∈ sourced sources
  visible : visible bound (fun _ => false) chosen.2.txid = true
  largest : ∀ other ∈ sourced sources, other.2.key = chosen.2.key →
    Versions.visible bound (fun _ => false) other.2.txid = true →
      other.2.txid < chosen.2.txid ∨ (other.2.txid = chosen.2.txid ∧ other.1 ≤ chosen.1)

/-- One version for every key that has one within the bound, the leading one; a leading version
that `hide` tells to hide takes its key away. -/
structure MergesNewest (sources : List (ℕ × List (Version κ ν))) (bound : ℕ)
    (hide : Version κ ν → Bool) (output : List (Version κ ν)) : Prop where
  strictKeys : StrictKeys output
  absent : ∀ key, (∀ other ∈ sourced sources, other.2.key = key →
    visible bound (fun _ => false) other.2.txid = false) →
      ∀ version ∈ output, version.key ≠ key
  leading : ∀ key, (∃ other ∈ sourced sources, other.2.key = key ∧
    visible bound (fun _ => false) other.2.txid = true) →
      ∃ chosen, Leading sources bound chosen ∧ chosen.2.key = key ∧
        ∀ version, version.key = key →
          (version ∈ output ↔ version = chosen.2 ∧ hide version = false)

instance : DecidableRel (RankedBefore : ℕ × Version κ ν → ℕ × Version κ ν → Prop) :=
  fun _ _ => inferInstanceAs (Decidable (_ ∨ _))

theorem RankedBefore.trans {first second third : ℕ × Version κ ν}
    (hleft : RankedBefore first second) (hright : RankedBefore second third) :
    RankedBefore first third := by
  rcases hleft with hlt | ⟨hkey, hleft⟩
  · rcases hright with hlt' | ⟨hkey', -⟩
    · exact Or.inl (hlt.trans hlt')
    · exact Or.inl (hkey' ▸ hlt)
  · rcases hright with hlt' | ⟨hkey', hright⟩
    · exact Or.inl (hkey ▸ hlt')
    · exact Or.inr ⟨hkey.trans hkey', by omega⟩

theorem RankedBefore.total (left right : ℕ × Version κ ν) :
    RankedBefore left right ∨ RankedBefore right left := by
  rcases lt_trichotomy left.2.key right.2.key with hlt | hkey | hgt
  · exact Or.inl (Or.inl hlt)
  · by_cases hbefore : right.2.txid < left.2.txid ∨
        (left.2.txid = right.2.txid ∧ right.1 ≤ left.1)
    · exact Or.inl (Or.inr ⟨hkey, hbefore⟩)
    · exact Or.inr (Or.inr ⟨hkey.symm, by omega⟩)
  · exact Or.inr (Or.inl hgt)

/-- Merging two sorted runs takes ties from the left one, which has the higher rank. -/
theorem mergesAll_merge {left right : List (Version κ ν)} (hleft : Sorted left)
    (hright : Sorted right) {high low : ℕ} (hrank : low ≤ high) :
    MergesAll [(high, left), (low, right)] (merge left right) := by
  have hordered : ∀ {rank : ℕ} {run : List (Version κ ν)}, Sorted run →
      (run.map fun version => (rank, version)).Pairwise fun first second =>
        decide (RankedBefore first second) = true := by
    intro rank run hsorted
    refine List.pairwise_map.mpr (hsorted.imp ?_)
    rintro first second (hlt | ⟨hkey, hle⟩)
    · exact decide_eq_true (Or.inl hlt)
    · exact decide_eq_true (Or.inr ⟨hkey, hle.lt_or_eq.imp_right fun htxid =>
        ⟨htxid.symm, le_rfl⟩⟩)
  refine ⟨List.merge (left.map fun version => (high, version))
    (right.map fun version => (low, version)) fun first second =>
      decide (RankedBefore first second), ?_, ?_, ?_⟩
  · refine (List.merge_perm_append _).trans (List.Perm.of_eq ?_)
    simp [sourced]
  · refine (List.pairwise_merge ?_ ?_ _ _ (hordered hleft) (hordered hright)).imp ?_
    · intro first second third hfirst hsecond
      exact decide_eq_true ((of_decide_eq_true hfirst).trans (of_decide_eq_true hsecond))
    · intro first second
      rw [Bool.or_eq_true, decide_eq_true_iff, decide_eq_true_iff]
      exact RankedBefore.total first second
    · exact fun hbefore => of_decide_eq_true hbefore
  · rw [List.map_merge (s := fun first second => decide (Precedes first second)), merge,
      List.map_map, List.map_map]
    · exact congrArg₂ (List.merge · · _) (List.map_id _) (List.map_id _)
    · intro first hfirst second hsecond
      obtain ⟨version, -, rfl⟩ := List.mem_map.mp hfirst
      obtain ⟨other, -, rfl⟩ := List.mem_map.mp hsecond
      rw [decide_eq_decide]
      constructor
      · exact RankedBefore.precedes
      · rintro (hlt | ⟨hkey, hle⟩)
        · exact Or.inl hlt
        · exact Or.inr ⟨hkey, hle.lt_or_eq.imp_right fun htxid => ⟨htxid.symm, hrank⟩⟩

variable [DecidableEq κ]

/-- The first visible version of a key in the order leads it. -/
theorem leading_of_find? {sources : List (ℕ × List (Version κ ν))}
    {ranked : List (ℕ × Version κ ν)} (hperm : ranked.Perm (sourced sources))
    (hordered : ranked.Pairwise RankedBefore) {bound : ℕ} {key : κ} {chosen : ℕ × Version κ ν}
    (hfind : ranked.find? (fun other => decide (other.2.key = key) &&
      visible bound (fun _ => false) other.2.txid) = some chosen) :
    Leading sources bound chosen ∧ chosen.2.key = key := by
  obtain ⟨hmatch, front, back, rfl, hfront⟩ := List.find?_eq_some_iff_append.mp hfind
  rw [Bool.and_eq_true, decide_eq_true_iff] at hmatch
  refine ⟨⟨?_, hmatch.2, ?_⟩, hmatch.1⟩
  · exact hperm.mem_iff.mp (List.mem_append_right _ List.mem_cons_self)
  · intro other hother hkey hvisible
    rcases List.mem_append.mp (hperm.mem_iff.mpr hother) with hmem | hmem
    · have hmiss := hfront other hmem
      rw [hkey, hmatch.1, hvisible, decide_eq_true rfl] at hmiss
      exact absurd hmiss Bool.false_ne_true
    · rcases List.mem_cons.mp hmem with rfl | hmem
      · exact Or.inr ⟨rfl, le_rfl⟩
      · have hlater := (List.pairwise_append.mp hordered).2.1
        rcases List.rel_of_pairwise_cons hlater hmem with hlt | ⟨-, hlt | ⟨htxid, hrank⟩⟩
        · exact absurd hkey hlt.ne'
        · exact Or.inl hlt
        · exact Or.inr ⟨htxid.symm, hrank⟩

/-- What a reader sees of a merge of all versions. -/
theorem MergesAll.newest {sources : List (ℕ × List (Version κ ν))} {output : List (Version κ ν)}
    (hmerges : MergesAll sources output) (bound : ℕ) (hide : Version κ ν → Bool) :
    MergesNewest sources bound hide
      ((shown bound (fun _ => false) false output).filter fun version => !hide version) := by
  have hsorted := hmerges.sorted
  have hstrict := hsorted.shown_strictKeys bound fun _ => false
  obtain ⟨ranked, hperm, hordered, rfl⟩ := hmerges
  constructor
  · exact List.Pairwise.filter _ hstrict
  · intro key hinvisible version hmem hkey
    obtain ⟨hmem, hvisible⟩ := mem_shown (List.mem_of_mem_filter hmem)
    obtain ⟨other, hother, rfl⟩ := List.mem_map.mp hmem
    rw [hinvisible other (hperm.mem_iff.mp hother) hkey] at hvisible
    exact Bool.false_ne_true hvisible
  · rintro key ⟨other, hother, hkey, hvisible⟩
    -- The key has a visible version, so the search of the merge for it finds one.
    obtain ⟨chosen, hfind⟩ : ∃ chosen, ranked.find? (fun other => decide (other.2.key = key) &&
        visible bound (fun _ => false) other.2.txid) = some chosen := by
      apply Option.isSome_iff_exists.mp
      rw [List.find?_isSome]
      exact ⟨other, hperm.mem_iff.mpr hother, by rw [hkey, hvisible, decide_eq_true rfl]; rfl⟩
    obtain ⟨hleading, hchosen⟩ := leading_of_find? hperm hordered hfind
    refine ⟨chosen, hleading, hchosen, ?_⟩
    have hshown : (shown bound (fun _ => false) false (ranked.map Prod.snd)).find?
        (fun version => version.key = key) = some chosen.2 := by
      rw [hsorted.find?_shown, hsorted.read_eq_find?, List.find?_map]
      exact congrArg (Option.map Prod.snd) hfind
    intro version hversion
    rw [List.mem_filter, hstrict.mem_iff_find?, hversion, hshown, Option.some.injEq,
      Bool.not_eq_true', eq_comm (a := version)]

end KopiDb.Versions

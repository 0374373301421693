import KopiDb.Lib.SortedVersions

/-!
# Merging many runs

Several sorted runs, ordered from the newest source to the oldest, are merged into
one.  A merge that always takes the least key at the heads of the runs, and there the
largest number, shows the newest version of every key.
-/

namespace KopiDb.Versions

variable {κ ν : Type*} [LinearOrder κ]

/-- Merge all runs; on equal keys and numbers runs in front go first. -/
def mergeAll (runs : List (List (Version κ ν))) : List (Version κ ν) :=
  runs.foldr merge []

@[simp]
theorem mergeAll_nil : mergeAll ([] : List (List (Version κ ν))) = [] := rfl

theorem mergeAll_cons (run : List (Version κ ν)) (runs : List (List (Version κ ν))) :
    mergeAll (run :: runs) = merge run (mergeAll runs) := rfl

theorem Sorted.mergeAll {runs : List (List (Version κ ν))}
    (hruns : ∀ run ∈ runs, Sorted run) : Sorted (mergeAll runs) := by
  induction runs with
  | nil => exact List.Pairwise.nil
  | cons run runs ih =>
      rw [mergeAll_cons]
      exact (hruns run List.mem_cons_self).merge
        (ih fun other hmem => hruns other (List.mem_cons_of_mem _ hmem))

variable [DecidableEq κ]

theorem mergeAll_sameVersions {runs : List (List (Version κ ν))}
    (hruns : ∀ run ∈ runs, Sorted run) : SameVersions (mergeAll runs) runs.flatten := by
  induction runs with
  | nil => exact SameVersions.refl _
  | cons run runs ih =>
      have htail : ∀ other ∈ runs, Sorted other := fun other hmem =>
        hruns other (List.mem_cons_of_mem _ hmem)
      rw [mergeAll_cons, List.flatten_cons]
      exact (merge_sameVersions (hruns run List.mem_cons_self) (Sorted.mergeAll htail)).trans
        ((SameVersions.refl run).append (ih htail))

theorem mergeAll_filter {runs : List (List (Version κ ν))}
    (hruns : ∀ run ∈ runs, Sorted run) (keep : Version κ ν → Bool) :
    (mergeAll runs).filter keep = mergeAll (runs.map fun run => run.filter keep) := by
  induction runs with
  | nil => rfl
  | cons run runs ih =>
      have htail : ∀ other ∈ runs, Sorted other := fun other hmem =>
        hruns other (List.mem_cons_of_mem _ hmem)
      rw [mergeAll_cons, merge_filter (hruns run List.mem_cons_self) (Sorted.mergeAll htail),
        ih htail, List.map_cons, mergeAll_cons]

/-- The runs agree on which version leads: it has the least key of all, and no version
of that key is better. -/
structure Leads (runs : List (List (Version κ ν))) (best : Version κ ν) : Prop where
  least : ∀ version ∈ runs.flatten, best.key ≤ version.key
  read_eq : read runs.flatten best.key 0 (fun _ => false) = some best

/-- The leading version is the first one of the merge; without its key the merge goes
on. -/
theorem Leads.firstPerKey_eq {runs : List (List (Version κ ν))} {best : Version κ ν}
    (hleads : Leads runs best) (hruns : ∀ run ∈ runs, Sorted run) :
    firstPerKey (mergeAll runs) =
      best :: firstPerKey (mergeAll
        (runs.map fun run => run.dropWhile fun version => version.key = best.key)) := by
  have hsorted := Sorted.mergeAll hruns
  have hsame := mergeAll_sameVersions hruns
  have hread : read (mergeAll runs) best.key 0 (fun _ => false) = some best := by
    rw [read_congr (hsame.latestAgree best.key), hleads.read_eq]
  have hmem : best ∈ mergeAll runs := (read_eq_some hread).1
  have hdrop : (runs.map fun run => run.dropWhile fun version => version.key = best.key) =
      runs.map fun run => run.filter fun version => best.key < version.key := by
    apply List.map_congr_left
    intro run hrun
    exact (hruns run hrun).dropWhile_least fun version hversion =>
      hleads.least version (List.mem_flatten.mpr ⟨run, hrun, hversion⟩)
  rw [hdrop, ← mergeAll_filter hruns]
  cases hmerged : mergeAll runs with
  | nil =>
      rw [hmerged] at hmem
      cases hmem
  | cons first rest =>
      rw [hmerged] at hread hmem hsorted hsame
      have hkey : first.key = best.key := by
        apply le_antisymm
        · rcases List.mem_cons.mp hmem with rfl | hmem
          · exact le_rfl
          · exact hsorted.key_le hmem
        · exact hleads.least first ((hsame.mem_iff first).mp List.mem_cons_self)
      have hfirst : first = best := by
        rw [hsorted.read_eq_find?, List.find?_cons_of_pos (by simp [hkey, visible])] at hread
        exact Option.some.inj hread
      subst hfirst
      rw [firstPerKey_cons, hsorted.dropWhile_key, List.filter_cons_of_neg (by simp)]

/-- How a merge finds the leading version: of the heads it takes one of the least key,
there one of the largest number, and the run in front on a tie. -/
theorem leads_of_heads {runs : List (List (Version κ ν))}
    (hruns : ∀ run ∈ runs, StrictKeys run) {idx : ℕ} (hidx : idx < runs.length)
    {best : Version κ ν} (hbest : runs[idx].head? = some best)
    (hleast : ∀ run ∈ runs, ∀ version, run.head? = some version → best.key ≤ version.key)
    (hfront : ∀ run ∈ runs.take idx, ∀ version, run.head? = some version →
      version.key = best.key → version.txid < best.txid)
    (hback : ∀ run ∈ runs.drop (idx + 1), ∀ version, run.head? = some version →
      version.key = best.key → version.txid ≤ best.txid) :
    Leads runs best := by
  -- A version of the least key stands at the head of its run.
  have hhead : ∀ run ∈ runs, ∀ version ∈ run,
      best.key ≤ version.key ∧ (version.key = best.key → run.head? = some version) := by
    intro run hrun version hmem
    have hstrict := hruns run hrun
    cases run with
    | nil => cases hmem
    | cons first rest =>
        have hfirst := hleast _ hrun first rfl
        rcases List.mem_cons.mp hmem with rfl | hmem
        · exact ⟨hfirst, fun _ => rfl⟩
        · have hlt := (List.pairwise_cons.mp hstrict).1 version hmem
          exact ⟨hfirst.trans hlt.le, fun hkey => absurd hkey (hfirst.trans_lt hlt).ne'⟩
  have hread : ∀ others : List (List (Version κ ν)), (∀ run ∈ others, run ∈ runs) → ∀ found,
      read others.flatten best.key 0 (fun _ => false) = some found →
        ∃ run ∈ others, run.head? = some found ∧ found.key = best.key := by
    intro others hothers found hfound
    obtain ⟨hmem, hkey, -⟩ := read_eq_some hfound
    obtain ⟨run, hrun, hmem⟩ := List.mem_flatten.mp hmem
    exact ⟨run, hrun, (hhead run (hothers run hrun) found hmem).2 hkey, hkey⟩
  refine ⟨?_, ?_⟩
  · intro version hmem
    obtain ⟨run, hrun, hmem⟩ := List.mem_flatten.mp hmem
    exact (hhead run hrun version hmem).1
  · have hsplit : runs = runs.take idx ++ runs[idx] :: runs.drop (idx + 1) := by
      rw [List.getElem_cons_drop, List.take_append_drop]
    have hown : read runs[idx] best.key 0 (fun _ => false) = some best := by
      rw [(hruns _ (List.getElem_mem hidx)).read_eq_find? (by simp [visible])]
      cases hrun : runs[idx] with
      | nil => simp [hrun] at hbest
      | cons first rest =>
          rw [hrun, List.head?_cons, Option.some.injEq] at hbest
          rw [hbest, List.find?_cons_of_pos (by simp)]
    rw [hsplit, List.flatten_append, List.flatten_cons, read_append, read_append, hown]
    have hrest : prefer (some best)
        (read (runs.drop (idx + 1)).flatten best.key 0 fun _ => false) = some best := by
      cases hfound : read (runs.drop (idx + 1)).flatten best.key 0 fun _ => false with
      | none => rfl
      | some found =>
          obtain ⟨run, hrun, hfirst, hkey⟩ := hread _ (fun _ => List.mem_of_mem_drop) found hfound
          rw [prefer_some_some, if_neg (hback run hrun found hfirst hkey).not_gt]
    rw [hrest]
    cases hfound : read (runs.take idx).flatten best.key 0 fun _ => false with
    | none => rfl
    | some found =>
        obtain ⟨run, hrun, hfirst, hkey⟩ := hread _ (fun _ => List.mem_of_mem_take) found hfound
        rw [prefer_some_some, if_pos (hfront run hrun found hfirst hkey)]

end KopiDb.Versions

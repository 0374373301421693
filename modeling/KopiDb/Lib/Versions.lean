import Mathlib

/-!
# Multi-version reads over lists of versions

A multi-version store keeps every version of a key and answers a read with the
largest version number the reader may see.  This module states that answer for
an arbitrary list of versions, ordered from the newest source to the oldest,
and proves how it behaves when sources are concatenated, sorted and merged.
-/

namespace KopiDb

/-- One version of a key: the writer `txid` stored `value` under `key`. -/
structure Version (κ ν : Type*) where
  key : κ
  value : ν
  txid : ℕ
  deriving DecidableEq, Repr

namespace Versions

variable {κ ν : Type*}

/-- A reader with upper bound `bound` (`0` is no bound) and skip predicate
`skip` may see the versions written by `txid`. -/
def visible (bound : ℕ) (skip : ℕ → Bool) (txid : ℕ) : Bool :=
  (bound == 0 || decide (txid ≤ bound)) && !skip txid

/-- The version with the largest number; among equal numbers the first. -/
def newest (versions : List (Version κ ν)) : Option (Version κ ν) :=
  versions.argmax Version.txid

/-- The better of two candidates; the left one wins on equal numbers. -/
def prefer (left right : Option (Version κ ν)) : Option (Version κ ν) :=
  match left, right with
  | none, candidate => candidate
  | some best, none => some best
  | some best, some candidate =>
      if best.txid < candidate.txid then some candidate else some best

@[simp]
theorem prefer_none_left (candidate : Option (Version κ ν)) :
    prefer none candidate = candidate := rfl

@[simp]
theorem prefer_none_right (best : Option (Version κ ν)) :
    prefer best none = best := by
  cases best <;> rfl

theorem prefer_some_some (best candidate : Version κ ν) :
    prefer (some best) (some candidate) =
      if best.txid < candidate.txid then some candidate else some best := rfl

theorem prefer_assoc (first second third : Option (Version κ ν)) :
    prefer (prefer first second) third =
      prefer first (prefer second third) := by
  cases first with
  | none => rfl
  | some a =>
      cases second with
      | none => simp
      | some b =>
          cases third with
          | none => simp
          | some c =>
              simp only [prefer_some_some]
              split_ifs with hab hbc <;>
                simp only [prefer_some_some] <;> split_ifs <;> grind

@[simp]
theorem newest_nil : newest ([] : List (Version κ ν)) = none := rfl

theorem newest_cons (head : Version κ ν) (tail : List (Version κ ν)) :
    newest (head :: tail) = prefer (some head) (newest tail) := by
  simp only [newest, List.argmax_cons]
  cases List.argmax Version.txid tail <;> rfl

theorem newest_append (left right : List (Version κ ν)) :
    newest (left ++ right) = prefer (newest left) (newest right) := by
  induction left with
  | nil => rfl
  | cons head tail ih =>
      rw [List.cons_append, newest_cons, ih, newest_cons, prefer_assoc]

theorem newest_eq_none_iff {versions : List (Version κ ν)} :
    newest versions = none ↔ versions = [] := by
  simp [newest, List.argmax_eq_none]

/-- `newest` is the version of the largest number that comes first among the
versions of that number. -/
theorem newest_eq_some_iff {versions : List (Version κ ν)} {best : Version κ ν} :
    newest versions = some best ↔
      (∀ version ∈ versions, version.txid ≤ best.txid) ∧
        versions.find? (fun version => version.txid = best.txid) = some best := by
  induction versions generalizing best with
  | nil => simp
  | cons head tail ih =>
      rw [newest_cons]
      cases htail : newest tail with
      | none =>
          rw [newest_eq_none_iff] at htail
          subst htail
          constructor
          · intro h
            simp only [prefer_none_right, Option.some.injEq] at h
            simp [h]
          · rintro ⟨-, hfind⟩
            have hmem := List.mem_of_find?_eq_some hfind
            simp only [List.mem_singleton] at hmem
            simp [hmem]
      | some candidate =>
          obtain ⟨hmax, hfirst⟩ := ih.mp htail
          rw [prefer_some_some]
          by_cases hlt : head.txid < candidate.txid
          · rw [if_pos hlt, ← htail, ih, List.forall_mem_cons]
            constructor
            · rintro ⟨hle, hfind⟩
              have hmem := hmax best (List.mem_of_find?_eq_some hfind)
              have hcand := hle candidate (List.mem_of_find?_eq_some hfirst)
              refine ⟨⟨by omega, hle⟩, ?_⟩
              rw [List.find?_cons_of_neg (by simp; omega)]
              exact hfind
            · rintro ⟨⟨hhead, hle⟩, hfind⟩
              have hcand := hle candidate (List.mem_of_find?_eq_some hfirst)
              rw [List.find?_cons_of_neg (by simp; omega)] at hfind
              exact ⟨hle, hfind⟩
          · rw [if_neg hlt]
            constructor
            · intro h
              obtain rfl := Option.some.inj h
              refine ⟨?_, by simp⟩
              intro version hversion
              rcases List.mem_cons.mp hversion with rfl | htl
              · exact le_rfl
              · exact (hmax version htl).trans (by omega)
            · rintro ⟨hle, hfind⟩
              rw [List.forall_mem_cons] at hle
              by_cases heq : head.txid = best.txid
              · rw [List.find?_cons_of_pos (by simpa using heq)] at hfind
                exact hfind
              · rw [List.find?_cons_of_neg (by simpa using heq)] at hfind
                have hmem := hmax best (List.mem_of_find?_eq_some hfind)
                omega

/-- `newest` only depends on the first version of every number. -/
theorem newest_congr {left right : List (Version κ ν)}
    (hfirst : ∀ txid, left.find? (fun version => version.txid = txid) =
      right.find? (fun version => version.txid = txid)) :
    newest left = newest right := by
  cases hleft : newest left with
  | none =>
      rw [newest_eq_none_iff] at hleft
      subst hleft
      symm
      rw [newest_eq_none_iff, List.eq_nil_iff_forall_not_mem]
      intro version hversion
      have hnone := (hfirst version.txid).symm
      simp only [List.find?_nil, List.find?_eq_none] at hnone
      simpa using hnone version hversion
  | some best =>
      symm
      obtain ⟨hmax, hfind⟩ := newest_eq_some_iff.mp hleft
      refine newest_eq_some_iff.mpr ⟨?_, (hfirst best.txid).symm.trans hfind⟩
      intro version hversion
      have hsome : (left.find? fun v => v.txid = version.txid).isSome := by
        rw [hfirst]
        simpa using ⟨version, hversion, rfl⟩
      obtain ⟨other, hother⟩ := Option.isSome_iff_exists.mp hsome
      have htxid : other.txid = version.txid := by
        simpa using List.find?_some hother
      have := hmax other (List.mem_of_find?_eq_some hother)
      omega

/-! ## Reading one key -/

section Read

variable [DecidableEq κ]

/-- The versions of `key` that a reader may see. -/
def candidates (versions : List (Version κ ν)) (key : κ) (bound : ℕ)
    (skip : ℕ → Bool) : List (Version κ ν) :=
  versions.filter fun version =>
    decide (version.key = key) && visible bound skip version.txid

/-- The newest version of `key` a reader may see, deletions included. -/
def read (versions : List (Version κ ν)) (key : κ) (bound : ℕ)
    (skip : ℕ → Bool) : Option (Version κ ν) :=
  newest (candidates versions key bound skip)

@[simp]
theorem read_nil (key : κ) (bound : ℕ) (skip : ℕ → Bool) :
    read ([] : List (Version κ ν)) key bound skip = none := rfl

theorem read_append (left right : List (Version κ ν)) (key : κ) (bound : ℕ)
    (skip : ℕ → Bool) :
    read (left ++ right) key bound skip =
      prefer (read left key bound skip) (read right key bound skip) := by
  simp only [read, candidates, List.filter_append, newest_append]

theorem read_cons (head : Version κ ν) (tail : List (Version κ ν)) (key : κ)
    (bound : ℕ) (skip : ℕ → Bool) :
    read (head :: tail) key bound skip =
      if head.key = key ∧ visible bound skip head.txid then
        prefer (some head) (read tail key bound skip)
      else read tail key bound skip := by
  by_cases hhead : head.key = key ∧ visible bound skip head.txid
  · rw [if_pos hhead]
    simp [read, candidates, hhead, newest_cons]
  · rw [if_neg hhead]
    simp only [not_and, Bool.not_eq_true] at hhead
    by_cases hkey : head.key = key <;> simp [read, candidates, hkey, hhead]

theorem read_eq_some {versions : List (Version κ ν)} {key : κ} {bound : ℕ}
    {skip : ℕ → Bool} {best : Version κ ν}
    (hread : read versions key bound skip = some best) :
    best ∈ versions ∧ best.key = key ∧ visible bound skip best.txid := by
  have hmem := List.mem_of_find?_eq_some (newest_eq_some_iff.mp hread).2
  simpa [candidates] using hmem

theorem read_eq_none_iff {versions : List (Version κ ν)} {key : κ} {bound : ℕ}
    {skip : ℕ → Bool} :
    read versions key bound skip = none ↔
      ∀ version ∈ versions, version.key = key →
        visible bound skip version.txid = false := by
  simp [read, newest_eq_none_iff, candidates]

/-- No visible version of the key is larger than the one that is read. -/
theorem le_of_read_eq_some {versions : List (Version κ ν)} {key : κ} {bound : ℕ}
    {skip : ℕ → Bool} {best : Version κ ν}
    (hread : read versions key bound skip = some best)
    {version : Version κ ν} (hmem : version ∈ versions)
    (hkey : version.key = key) (hvisible : visible bound skip version.txid) :
    version.txid ≤ best.txid :=
  (newest_eq_some_iff.mp hread).1 version (by simp [candidates, *])

theorem read_eq_none_of_absent {versions : List (Version κ ν)} {key : κ}
    (habsent : ∀ version ∈ versions, version.key ≠ key) (bound : ℕ) (skip : ℕ → Bool) :
    read versions key bound skip = none :=
  read_eq_none_iff.mpr fun version hmem hkey => absurd hkey (habsent version hmem)

/-- Sources that answer a read alike do so together. -/
theorem read_flatMap_congr {α : Type*} {left right : α → List (Version κ ν)}
    {sources : List α} {key : κ} {bound bound' : ℕ} {skip skip' : ℕ → Bool}
    (hread : ∀ source ∈ sources,
      read (left source) key bound skip = read (right source) key bound' skip') :
    read (sources.flatMap left) key bound skip =
      read (sources.flatMap right) key bound' skip' := by
  induction sources with
  | nil => rfl
  | cons first rest ih =>
      rw [List.flatMap_cons, List.flatMap_cons, read_append, read_append,
        hread first List.mem_cons_self,
        ih fun source hmem => hread source (List.mem_cons_of_mem _ hmem)]

/-- When only one run holds the key, that run answers a read of all runs. -/
theorem read_flatMap_of_only {α : Type*} (runs : α → List (Version κ ν)) {sources : List α}
    {key : κ} {hit : ℕ} (hhit : hit < sources.length)
    (habsent : ∀ idx (hidx : idx < sources.length), idx ≠ hit →
      ∀ version ∈ runs sources[idx], version.key ≠ key) (bound : ℕ) (skip : ℕ → Bool) :
    read (sources.flatMap runs) key bound skip =
      read (runs sources[hit]) key bound skip := by
  induction sources generalizing hit with
  | nil => simp at hhit
  | cons first rest ih =>
      rw [List.flatMap_cons, read_append]
      cases hit with
      | zero =>
          have hrest : read (rest.flatMap runs) key bound skip = none := by
            refine read_eq_none_of_absent (fun version hmem => ?_) bound skip
            obtain ⟨source, hsource, hversion⟩ := List.mem_flatMap.mp hmem
            obtain ⟨idx, hidx, rfl⟩ := List.mem_iff_getElem.mp hsource
            exact habsent (idx + 1) (Nat.succ_lt_succ hidx) (Nat.succ_ne_zero idx) version
              hversion
          rw [hrest, prefer_none_right, List.getElem_cons_zero]
      | succ hit =>
          have hfirst : read (runs first) key bound skip = none :=
            read_eq_none_of_absent
              (habsent 0 (Nat.succ_pos _) (Nat.succ_ne_zero hit).symm) bound skip
          have hrest := ih (Nat.lt_of_succ_lt_succ hhit) fun idx hidx hne =>
            habsent (idx + 1) (Nat.succ_lt_succ hidx) (Nat.succ_ne_succ_iff.mpr hne)
          rw [hfirst, prefer_none_left, hrest, List.getElem_cons_succ]

/-- The versions of `key` written by `txid`, in list order. -/
def versionsOf (versions : List (Version κ ν)) (key : κ) (txid : ℕ) :
    List (Version κ ν) :=
  versions.filter fun version =>
    decide (version.key = key) && decide (version.txid = txid)

@[simp]
theorem versionsOf_nil (key : κ) (txid : ℕ) :
    versionsOf ([] : List (Version κ ν)) key txid = [] := rfl

@[simp]
theorem versionsOf_append (left right : List (Version κ ν)) (key : κ) (txid : ℕ) :
    versionsOf (left ++ right) key txid =
      versionsOf left key txid ++ versionsOf right key txid := by
  simp [versionsOf]

theorem versionsOf_cons (head : Version κ ν) (tail : List (Version κ ν)) (key : κ)
    (txid : ℕ) :
    versionsOf (head :: tail) key txid =
      if head.key = key ∧ head.txid = txid then
        head :: versionsOf tail key txid
      else versionsOf tail key txid := by
  by_cases hhead : head.key = key ∧ head.txid = txid
  · rw [if_pos hhead]
    simp [versionsOf, hhead]
  · rw [if_neg hhead]
    by_cases hkey : head.key = key
    · simp [versionsOf, hkey, show head.txid ≠ txid from fun h => hhead ⟨hkey, h⟩]
    · simp [versionsOf, hkey]

theorem mem_versionsOf {versions : List (Version κ ν)} {key : κ} {txid : ℕ}
    {version : Version κ ν} :
    version ∈ versionsOf versions key txid ↔
      version ∈ versions ∧ version.key = key ∧ version.txid = txid := by
  simp [versionsOf]

/-- Two lists agree on the latest write of every writer to `key`. -/
def LatestAgree (left right : List (Version κ ν)) (key : κ) : Prop :=
  ∀ txid, (versionsOf left key txid).head? = (versionsOf right key txid).head?

/-- Two lists hold the same versions of every key and writer, in the same
order. -/
def SameVersions (left right : List (Version κ ν)) : Prop :=
  ∀ key txid, versionsOf left key txid = versionsOf right key txid

theorem SameVersions.refl (versions : List (Version κ ν)) :
    SameVersions versions versions := fun _ _ => rfl

theorem SameVersions.symm {left right : List (Version κ ν)}
    (hsame : SameVersions left right) : SameVersions right left :=
  fun key txid => (hsame key txid).symm

theorem SameVersions.trans {first second third : List (Version κ ν)}
    (hleft : SameVersions first second) (hright : SameVersions second third) :
    SameVersions first third :=
  fun key txid => (hleft key txid).trans (hright key txid)

theorem SameVersions.append {left left' right right' : List (Version κ ν)}
    (hleft : SameVersions left left') (hright : SameVersions right right') :
    SameVersions (left ++ right) (left' ++ right') := by
  intro key txid
  simp only [versionsOf_append, hleft key txid, hright key txid]

theorem SameVersions.filter {left right : List (Version κ ν)}
    (hsame : SameVersions left right) (keep : Version κ ν → Bool) :
    SameVersions (left.filter keep) (right.filter keep) := by
  intro key txid
  have hcomm : ∀ versions : List (Version κ ν), versionsOf (versions.filter keep) key txid =
      (versionsOf versions key txid).filter keep := by
    intro versions
    simp only [versionsOf, List.filter_filter, Bool.and_comm]
  rw [hcomm, hcomm, hsame key txid]

theorem SameVersions.latestAgree {left right : List (Version κ ν)}
    (hsame : SameVersions left right) (key : κ) : LatestAgree left right key :=
  fun txid => by rw [hsame key txid]

theorem LatestAgree.trans {first second third : List (Version κ ν)} {key : κ}
    (hleft : LatestAgree first second key) (hright : LatestAgree second third key) :
    LatestAgree first third key :=
  fun txid => (hleft txid).trans (hright txid)

theorem SameVersions.mem_iff {left right : List (Version κ ν)}
    (hsame : SameVersions left right) (version : Version κ ν) :
    version ∈ left ↔ version ∈ right := by
  have hmem := congrArg (version ∈ ·) (hsame version.key version.txid)
  simpa only [mem_versionsOf, and_self, and_true, eq_iff_iff] using hmem

/-- Versions that are found again behind themselves change no latest version. -/
theorem latestAgree_repeat {front middle back : List (Version κ ν)}
    (hmiddle : ∀ version ∈ middle, version ∈ front) (key : κ) :
    LatestAgree (front ++ (middle ++ back)) (front ++ back) key := by
  intro txid
  simp only [versionsOf_append]
  cases hfront : versionsOf front key txid with
  | cons version rest => rfl
  | nil =>
      have hnone : versionsOf middle key txid = [] := by
        rw [List.eq_nil_iff_forall_not_mem]
        intro version hmem
        obtain ⟨hversion, hkey, htxid⟩ := mem_versionsOf.mp hmem
        have hfound := mem_versionsOf.mpr ⟨hmiddle version hversion, hkey, htxid⟩
        rw [hfront] at hfound
        cases hfound
      rw [hnone]
      rfl

/-- Stored versions that answer reads like a history and all come from it; versions that
were overwritten may be missing. -/
structure Reflects (stored history : List (Version κ ν)) : Prop where
  latest : ∀ key, LatestAgree stored history key
  subset : ∀ version ∈ stored, version ∈ history

theorem Reflects.refl (versions : List (Version κ ν)) : Reflects versions versions :=
  ⟨fun _ _ => rfl, fun _ hmem => hmem⟩

theorem Reflects.trans {first second third : List (Version κ ν)}
    (hleft : Reflects first second) (hright : Reflects second third) :
    Reflects first third :=
  ⟨fun key => (hleft.latest key).trans (hright.latest key),
    fun version hmem => hright.subset version (hleft.subset version hmem)⟩

theorem SameVersions.reflects {left right : List (Version κ ν)}
    (hsame : SameVersions left right) : Reflects left right :=
  ⟨hsame.latestAgree, fun version hmem => (hsame.mem_iff version).mp hmem⟩

theorem Reflects.append {left left' right right' : List (Version κ ν)}
    (hleft : Reflects left left') (hright : Reflects right right') :
    Reflects (left ++ right) (left' ++ right') := by
  refine ⟨fun key txid => ?_, fun version hmem => ?_⟩
  · rw [versionsOf_append, versionsOf_append, List.head?_append, List.head?_append,
      hleft.latest key txid, hright.latest key txid]
  · rcases List.mem_append.mp hmem with hmem | hmem
    · exact List.mem_append_left _ (hleft.subset version hmem)
    · exact List.mem_append_right _ (hright.subset version hmem)

/-- Every writer to a key in the history has a stored version of the key. -/
theorem Reflects.writer {stored history : List (Version κ ν)}
    (hreflects : Reflects stored history) {version : Version κ ν} (hmem : version ∈ history) :
    ∃ other ∈ stored, other.key = version.key ∧ other.txid = version.txid := by
  have hsome : ((versionsOf history version.key version.txid).head?).isSome := by
    rw [List.isSome_head?]
    exact List.ne_nil_of_mem (mem_versionsOf.mpr ⟨hmem, rfl, rfl⟩)
  rw [← hreflects.latest version.key version.txid] at hsome
  obtain ⟨other, hother⟩ := Option.isSome_iff_exists.mp hsome
  exact ⟨other, mem_versionsOf.mp (List.mem_of_mem_head? hother)⟩

/-- Lists with the same versions are permutations of each other. -/
theorem SameVersions.perm [DecidableEq ν] {left right : List (Version κ ν)}
    (hsame : SameVersions left right) : left.Perm right := by
  rw [List.perm_iff_count]
  intro version
  have hcount : ∀ versions : List (Version κ ν),
      (versionsOf versions version.key version.txid).count version =
        versions.count version := by
    intro versions
    exact List.count_filter (by simp)
  rw [← hcount left, ← hcount right, hsame]

private theorem find?_candidates (versions : List (Version κ ν)) (key : κ)
    (bound : ℕ) (skip : ℕ → Bool) (txid : ℕ) :
    (candidates versions key bound skip).find?
        (fun version => decide (version.txid = txid)) =
      if visible bound skip txid then (versionsOf versions key txid).head?
      else none := by
  rw [candidates, List.find?_filter]
  split_ifs with hvisible
  · rw [versionsOf, List.head?_filter]
    congr 1
    funext version
    by_cases htxid : version.txid = txid
    · subst htxid
      simp [hvisible]
    · simp [htxid]
  · rw [List.find?_eq_none]
    intro version _
    by_cases htxid : version.txid = txid
    · subst htxid
      simp [hvisible]
    · simp [htxid]

/-- A read only depends on the latest write of every writer to the key. -/
theorem read_congr {left right : List (Version κ ν)} {key : κ}
    (hagree : LatestAgree left right key) (bound : ℕ) (skip : ℕ → Bool) :
    read left key bound skip = read right key bound skip := by
  apply newest_congr
  intro txid
  rw [find?_candidates, find?_candidates, hagree txid]

/-- Dropping hidden versions and other keys beforehand does not change a read. -/
theorem read_filter_visible {versions : List (Version κ ν)} (keep : κ → Bool) {key : κ}
    (hkeep : keep key) (bound : ℕ) (skip : ℕ → Bool) :
    read (versions.filter fun version => keep version.key && visible bound skip version.txid)
        key bound (fun _ => false) =
      read versions key bound skip := by
  unfold read candidates
  rw [List.filter_filter]
  congr 1
  apply List.filter_congr
  intro version _
  by_cases hkey : version.key = key
  · subst hkey
    simp only [visible, hkeep]
    grind
  · simp [hkey]

/-- Leaving out the skipped writers first does not change a read. -/
theorem read_filter_skip (versions : List (Version κ ν)) (key : κ) (bound : ℕ)
    (skip : ℕ → Bool) :
    read (versions.filter fun version => !skip version.txid) key bound (fun _ => false) =
      read versions key bound skip := by
  unfold read candidates
  rw [List.filter_filter]
  congr 1
  apply List.filter_congr
  intro version _
  simp only [visible, Bool.not_false, Bool.and_true, Bool.and_assoc]

/-- A skipped writer may as well not have written. -/
theorem read_filter_ne (versions : List (Version κ ν)) (key : κ) (bound : ℕ) {skip : ℕ → Bool}
    {id : ℕ} (hskip : skip id = true) :
    read (versions.filter fun version => decide (version.txid ≠ id)) key bound skip =
      read versions key bound skip := by
  unfold read candidates
  rw [List.filter_filter]
  congr 1
  apply List.filter_congr
  intro version _
  by_cases hid : version.txid = id
  · simp [visible, hid, hskip]
  · simp [hid]

/-- Hidden writers do not matter: two skip predicates that agree on the writers
of the key give the same read. -/
theorem read_skip_congr {versions : List (Version κ ν)} {key : κ} {bound : ℕ}
    {skip skip' : ℕ → Bool}
    (hskip : ∀ version ∈ versions, version.key = key →
      skip version.txid = skip' version.txid) :
    read versions key bound skip = read versions key bound skip' := by
  unfold read candidates
  congr 1
  apply List.filter_congr
  intro version hversion
  by_cases hkey : version.key = key
  · simp [visible, hskip version hversion hkey]
  · simp [hkey]

end Read

end Versions

end KopiDb

import KopiDb.Lib.Versions

/-!
# Version lists in storage order

Tables keep their versions with keys ascending and the versions of one key
descending.  In that order the first visible version of a key is the newest
one, two runs merge stably, and dropping repeated keys leaves one version of
every key.
-/

namespace KopiDb.Versions

variable {κ ν : Type*}

section Order

variable [LinearOrder κ]

/-- Storage order: keys ascending, the versions of one key descending. -/
def Precedes (left right : Version κ ν) : Prop :=
  left.key < right.key ∨ (left.key = right.key ∧ right.txid ≤ left.txid)

instance : DecidableRel (Precedes : Version κ ν → Version κ ν → Prop) :=
  fun _ _ => inferInstanceAs (Decidable (_ ∨ _))

def Sorted (versions : List (Version κ ν)) : Prop :=
  versions.Pairwise Precedes

theorem Precedes.trans {first second third : Version κ ν}
    (hleft : Precedes first second) (hright : Precedes second third) :
    Precedes first third := by
  rcases hleft with hlt | ⟨heq, hle⟩
  · rcases hright with hlt' | ⟨heq', -⟩
    · exact Or.inl (hlt.trans hlt')
    · exact Or.inl (heq' ▸ hlt)
  · rcases hright with hlt' | ⟨heq', hle'⟩
    · exact Or.inl (heq ▸ hlt')
    · exact Or.inr ⟨heq.trans heq', hle'.trans hle⟩

theorem Precedes.total (left right : Version κ ν) :
    Precedes left right ∨ Precedes right left := by
  rcases lt_trichotomy left.key right.key with hlt | heq | hgt
  · exact Or.inl (Or.inl hlt)
  · rcases le_total right.txid left.txid with hle | hle
    · exact Or.inl (Or.inr ⟨heq, hle⟩)
    · exact Or.inr (Or.inr ⟨heq.symm, hle⟩)
  · exact Or.inr (Or.inl hgt)

theorem Precedes.key_le {left right : Version κ ν} (hprec : Precedes left right) :
    left.key ≤ right.key := by
  rcases hprec with hlt | ⟨heq, -⟩
  · exact hlt.le
  · exact heq.le

theorem Sorted.tail {head : Version κ ν} {tail : List (Version κ ν)}
    (hsorted : Sorted (head :: tail)) : Sorted tail :=
  (List.pairwise_cons.mp hsorted).2

theorem Sorted.key_le {head : Version κ ν} {tail : List (Version κ ν)}
    (hsorted : Sorted (head :: tail)) {version : Version κ ν}
    (hmem : version ∈ tail) : head.key ≤ version.key :=
  ((List.pairwise_cons.mp hsorted).1 version hmem).key_le

theorem Sorted.filter {versions : List (Version κ ν)} (hsorted : Sorted versions)
    (keep : Version κ ν → Bool) : Sorted (versions.filter keep) :=
  List.Pairwise.filter keep hsorted

/-- Runs whose keys do not interleave concatenate to a sorted run. -/
theorem Sorted.append {left right : List (Version κ ν)} (hleft : Sorted left)
    (hright : Sorted right)
    (hkeys : ∀ first ∈ left, ∀ second ∈ right, first.key < second.key) :
    Sorted (left ++ right) :=
  List.pairwise_append.mpr ⟨hleft, hright,
    fun first hfirst second hsecond => Or.inl (hkeys first hfirst second hsecond)⟩

/-- A run that lists every key at most once, keys ascending. -/
def StrictKeys (versions : List (Version κ ν)) : Prop :=
  versions.Pairwise fun left right => left.key < right.key

theorem StrictKeys.sorted {versions : List (Version κ ν)}
    (hstrict : StrictKeys versions) : Sorted versions :=
  List.Pairwise.imp Or.inl hstrict

end Order

private theorem newest_eq_head? {versions : List (Version κ ν)}
    (hdesc : versions.Pairwise fun left right => right.txid ≤ left.txid) :
    newest versions = versions.head? := by
  induction versions with
  | nil => rfl
  | cons head tail ih =>
      rw [List.pairwise_cons] at hdesc
      rw [newest_cons, ih hdesc.2, List.head?_cons]
      cases htail : tail.head? with
      | none => rfl
      | some second =>
          have hle := hdesc.1 second (List.mem_of_head? htail)
          rw [prefer_some_some, if_neg (by omega)]

section Merge

variable [LinearOrder κ]

/-- In storage order a read is answered by the first visible version. -/
theorem Sorted.read_eq_find? [DecidableEq κ] {versions : List (Version κ ν)}
    (hsorted : Sorted versions) (key : κ) (bound : ℕ) (skip : ℕ → Bool) :
    read versions key bound skip =
      versions.find? fun version =>
        decide (version.key = key) && visible bound skip version.txid := by
  rw [← List.head?_filter]
  apply newest_eq_head?
  apply (hsorted.filter _).imp_of_mem
  intro left right hleft hright hprec
  simp only [List.mem_filter, Bool.and_eq_true, decide_eq_true_eq] at hleft hright
  rcases hprec with hlt | ⟨-, hle⟩
  · rw [hleft.2.1, hright.2.1] at hlt
    exact absurd hlt (lt_irrefl _)
  · exact hle

/-! ## Stable merge of two runs -/

/-- The two-way merge that takes from `left` unless `right` strictly precedes. -/
def merge (left right : List (Version κ ν)) : List (Version κ ν) :=
  List.merge left right fun first second => decide (Precedes first second)

@[simp]
theorem merge_nil_left (right : List (Version κ ν)) : merge [] right = right := by
  simp [merge]

@[simp]
theorem merge_nil_right (left : List (Version κ ν)) : merge left [] = left := by
  simp [merge]

theorem merge_cons_cons (first second : Version κ ν)
    (left right : List (Version κ ν)) :
    merge (first :: left) (second :: right) =
      if Precedes first second then first :: merge left (second :: right)
      else second :: merge (first :: left) right := by
  simp [merge, List.cons_merge_cons]

theorem Sorted.merge {left right : List (Version κ ν)} (hleft : Sorted left)
    (hright : Sorted right) : Sorted (merge left right) := by
  have htrans : ∀ a b c : Version κ ν, decide (Precedes a b) = true →
      decide (Precedes b c) = true → decide (Precedes a c) = true := by
    intro a b c hab hbc
    simp only [decide_eq_true_eq] at hab hbc ⊢
    exact hab.trans hbc
  have htotal : ∀ a b : Version κ ν,
      (decide (Precedes a b) || decide (Precedes b a)) = true := by
    intro a b
    simpa using Precedes.total a b
  have hpairwise := List.pairwise_merge htrans htotal left right
    (by simpa [Sorted] using hleft) (by simpa [Sorted] using hright)
  simpa [Sorted, Versions.merge] using hpairwise

/-- Merging runs keeps every version, and among equal keys and numbers the
versions of the left run come first. -/
theorem merge_sameVersions [DecidableEq κ] {left right : List (Version κ ν)}
    (hleft : Sorted left) (hright : Sorted right) :
    SameVersions (merge left right) (left ++ right) := by
  induction left generalizing right with
  | nil => simpa using SameVersions.refl right
  | cons first left ihleft =>
      induction right with
      | nil => simpa using SameVersions.refl (first :: left)
      | cons second right ihright =>
          rw [merge_cons_cons]
          split_ifs with hprec
          · intro key txid
            rw [List.cons_append, versionsOf_cons, versionsOf_cons,
              ihleft hleft.tail hright key txid]
          · -- `second` strictly precedes the whole left run, so no version of
            -- the left run shares its key and number.
            intro key txid
            have hbefore : ∀ version ∈ first :: left,
                ¬(version.key = second.key ∧ version.txid = second.txid) := by
              intro version hmem hsame
              apply hprec
              have hfirst : version = first ∨ Precedes first version := by
                rcases List.mem_cons.mp hmem with h | h
                · exact Or.inl h
                · exact Or.inr ((List.pairwise_cons.mp hleft).1 version h)
              rcases hfirst with rfl | hfirst
              · exact Or.inr ⟨hsame.1, hsame.2.ge⟩
              · exact hfirst.trans (Or.inr ⟨hsame.1, hsame.2.ge⟩)
            rw [versionsOf_cons, ihright hright.tail key txid, versionsOf_append,
              versionsOf_append, versionsOf_cons second]
            split_ifs with hsecond
            · have hnil : versionsOf (first :: left) key txid = [] := by
                rw [List.eq_nil_iff_forall_not_mem]
                intro version hmem
                rw [mem_versionsOf] at hmem
                exact hbefore version hmem.1
                  ⟨hmem.2.1.trans hsecond.1.symm, hmem.2.2.trans hsecond.2.symm⟩
              rw [hnil, List.nil_append, List.nil_append]
            · rfl

/-- A sorted run is determined by the versions of each key and number. -/
theorem Sorted.eq_of_sameVersions [DecidableEq κ] {left right : List (Version κ ν)}
    (hleft : Sorted left) (hright : Sorted right) (hsame : SameVersions left right) :
    left = right := by
  induction left generalizing right with
  | nil =>
      symm
      rw [List.eq_nil_iff_forall_not_mem]
      intro version hmem
      exact List.not_mem_nil ((hsame.mem_iff version).mpr hmem)
  | cons first left ih =>
      cases right with
      | nil => exact absurd ((hsame.mem_iff first).mp List.mem_cons_self) List.not_mem_nil
      | cons second right =>
          have hfirst : second = first ∨ Precedes second first := by
            rcases List.mem_cons.mp ((hsame.mem_iff first).mp List.mem_cons_self) with h | h
            · exact Or.inl h.symm
            · exact Or.inr ((List.pairwise_cons.mp hright).1 first h)
          have hsecond : first = second ∨ Precedes first second := by
            rcases List.mem_cons.mp ((hsame.mem_iff second).mpr List.mem_cons_self) with h | h
            · exact Or.inl h.symm
            · exact Or.inr ((List.pairwise_cons.mp hleft).1 second h)
          have hkey : second.key = first.key ∧ second.txid = first.txid := by
            rcases hfirst with rfl | hfirst
            · exact ⟨rfl, rfl⟩
            rcases hsecond with rfl | hsecond
            · exact ⟨rfl, rfl⟩
            have heq := le_antisymm hfirst.key_le hsecond.key_le
            rcases hfirst with hlt | ⟨-, hle⟩
            · exact absurd heq hlt.ne
            rcases hsecond with hlt | ⟨-, hge⟩
            · exact absurd heq hlt.ne'
            · exact ⟨heq, le_antisymm hge hle⟩
          -- Both heads open the list of the same key and number.
          have hheads := hsame first.key first.txid
          rw [versionsOf_cons, if_pos ⟨rfl, rfl⟩, versionsOf_cons, if_pos hkey,
            List.cons.injEq] at hheads
          obtain rfl := hheads.1
          congr 1
          apply ih hleft.tail hright.tail
          intro key txid
          have htails := hsame key txid
          rw [versionsOf_cons, versionsOf_cons] at htails
          split_ifs at htails
          · exact (List.cons.inj htails).2
          · exact htails

theorem merge_eq_nil {left right : List (Version κ ν)} (hmerge : merge left right = []) :
    left = [] ∧ right = [] := by
  have hlength := congrArg List.length hmerge
  rw [merge, List.length_merge, List.length_nil] at hlength
  exact ⟨List.length_eq_zero_iff.mp (by omega), List.length_eq_zero_iff.mp (by omega)⟩

/-- Filtering commutes with merging. -/
theorem merge_filter [DecidableEq κ] {left right : List (Version κ ν)}
    (hleft : Sorted left) (hright : Sorted right) (keep : Version κ ν → Bool) :
    (merge left right).filter keep = merge (left.filter keep) (right.filter keep) := by
  apply ((hleft.merge hright).filter keep).eq_of_sameVersions
    ((hleft.filter keep).merge (hright.filter keep))
  have hmerge := merge_sameVersions (hleft.filter keep) (hright.filter keep)
  rw [← List.filter_append] at hmerge
  exact ((merge_sameVersions hleft hright).filter keep).trans hmerge.symm

end Merge

/-! ## One version of every key -/

section FirstPerKey

variable [DecidableEq κ]

/-- Keep the first version of every run of equal keys. -/
def firstPerKey (versions : List (Version κ ν)) : List (Version κ ν) :=
  versions.destutter fun left right => left.key ≠ right.key

@[simp]
theorem firstPerKey_nil : firstPerKey ([] : List (Version κ ν)) = [] := rfl

theorem firstPerKey_cons (head : Version κ ν) (tail : List (Version κ ν)) :
    firstPerKey (head :: tail) =
      head :: firstPerKey (tail.dropWhile fun version => version.key = head.key) := by
  rw [firstPerKey, List.destutter_cons']
  induction tail with
  | nil => rfl
  | cons second tail ih =>
      rw [List.destutter'_cons]
      by_cases hkey : head.key = second.key
      · rw [if_neg (by simpa using hkey), ih,
          List.dropWhile_cons_of_pos (by simp [hkey])]
      · rw [if_pos hkey, List.dropWhile_cons_of_neg (by simpa using Ne.symm hkey)]
        rfl

theorem firstPerKey_sublist (versions : List (Version κ ν)) :
    (firstPerKey versions).Sublist versions :=
  List.destutter_sublist _ _

variable [LinearOrder κ]

/-- Dropping the versions of the smallest key leaves exactly the versions of
larger keys. -/
theorem Sorted.dropWhile_least {versions : List (Version κ ν)}
    (hsorted : Sorted versions) {key : κ} (hleast : ∀ version ∈ versions, key ≤ version.key) :
    (versions.dropWhile fun version => version.key = key) =
      versions.filter fun version => key < version.key := by
  induction versions with
  | nil => rfl
  | cons second tail ih =>
      by_cases hkey : second.key = key
      · rw [List.dropWhile_cons_of_pos (by simpa using hkey),
          ih hsorted.tail fun version hmem => hleast version (List.mem_cons_of_mem _ hmem),
          List.filter_cons_of_neg (by simp [hkey])]
      · have hlt : key < second.key :=
          lt_of_le_of_ne (hleast second List.mem_cons_self) (Ne.symm hkey)
        rw [List.dropWhile_cons_of_neg (by simpa using hkey)]
        symm
        rw [List.filter_eq_self]
        intro version hmem
        rcases List.mem_cons.mp hmem with rfl | hmem
        · simpa using hlt
        · simpa using hlt.trans_le (hsorted.key_le hmem)

theorem Sorted.dropWhile_key {head : Version κ ν} {tail : List (Version κ ν)}
    (hsorted : Sorted (head :: tail)) :
    (tail.dropWhile fun version => version.key = head.key) =
      tail.filter fun version => head.key < version.key :=
  hsorted.tail.dropWhile_least fun _ hmem => hsorted.key_le hmem

/-- Dropping the rest of a key and filtering commute on a sorted run. -/
theorem Sorted.filter_dropWhile_key {head : Version κ ν}
    {tail : List (Version κ ν)} (hsorted : Sorted (head :: tail))
    (keep : Version κ ν → Bool) :
    (tail.dropWhile fun version => version.key = head.key).filter keep =
      (tail.filter keep).dropWhile fun version => version.key = head.key := by
  have hkept : Sorted (head :: tail.filter keep) :=
    List.Pairwise.sublist (List.Sublist.cons_cons _ List.filter_sublist) hsorted
  rw [hsorted.dropWhile_key, hkept.dropWhile_key, List.filter_filter,
    List.filter_filter]
  simp only [Bool.and_comm]

theorem Sorted.strictKeys_firstPerKey {versions : List (Version κ ν)}
    (hsorted : Sorted versions) : StrictKeys (firstPerKey versions) := by
  induction hlen : versions.length using Nat.strong_induction_on
    generalizing versions with
  | _ length ih =>
      cases versions with
      | nil => exact List.Pairwise.nil
      | cons head tail =>
          rw [firstPerKey_cons, hsorted.dropWhile_key]
          refine List.pairwise_cons.mpr ⟨?_, ?_⟩
          · intro version hmem
            have hmem' := (firstPerKey_sublist _).subset hmem
            simpa using (List.mem_filter.mp hmem').2
          · refine ih _ ?_ (hsorted.tail.filter _) rfl
            have := List.length_filter_le
              (fun version : Version κ ν => decide (head.key < version.key)) tail
            simp only [List.length_cons] at hlen
            omega

/-- Reading one key of a sorted run only needs the first version of the key. -/
theorem Sorted.find?_firstPerKey {versions : List (Version κ ν)}
    (hsorted : Sorted versions) (key : κ) :
    (firstPerKey versions).find? (fun version => version.key = key) =
      versions.find? fun version => version.key = key := by
  induction hlen : versions.length using Nat.strong_induction_on
    generalizing versions with
  | _ length ih =>
      cases versions with
      | nil => rfl
      | cons head tail =>
          rw [firstPerKey_cons]
          by_cases hkey : head.key = key
          · rw [List.find?_cons_of_pos (by simpa using hkey),
              List.find?_cons_of_pos (by simpa using hkey)]
          · rw [List.find?_cons_of_neg (by simpa using hkey),
              List.find?_cons_of_neg (by simpa using hkey)]
            rw [hsorted.dropWhile_key, ih _ ?_ (hsorted.tail.filter _) rfl,
              List.find?_filter]
            · have hpred : ∀ version ∈ tail,
                  (decide (head.key < version.key) && decide (version.key = key)) =
                    decide (version.key = key) := by
                intro version hmem
                by_cases hversion : version.key = key
                · have hle := hsorted.key_le hmem
                  have hne : head.key ≠ version.key := fun h => hkey (h.trans hversion)
                  simp [hversion ▸ lt_of_le_of_ne hle hne, hversion]
                · simp [hversion]
              rw [← List.head?_filter, ← List.head?_filter]
              congr 1
              exact List.filter_congr fun version hmem => by
                simpa using hpred version hmem
            · have := List.length_filter_le
                (fun version : Version κ ν => decide (head.key < version.key)) tail
              simp only [List.length_cons] at hlen
              omega

/-- A run without repeated keys is determined by what it holds under each key. -/
theorem StrictKeys.mem_iff_find? {versions : List (Version κ ν)}
    (hstrict : StrictKeys versions) (version : Version κ ν) :
    version ∈ versions ↔
      versions.find? (fun other => other.key = version.key) = some version := by
  constructor
  · intro hmem
    induction versions with
    | nil => simp at hmem
    | cons head tail ih =>
        have hcons := List.pairwise_cons.mp hstrict
        rcases List.mem_cons.mp hmem with rfl | htail
        · simp
        · have hlt := hcons.1 version htail
          rw [List.find?_cons_of_neg (by simpa using hlt.ne)]
          exact ih hcons.2 htail
  · exact List.mem_of_find?_eq_some

/-- Filtering a run without repeated keys keeps or hides what a key holds. -/
theorem StrictKeys.find?_filter {versions : List (Version κ ν)}
    (hstrict : StrictKeys versions) (keep : Version κ ν → Bool) (key : κ) :
    (versions.filter keep).find? (fun version => version.key = key) =
      (versions.find? fun version => version.key = key).filter keep := by
  induction versions with
  | nil => rfl
  | cons head tail ih =>
      have hcons := List.pairwise_cons.mp hstrict
      by_cases hkey : head.key = key
      · have hnone : (tail.filter keep).find? (fun version => version.key = key) =
            none := by
          rw [List.find?_eq_none]
          intro version hmem
          have hlt := hcons.1 version (List.mem_of_mem_filter hmem)
          simpa [← hkey] using hlt.ne'
        rw [List.find?_cons_of_pos (by simpa using hkey), Option.filter_some]
        by_cases hkeep : keep head
        · rw [List.filter_cons_of_pos hkeep, if_pos hkeep,
            List.find?_cons_of_pos (by simpa using hkey)]
        · rw [List.filter_cons_of_neg hkeep, if_neg hkeep, hnone]
      · rw [List.find?_cons_of_neg (by simpa using hkey), ← ih hcons.2]
        by_cases hkeep : keep head
        · rw [List.filter_cons_of_pos hkeep,
            List.find?_cons_of_neg (by simpa using hkey)]
        · rw [List.filter_cons_of_neg hkeep]

/-- Keeping the first visible version of every key answers every read. -/
theorem Sorted.find?_firstPerKey_visible {versions : List (Version κ ν)}
    (hsorted : Sorted versions) (key : κ) (bound : ℕ) (skip : ℕ → Bool) :
    (firstPerKey (versions.filter fun version =>
      visible bound skip version.txid)).find? (fun version => version.key = key) =
      read versions key bound skip := by
  rw [(hsorted.filter _).find?_firstPerKey, hsorted.read_eq_find?, List.find?_filter]
  congr 1
  funext version
  simp [Bool.and_comm]

/-- What a reader sees of a run: the visible versions, and unless all versions
are kept only the first one of every key. -/
def shown (bound : ℕ) (skip : ℕ → Bool) (keepAll : Bool)
    (versions : List (Version κ ν)) : List (Version κ ν) :=
  let visible := versions.filter fun version => visible bound skip version.txid
  if keepAll then visible else firstPerKey visible

omit [LinearOrder κ] in
@[simp]
theorem shown_nil (bound : ℕ) (skip : ℕ → Bool) (keepAll : Bool) :
    shown bound skip keepAll ([] : List (Version κ ν)) = [] := by
  cases keepAll <;> rfl

omit [LinearOrder κ] in
/-- Only visible versions are shown. -/
theorem mem_shown {bound : ℕ} {skip : ℕ → Bool} {keepAll : Bool}
    {versions : List (Version κ ν)} {version : Version κ ν}
    (hmem : version ∈ shown bound skip keepAll versions) :
    version ∈ versions ∧ visible bound skip version.txid := by
  have hfilter : version ∈ versions.filter fun version =>
      visible bound skip version.txid := by
    unfold shown at hmem
    cases keepAll with
    | true => exact hmem
    | false => exact (firstPerKey_sublist _).subset hmem
  simpa using hfilter

omit [LinearOrder κ] [DecidableEq κ] in
theorem visible_of_head? {bound : ℕ} {skip : ℕ → Bool} {versions : List (Version κ ν)}
    {head : Version κ ν}
    (hhead : (versions.dropWhile fun version =>
      !visible bound skip version.txid).head? = some head) :
    visible bound skip head.txid := by
  have hnot := List.head?_dropWhile_not
    (fun version : Version κ ν => !visible bound skip version.txid) versions
  rw [hhead] at hnot
  simpa using hnot

omit [LinearOrder κ] [DecidableEq κ] in
theorem filter_dropWhile_visible (bound : ℕ) (skip : ℕ → Bool)
    (versions : List (Version κ ν)) :
    ((versions.dropWhile fun version => !visible bound skip version.txid).filter
        fun version => visible bound skip version.txid) =
      versions.filter fun version => visible bound skip version.txid := by
  induction versions with
  | nil => rfl
  | cons head tail ih =>
      by_cases hvisible : visible bound skip head.txid
      · rw [List.dropWhile_cons_of_neg (by simpa using hvisible)]
      · rw [List.dropWhile_cons_of_pos (by simpa using hvisible), ih,
          List.filter_cons_of_neg (by simpa using hvisible)]

omit [LinearOrder κ] in
/-- Hidden versions at the front do not matter. -/
theorem shown_dropWhile (bound : ℕ) (skip : ℕ → Bool) (keepAll : Bool)
    (versions : List (Version κ ν)) :
    shown bound skip keepAll (versions.dropWhile fun version =>
        !visible bound skip version.txid) =
      shown bound skip keepAll versions := by
  unfold shown
  rw [filter_dropWhile_visible]

/-- Hidden versions at the front of merged runs do not matter either. -/
theorem shown_merge_dropWhile (bound : ℕ) (skip : ℕ → Bool) (keepAll : Bool)
    {left right : List (Version κ ν)} (hleft : Sorted left) (hright : Sorted right) :
    shown bound skip keepAll
        (merge (left.dropWhile fun version => !visible bound skip version.txid)
          (right.dropWhile fun version => !visible bound skip version.txid)) =
      shown bound skip keepAll (merge left right) := by
  unfold shown
  rw [merge_filter hleft hright,
    merge_filter (hleft.sublist (List.dropWhile_sublist _))
      (hright.sublist (List.dropWhile_sublist _)),
    filter_dropWhile_visible, filter_dropWhile_visible]

/-- A visible version is shown and, unless all are kept, hides its successors of
the same key. -/
theorem shown_cons {bound : ℕ} {skip : ℕ → Bool} {keepAll : Bool}
    {head : Version κ ν} {tail : List (Version κ ν)}
    (hsorted : Sorted (head :: tail)) (hvisible : visible bound skip head.txid) :
    shown bound skip keepAll (head :: tail) =
      head :: shown bound skip keepAll
        (if keepAll then tail
          else tail.dropWhile fun version => version.key = head.key) := by
  unfold shown
  rw [List.filter_cons_of_pos (by simpa using hvisible)]
  cases keepAll with
  | true => rfl
  | false =>
      simp only [Bool.false_eq_true, if_false]
      rw [firstPerKey_cons, hsorted.filter_dropWhile_key]

private theorem firstPerKey_append {left right : List (Version κ ν)}
    (hkeys : ∀ first ∈ left, ∀ second ∈ right, first.key < second.key) :
    firstPerKey (left ++ right) = firstPerKey left ++ firstPerKey right := by
  induction hlen : left.length using Nat.strong_induction_on generalizing left with
  | _ length ih =>
      cases left with
      | nil => rfl
      | cons head tail =>
          rw [List.cons_append, firstPerKey_cons, firstPerKey_cons, List.cons_append]
          congr 1
          have hdrop : ((tail ++ right).dropWhile fun version =>
              version.key = head.key) =
              (tail.dropWhile fun version => version.key = head.key) ++ right := by
            rw [List.dropWhile_append]
            split_ifs with hempty
            · rw [List.isEmpty_iff.mp hempty, List.nil_append]
              cases hright : right with
              | nil => rfl
              | cons second rest =>
                  have hlt := hkeys head List.mem_cons_self second
                    (by rw [hright]; exact List.mem_cons_self)
                  rw [List.dropWhile_cons_of_neg (by simpa using hlt.ne')]
            · rfl
          rw [hdrop]
          have hsub := List.dropWhile_sublist (l := tail)
            (fun version : Version κ ν => decide (version.key = head.key))
          refine ih _ ?_ ?_ rfl
          · have := hsub.length_le
            simp only [List.length_cons] at hlen
            omega
          · intro first hfirst second hsecond
            exact hkeys first (List.mem_cons_of_mem _ (hsub.subset hfirst)) second hsecond

/-- Runs whose keys do not interleave are shown one after the other. -/
theorem shown_append (bound : ℕ) (skip : ℕ → Bool) (keepAll : Bool)
    {left right : List (Version κ ν)}
    (hkeys : ∀ first ∈ left, ∀ second ∈ right, first.key < second.key) :
    shown bound skip keepAll (left ++ right) =
      shown bound skip keepAll left ++ shown bound skip keepAll right := by
  unfold shown
  rw [List.filter_append]
  cases keepAll with
  | true => rfl
  | false =>
      apply firstPerKey_append
      intro first hfirst second hsecond
      exact hkeys first (List.mem_of_mem_filter hfirst) second
        (List.mem_of_mem_filter hsecond)

theorem Sorted.shown_strictKeys {versions : List (Version κ ν)}
    (hsorted : Sorted versions) (bound : ℕ) (skip : ℕ → Bool) :
    StrictKeys (shown bound skip false versions) :=
  (hsorted.filter _).strictKeys_firstPerKey

/-- What is shown of a key is its read. -/
theorem Sorted.find?_shown {versions : List (Version κ ν)} (hsorted : Sorted versions)
    (bound : ℕ) (skip : ℕ → Bool) (key : κ) :
    (shown bound skip false versions).find? (fun version => version.key = key) =
      read versions key bound skip :=
  hsorted.find?_firstPerKey_visible key bound skip

/-- A run without repeated keys whose versions are all visible is shown as it is. -/
theorem StrictKeys.shown_eq_self {versions : List (Version κ ν)} (hstrict : StrictKeys versions)
    {bound : ℕ} {skip : ℕ → Bool}
    (hvisible : ∀ version ∈ versions, visible bound skip version.txid) :
    shown bound skip false versions = versions := by
  have hfilter : (versions.filter fun version => visible bound skip version.txid) = versions :=
    List.filter_eq_self.mpr hvisible
  have hfirst : ∀ {versions : List (Version κ ν)}, StrictKeys versions →
      firstPerKey versions = versions := by
    intro versions hstrict
    induction versions with
    | nil => rfl
    | cons head tail ih =>
        have hcons := List.pairwise_cons.mp hstrict
        have hdrop : (tail.dropWhile fun version => version.key = head.key) = tail := by
          cases tail with
          | nil => rfl
          | cons second rest =>
              have hlt := hcons.1 second List.mem_cons_self
              rw [List.dropWhile_cons_of_neg (by simpa using hlt.ne')]
        rw [firstPerKey_cons, hdrop, ih hcons.2]
  rw [shown, hfilter, if_neg Bool.false_ne_true, hfirst hstrict]

/-- A run without repeated keys whose versions are all visible answers a read with its
version of the key. -/
theorem StrictKeys.read_eq_find? {versions : List (Version κ ν)} (hstrict : StrictKeys versions)
    {bound : ℕ} {skip : ℕ → Bool}
    (hvisible : ∀ version ∈ versions, visible bound skip version.txid) (key : κ) :
    read versions key bound skip = versions.find? fun version => version.key = key := by
  rw [hstrict.sorted.read_eq_find?, ← List.head?_filter, ← List.head?_filter]
  congr 1
  apply List.filter_congr
  intro version hmem
  rw [hvisible version hmem, Bool.and_true]

/-- Runs without repeated keys that hold the same under every key are equal. -/
theorem StrictKeys.ext {left right : List (Version κ ν)} (hleft : StrictKeys left)
    (hright : StrictKeys right)
    (hfind : ∀ version ∈ left ++ right, (left.find? fun other => other.key = version.key) =
      right.find? fun other => other.key = version.key) : left = right := by
  have hmem : ∀ version, version ∈ left ↔ version ∈ right := by
    intro version
    constructor
    · intro hversion
      rw [hright.mem_iff_find?, ← hfind version (List.mem_append_left _ hversion)]
      exact (hleft.mem_iff_find? version).mp hversion
    · intro hversion
      rw [hleft.mem_iff_find?, hfind version (List.mem_append_right _ hversion)]
      exact (hright.mem_iff_find? version).mp hversion
  have hnodup : ∀ {versions : List (Version κ ν)}, StrictKeys versions → versions.Nodup :=
    fun hstrict => hstrict.imp fun {first second} hlt heq => (heq ▸ hlt).false
  have hperm := (List.perm_ext_iff_of_nodup (hnodup hleft) (hnodup hright)).mpr hmem
  refine hperm.eq_of_pairwise (fun first second _ _ hlt hgt => ?_) hleft hright
  exact absurd hgt hlt.not_gt

/-- A reader that sees everything in what another one was shown reads what that one
reads. -/
theorem Sorted.read_shown {versions : List (Version κ ν)} (hsorted : Sorted versions)
    {bound bound' : ℕ} {skip skip' : ℕ → Bool}
    (hvisible : ∀ txid, visible bound skip txid → visible bound' skip' txid) (keep : κ → Bool)
    (key : κ) :
    read ((shown bound skip false versions).filter fun version => keep version.key) key bound'
        skip' =
      if keep key then read versions key bound skip else none := by
  have hstrict : StrictKeys ((shown bound skip false versions).filter fun version =>
      keep version.key) := (hsorted.shown_strictKeys bound skip).filter _
  rw [hstrict.read_eq_find? fun version hmem =>
      hvisible _ (mem_shown (List.mem_of_mem_filter hmem)).2,
    StrictKeys.find?_filter (hsorted.shown_strictKeys bound skip), hsorted.find?_shown]
  cases hread : read versions key bound skip with
  | none => simp
  | some found =>
      rw [Option.filter_some, (read_eq_some hread).2.1]

omit [LinearOrder κ] in
/-- Without bound and skipped writers everything is shown. -/
theorem shown_all (versions : List (Version κ ν)) :
    shown 0 (fun _ => false) true versions = versions := by
  simp [shown, visible]

omit [LinearOrder κ] in
/-- A change of the values alone can be made before or after reading. -/
theorem shown_map {f : Version κ ν → Version κ ν} (hkey : ∀ version, (f version).key = version.key)
    (htxid : ∀ version, (f version).txid = version.txid) (bound : ℕ) (skip : ℕ → Bool)
    (keepAll : Bool) (versions : List (Version κ ν)) :
    shown bound skip keepAll (versions.map f) = (shown bound skip keepAll versions).map f := by
  have hfilter : (versions.map f).filter (fun version => visible bound skip version.txid) =
      (versions.filter fun version => visible bound skip version.txid).map f := by
    rw [List.filter_map]
    congr 2
    funext version
    exact congrArg (visible bound skip) (htxid version)
  unfold shown
  dsimp only
  rw [hfilter]
  cases keepAll with
  | true => rfl
  | false =>
      apply Eq.symm
      apply List.map_destutter
      intro left _ right _
      rw [hkey, hkey]

omit [DecidableEq κ] in
theorem Sorted.map {f : Version κ ν → Version κ ν} {versions : List (Version κ ν)}
    (hsorted : Sorted versions) (hkey : ∀ version, (f version).key = version.key)
    (htxid : ∀ version, (f version).txid = version.txid) : Sorted (versions.map f) := by
  refine List.pairwise_map.mpr (hsorted.imp fun hprecedes => ?_)
  rw [Precedes, hkey, hkey, htxid, htxid]
  exact hprecedes

theorem Sorted.read_map {f : Version κ ν → Version κ ν} {versions : List (Version κ ν)}
    (hsorted : Sorted versions) (hkey : ∀ version, (f version).key = version.key)
    (htxid : ∀ version, (f version).txid = version.txid) (key : κ) (bound : ℕ)
    (skip : ℕ → Bool) :
    read (versions.map f) key bound skip = (read versions key bound skip).map f := by
  rw [(hsorted.map hkey htxid).read_eq_find?, hsorted.read_eq_find?, List.find?_map]
  congr 2
  funext version
  rw [Function.comp_apply, hkey, htxid]

end FirstPerKey

end KopiDb.Versions

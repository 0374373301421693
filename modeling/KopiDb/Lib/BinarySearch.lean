import Mathlib

/-!
# Binary search over an index range

The search asks a probe how the element at an index compares with the target:
`lt` when it lies before the target, `gt` when it lies after it.  A probe that
is ordered on the range sends the search to a hit whenever there is one, and
otherwise to the first index after the target.
-/

namespace KopiDb.BinarySearch

/-- A search stops on a matching index or on the place where one would be. -/
inductive Outcome where
  | hit (index : ℕ)
  | miss (left : ℕ)
  deriving DecidableEq, Repr

/-- At most `fuel` halvings of the half-open range from `left` to `right`. -/
def search (probe : ℕ → Ordering) : ℕ → ℕ → ℕ → Outcome
  | 0, left, _ => .miss left
  | fuel + 1, left, right =>
      if left < right then
        let mid := (left + right) / 2
        match probe mid with
        | .eq => .hit mid
        | .gt => search probe fuel left mid
        | .lt => search probe fuel (mid + 1) right
      else .miss left

/-- Binary search over the first `size` indices. -/
def binarySearch (probe : ℕ → Ordering) (size : ℕ) : Outcome :=
  search probe size 0 size

/-- Elements before the target come first, elements after it come last. -/
structure Ordered (probe : ℕ → Ordering) (size : ℕ) : Prop where
  lt_of_le : ∀ {i j}, i ≤ j → j < size → probe j = .lt → probe i = .lt
  gt_of_le : ∀ {i j}, i ≤ j → j < size → probe i = .gt → probe j = .gt

variable {probe : ℕ → Ordering} {size : ℕ}

private theorem search_hit {fuel left right index : ℕ} (hright : right ≤ size)
    (hsearch : search probe fuel left right = .hit index) :
    index < size ∧ probe index = .eq := by
  induction fuel generalizing left right with
  | zero => simp [search] at hsearch
  | succ fuel ih =>
      rw [search] at hsearch
      split_ifs at hsearch with hlt
      · have hmid : (left + right) / 2 < right := by omega
        dsimp only at hsearch
        split at hsearch
        next hprobe =>
          obtain rfl := Outcome.hit.inj hsearch
          exact ⟨by omega, hprobe⟩
        next hprobe => exact ih (by omega) hsearch
        next hprobe => exact ih hright hsearch

/-- The probe compares equal at a hit. -/
theorem binarySearch_hit {index : ℕ}
    (hsearch : binarySearch probe size = .hit index) :
    index < size ∧ probe index = .eq :=
  search_hit le_rfl hsearch

private theorem search_miss (hordered : Ordered probe size)
    {fuel left right stop : ℕ} (hle : left ≤ right) (hright : right ≤ size)
    (hfuel : right ≤ left + fuel)
    (hbelow : ∀ i, i < left → probe i = .lt)
    (habove : ∀ i, right ≤ i → i < size → probe i = .gt)
    (hsearch : search probe fuel left right = .miss stop) :
    stop ≤ size ∧ (∀ i, i < stop → probe i = .lt) ∧
      ∀ i, stop ≤ i → i < size → probe i = .gt := by
  induction fuel generalizing left right with
  | zero =>
      obtain rfl := Outcome.miss.inj hsearch
      exact ⟨by omega, hbelow, fun i hi => habove i (by omega)⟩
  | succ fuel ih =>
      rw [search] at hsearch
      split_ifs at hsearch with hlt
      · dsimp only at hsearch
        have hmid : (left + right) / 2 < right := by omega
        split at hsearch
        next hprobe => simp at hsearch
        next hprobe =>
          refine ih (by omega) (by omega) (by omega) hbelow ?_ hsearch
          intro i hi hsize
          exact hordered.gt_of_le hi hsize hprobe
        next hprobe =>
          refine ih (by omega) hright (by omega) ?_ habove hsearch
          intro i hi
          exact hordered.lt_of_le (by omega) (by omega) hprobe
      · obtain rfl := Outcome.miss.inj hsearch
        exact ⟨by omega, hbelow, fun i hi => habove i (by omega)⟩

/-- A miss splits the range: everything to its left lies before the target and
everything from it on lies after it. -/
theorem binarySearch_miss (hordered : Ordered probe size) {stop : ℕ}
    (hsearch : binarySearch probe size = .miss stop) :
    stop ≤ size ∧ (∀ i, i < stop → probe i = .lt) ∧
      ∀ i, stop ≤ i → i < size → probe i = .gt :=
  search_miss hordered (Nat.zero_le _) le_rfl (by omega) (by simp)
    (fun i hi hsize => absurd hsize (by omega)) hsearch

/-- An ordered probe finds a matching index whenever the range has one. -/
theorem exists_binarySearch_hit (hordered : Ordered probe size) {index : ℕ}
    (hindex : index < size) (hprobe : probe index = .eq) :
    ∃ found, binarySearch probe size = .hit found := by
  cases hsearch : binarySearch probe size with
  | hit found => exact ⟨found, rfl⟩
  | miss stop =>
      obtain ⟨-, hbelow, habove⟩ := binarySearch_miss hordered hsearch
      rcases Nat.lt_or_ge index stop with hlt | hge
      · rw [hbelow index hlt] at hprobe
        cases hprobe
      · rw [habove index hge hindex] at hprobe
        cases hprobe

/-! ## Partition points -/

/-- At most `fuel` halvings towards the first index of the half-open range from
`left` to `right` that is not `below`. -/
def bisect (below : ℕ → Bool) : ℕ → ℕ → ℕ → ℕ
  | 0, left, _ => left
  | fuel + 1, left, right =>
      if left < right then
        let mid := (left + right) / 2
        if below mid then bisect below fuel (mid + 1) right
        else bisect below fuel left mid
      else left

/-- The first index from `left` on that is not `below`, or `right`. -/
def partitionPoint (below : ℕ → Bool) (left right : ℕ) : ℕ :=
  bisect below (right - left) left right

private theorem bisect_spec {below : ℕ → Bool} {fuel left right low high : ℕ}
    (hdown : ∀ i j, low ≤ i → i ≤ j → j < high → below j → below i)
    (hle : left ≤ right) (hlow : low ≤ left) (hhigh : right ≤ high)
    (hfuel : right ≤ left + fuel)
    (hbelow : ∀ i, low ≤ i → i < left → below i)
    (habove : ∀ i, right ≤ i → i < high → below i = false) :
    low ≤ bisect below fuel left right ∧ bisect below fuel left right ≤ high ∧
      (∀ i, low ≤ i → i < bisect below fuel left right → below i) ∧
      ∀ i, bisect below fuel left right ≤ i → i < high → below i = false := by
  induction fuel generalizing left right with
  | zero => exact ⟨hlow, by simp only [bisect]; omega, hbelow,
      fun i hi => habove i (by simp only [bisect] at hi; omega)⟩
  | succ fuel ih =>
      rw [bisect]
      split_ifs with hlt
      · dsimp only
        have hmid : (left + right) / 2 < right := by omega
        split_ifs with hprobe
        · refine ih (by omega) (by omega) hhigh (by omega) ?_ habove
          intro i hi hstop
          exact hdown i _ hi (by omega) (by omega) hprobe
        · refine ih (by omega) hlow (by omega) (by omega) hbelow ?_
          intro i hi hstop
          by_contra hfalse
          exact hprobe (hdown _ i (by omega) hi hstop (by simpa using hfalse))
      · exact ⟨hlow, by omega, hbelow, fun i hi => habove i (by omega)⟩

/-- For a condition that holds on an initial part of the range, the partition
point is where it stops to hold. -/
theorem partitionPoint_spec {below : ℕ → Bool} {left right : ℕ} (hle : left ≤ right)
    (hdown : ∀ i j, left ≤ i → i ≤ j → j < right → below j → below i) :
    left ≤ partitionPoint below left right ∧
      partitionPoint below left right ≤ right ∧
      (∀ i, left ≤ i → i < partitionPoint below left right → below i) ∧
      ∀ i, partitionPoint below left right ≤ i → i < right → below i = false :=
  bisect_spec hdown hle le_rfl le_rfl (by omega)
    (fun i hi hlt => absurd hlt (by omega)) (fun i hi hlt => absurd hlt (by omega))

end KopiDb.BinarySearch

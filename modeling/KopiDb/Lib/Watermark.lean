import Mathlib

/-!
# Watermarks

A set of natural numbers that is closed downwards up to a mark, kept as the mark and
the ascending list of the numbers beyond it.  Adding a number moves the mark over
every gap that is closed.
-/

namespace KopiDb

/-- All numbers up to `mark` and those of `beyond`. -/
structure Watermark where
  mark : ℕ
  beyond : List ℕ
  ascending : (mark :: beyond).Pairwise fun left right => left < right
  deriving DecidableEq

namespace Watermark

/-- Only the numbers up to `mark`. -/
def upTo (mark : ℕ) : Watermark := ⟨mark, [], List.pairwise_singleton _ _⟩

/-- The numbers that are stored, in ascending order. -/
def ids (marked : Watermark) : List ℕ := marked.mark :: marked.beyond

/-- The set that a watermark stands for. -/
def Covers (marked : Watermark) (id : ℕ) : Prop := id ≤ marked.mark ∨ id ∈ marked.beyond

instance (marked : Watermark) (id : ℕ) : Decidable (marked.Covers id) :=
  inferInstanceAs (Decidable (_ ∨ _))

/-- Ordered insertion without repetition. -/
def insertId (id : ℕ) : List ℕ → List ℕ
  | [] => [id]
  | other :: rest =>
      if id < other then id :: other :: rest
      else if id = other then other :: rest
      else other :: insertId id rest

theorem mem_insertId {id other : ℕ} {ids : List ℕ} :
    other ∈ insertId id ids ↔ other = id ∨ other ∈ ids := by
  induction ids with
  | nil => simp [insertId]
  | cons head tail ih =>
      rw [insertId]
      split_ifs with hlt heq
      · simp
      · simp [heq]
      · rw [List.mem_cons, ih, List.mem_cons]
        tauto

private theorem insertId_ascending (id : ℕ) {ids : List ℕ}
    (hascending : ids.Pairwise fun left right => left < right) :
    (insertId id ids).Pairwise fun left right => left < right := by
  induction ids with
  | nil => exact List.pairwise_singleton _ _
  | cons head tail ih =>
      have hcons := List.pairwise_cons.mp hascending
      rw [insertId]
      split_ifs with hlt heq
      · refine List.pairwise_cons.mpr ⟨?_, hascending⟩
        intro other hmem
        rcases List.mem_cons.mp hmem with rfl | hmem
        · exact hlt
        · exact hlt.trans (hcons.1 other hmem)
      · exact hascending
      · refine List.pairwise_cons.mpr ⟨?_, ih hcons.2⟩
        intro other hmem
        rcases mem_insertId.mp hmem with rfl | hmem
        · exact lt_of_le_of_ne (not_lt.mp hlt) (Ne.symm heq)
        · exact hcons.1 other hmem

/-- Move the mark to the last number that follows without a gap. -/
def advance : ℕ → List ℕ → ℕ × List ℕ
  | mark, [] => (mark, [])
  | mark, next :: rest =>
      if next - mark = 1 then advance next rest else (mark, next :: rest)

private theorem advance_ascending {mark : ℕ} {ids : List ℕ}
    (hascending : (mark :: ids).Pairwise fun left right => left < right) :
    ((advance mark ids).1 :: (advance mark ids).2).Pairwise
      fun left right => left < right := by
  induction ids generalizing mark with
  | nil => exact hascending
  | cons next rest ih =>
      rw [advance]
      split_ifs
      · exact ih (List.pairwise_cons.mp hascending).2
      · exact hascending

private theorem le_advance {mark : ℕ} {ids : List ℕ}
    (hascending : (mark :: ids).Pairwise fun left right => left < right) :
    mark ≤ (advance mark ids).1 := by
  induction ids generalizing mark with
  | nil => exact le_rfl
  | cons next rest ih =>
      have hcons := List.pairwise_cons.mp hascending
      rw [advance]
      split_ifs
      · exact (hcons.1 next List.mem_cons_self).le.trans (ih hcons.2)
      · exact le_rfl

private theorem covers_advance {mark : ℕ} {ids : List ℕ}
    (hascending : (mark :: ids).Pairwise fun left right => left < right) (id : ℕ) :
    id ≤ (advance mark ids).1 ∨ id ∈ (advance mark ids).2 ↔ id ≤ mark ∨ id ∈ ids := by
  induction ids generalizing mark with
  | nil => rfl
  | cons next rest ih =>
      have hcons := List.pairwise_cons.mp hascending
      have hlt := hcons.1 next List.mem_cons_self
      rw [advance]
      split_ifs with hnext
      · have hstep : id ≤ next ↔ id ≤ mark ∨ id = next := by omega
        rw [ih hcons.2, List.mem_cons, hstep, or_assoc]
      · rfl

private theorem ascending_insertId {marked : Watermark} {id : ℕ} (hlt : marked.mark < id) :
    (marked.mark :: insertId id marked.beyond).Pairwise fun left right => left < right := by
  have hcons := List.pairwise_cons.mp marked.ascending
  refine List.pairwise_cons.mpr ⟨?_, insertId_ascending id hcons.2⟩
  intro other hmem
  rcases mem_insertId.mp hmem with rfl | hmem
  · exact hlt
  · exact hcons.1 other hmem

/-- Add a number; numbers up to the mark are there already. -/
def add (marked : Watermark) (id : ℕ) : Watermark :=
  if h : marked.mark < id then
    { mark := (advance marked.mark (insertId id marked.beyond)).1
      beyond := (advance marked.mark (insertId id marked.beyond)).2
      ascending := advance_ascending (ascending_insertId h) }
  else marked

/-- Adding a number adds that number and no other. -/
theorem covers_add (marked : Watermark) (id other : ℕ) :
    (marked.add id).Covers other ↔ marked.Covers other ∨ other = id := by
  unfold add
  split_ifs with hlt
  · have hadvance := covers_advance (ascending_insertId hlt) other
    rw [mem_insertId] at hadvance
    unfold Covers
    rw [hadvance]
    tauto
  · refine ⟨Or.inl, ?_⟩
    rintro (hcovers | rfl)
    · exact hcovers
    · exact Or.inl (not_lt.mp hlt)

/-- The mark never moves down. -/
theorem mark_le_add (marked : Watermark) (id : ℕ) : marked.mark ≤ (marked.add id).mark := by
  unfold add
  split_ifs with hlt
  · exact le_advance (ascending_insertId hlt)
  · exact le_rfl

/-! ## Packed watermarks -/

/-- The number behind the mark is missing. -/
def Packed (marked : Watermark) : Prop := marked.mark + 1 ∉ marked.beyond

theorem packed_upTo (mark : ℕ) : (upTo mark).Packed := List.not_mem_nil

private theorem packed_advance {mark : ℕ} {ids : List ℕ}
    (hascending : (mark :: ids).Pairwise fun left right => left < right) :
    (advance mark ids).1 + 1 ∉ (advance mark ids).2 := by
  induction ids generalizing mark with
  | nil => exact List.not_mem_nil
  | cons next rest ih =>
      have hcons := List.pairwise_cons.mp hascending
      have hlt := hcons.1 next List.mem_cons_self
      rw [advance]
      split_ifs with hnext
      · exact ih hcons.2
      · intro hmem
        rcases List.mem_cons.mp hmem with hhead | htail
        · omega
        · have hbehind := (List.pairwise_cons.mp hcons.2).1 _ htail
          dsimp only at hbehind
          omega

theorem Packed.add {marked : Watermark} (hpacked : marked.Packed) (id : ℕ) :
    (marked.add id).Packed := by
  unfold Watermark.add
  split_ifs with hlt
  · exact packed_advance (ascending_insertId hlt)
  · exact hpacked

section Packed

variable {marked left right : Watermark}

/-- The mark is the last number of the first gapless run. -/
theorem Packed.le_mark (hpacked : marked.Packed) {id : ℕ}
    (hcovers : ∀ other ≤ id, marked.Covers other) : id ≤ marked.mark := by
  by_contra hgt
  rcases hcovers (marked.mark + 1) (not_le.mp hgt) with hle | hmem
  · omega
  · exact hpacked hmem

theorem mem_beyond_iff {id : ℕ} :
    id ∈ marked.beyond ↔ marked.Covers id ∧ marked.mark < id := by
  constructor
  · intro hmem
    exact ⟨Or.inr hmem, (List.pairwise_cons.mp marked.ascending).1 id hmem⟩
  · rintro ⟨hcovers, hlt⟩
    exact hcovers.resolve_left (not_le.mpr hlt)

/-- A packed watermark is known by the numbers that it covers. -/
theorem Packed.ext (hleft : left.Packed) (hright : right.Packed)
    (hsame : ∀ id, left.Covers id ↔ right.Covers id) : left = right := by
  have hmark : left.mark = right.mark := by
    apply le_antisymm
    · exact hright.le_mark fun other hle => (hsame other).mp (Or.inl hle)
    · exact hleft.le_mark fun other hle => (hsame other).mpr (Or.inl hle)
  have hascending (marked : Watermark) := (List.pairwise_cons.mp marked.ascending).2
  have hbeyond : left.beyond = right.beyond := by
    apply List.Pairwise.eq_of_mem_iff (hascending left) (hascending right)
    intro id
    rw [mem_beyond_iff, mem_beyond_iff, hsame, hmark]
  cases left
  cases right
  congr

end Packed

/-! ## Runs without a gap -/

/-- Behind every number there is one that a finite set lacks. -/
theorem exists_gap (ids : Finset ℕ) (first : ℕ) : ∃ last, first ≤ last ∧ last + 1 ∉ ids := by
  refine ⟨max first (ids.sup id), le_max_left _ _, fun hmem => ?_⟩
  have hle : max first (ids.sup id) + 1 ≤ ids.sup id := Finset.le_sup (f := id) hmem
  exact absurd ((le_max_right first _).trans_lt (Nat.lt_of_succ_le hle)) (lt_irrefl _)

/-- The last number of the gapless run of a set that starts at `first`. -/
def lastOfRun (ids : Finset ℕ) (first : ℕ) : ℕ := Nat.find (exists_gap ids first)

/-- The run that starts at `first` is replaced by its last number. -/
def compress (ids : Finset ℕ) (first : ℕ) : Finset ℕ :=
  ids.filter fun id => lastOfRun ids first ≤ id

section Runs

variable {before after : Watermark} {settled : Finset ℕ}

/-- What a packed watermark is after more numbers were added: the numbers above the old mark
join the stored ones, and the first run is compressed. -/
theorem Packed.compressed (hpacked : after.Packed)
    (hcovers : ∀ id, after.Covers id ↔ before.Covers id ∨ id ∈ settled) :
    let stored := before.ids.toFinset ∪ settled.filter fun id => before.mark < id
    after.mark = lastOfRun stored before.mark ∧
      after.ids.toFinset = compress stored before.mark := by
  intro stored
  have hle : before.mark ≤ after.mark :=
    hpacked.le_mark fun other hother => (hcovers other).mpr (Or.inl (Or.inl hother))
  have hstored : ∀ id, before.mark ≤ id → (id ∈ stored ↔ after.Covers id) := by
    intro id hid
    have hmark : id ≤ before.mark ↔ id = before.mark := ⟨fun h => le_antisymm h hid, Eq.le⟩
    rw [hcovers, Covers, hmark]
    simp only [stored, ids, Finset.mem_union, List.mem_toFinset, List.mem_cons,
      Finset.mem_filter]
    constructor
    · rintro (hold | ⟨hnew, -⟩)
      · exact Or.inl hold
      · exact Or.inr hnew
    · rintro (hold | hnew)
      · exact Or.inl hold
      · rcases hid.eq_or_lt with heq | hlt
        · exact Or.inl (Or.inl heq.symm)
        · exact Or.inr ⟨hnew, hlt⟩
  have hlast : lastOfRun stored before.mark = after.mark := by
    rw [lastOfRun, Nat.find_eq_iff]
    constructor
    · refine ⟨hle, ?_⟩
      rw [hstored _ (hle.trans (Nat.le_succ _))]
      rintro (hbelow | hmem)
      · omega
      · exact hpacked hmem
    · rintro id hlt ⟨hid, hgap⟩
      exact hgap ((hstored _ (hid.trans (Nat.le_succ _))).mpr (Or.inl hlt))
  refine ⟨hlast.symm, ?_⟩
  ext id
  rw [compress, hlast, Finset.mem_filter, List.mem_toFinset, ids, List.mem_cons, mem_beyond_iff]
  constructor
  · rintro (rfl | ⟨hid, hlt⟩)
    · exact ⟨(hstored _ hle).mpr (Or.inl le_rfl), le_rfl⟩
    · exact ⟨(hstored _ (hle.trans hlt.le)).mpr hid, hlt.le⟩
  · rintro ⟨hmem, hid⟩
    rcases hid.eq_or_lt with heq | hlt
    · exact Or.inl heq.symm
    · exact Or.inr ⟨(hstored _ (hle.trans hid)).mp hmem, hlt⟩

end Runs

end Watermark

end KopiDb

import KopiDb.Core
import KopiDb.Lib.Cursor

/-!
# Merging two iterators

`TwoMergeIterator` merges two iterators in storage order; on equal keys and
numbers the first one goes first.  It yields the merge of what the two yield,
filtered by the bound of the reader.
-/

namespace KopiDb

/-- `TwoMergeIterator` over two iterators. -/
structure TwoMergeIterator (ι ι' : Type) where
  itA : ι
  itB : ι'
  chooseA : Bool
  maxTrancId : ℕ
  keepAllVersions : Bool

namespace TwoMergeIterator

variable {ι ι' : Type} [Cursor ι Entry] [Cursor ι' Entry]

/-- `choose_it_a` -/
def chooseItA (itA : ι) (itB : ι') : Bool :=
  match Cursor.current? itA, Cursor.current? itB with
  | none, _ => false
  | some _, none => true
  | some entryA, some entryB =>
      if entryA.key ≠ entryB.key then decide (entryA.key < entryB.key)
      else decide (entryA.txid ≥ entryB.txid)

/-- The loop of `skip_by_tranc_id` for one side. -/
def skipAbove {ι : Type} [Cursor ι Entry] (maxTrancId : ℕ) (it : ι) : ι :=
  if maxTrancId = 0 then it
  else Cursor.skipWhile (fun entry => decide (entry.txid > maxTrancId)) it

/-- `skip_by_tranc_id` on both sides and the choice after it. -/
def settle (itA : ι) (itB : ι') (maxTrancId : ℕ) (keepAllVersions : Bool) :
    TwoMergeIterator ι ι' :=
  let itA := skipAbove maxTrancId itA
  let itB := skipAbove maxTrancId itB
  ⟨itA, itB, chooseItA itA itB, maxTrancId, keepAllVersions⟩

/-- The constructor. -/
def new (itA : ι) (itB : ι') (maxTrancId : ℕ) (keepAllVersions : Bool) :
    TwoMergeIterator ι ι' :=
  settle itA itB maxTrancId keepAllVersions

def current? (it : TwoMergeIterator ι ι') : Option Entry :=
  if it.chooseA then Cursor.current? it.itA else Cursor.current? it.itB

/-- `operator++`: with `keep_all_versions_` only the chosen side moves, otherwise
both sides leave the key. -/
def next (it : TwoMergeIterator ι ι') : TwoMergeIterator ι ι' :=
  match it.current? with
  | none => it
  | some entry =>
      if it.keepAllVersions then
        if it.chooseA then
          settle (Cursor.next it.itA) it.itB it.maxTrancId it.keepAllVersions
        else settle it.itA (Cursor.next it.itB) it.maxTrancId it.keepAllVersions
      else
        settle (Cursor.skipWhile (fun other => decide (other.key = entry.key)) it.itA)
          (Cursor.skipWhile (fun other => decide (other.key = entry.key)) it.itB)
          it.maxTrancId it.keepAllVersions

private theorem remaining_skipAbove_le {ι : Type} [Cursor ι Entry] (maxTrancId : ℕ)
    (it : ι) : Cursor.remaining (skipAbove maxTrancId it) ≤ Cursor.remaining it := by
  unfold skipAbove
  split_ifs
  · exact le_rfl
  · exact Cursor.remaining_skipWhile_le _ _

instance : Cursor (TwoMergeIterator ι ι') Entry where
  current? := current?
  next := next
  remaining it := Cursor.remaining it.itA + Cursor.remaining it.itB
  remaining_next := by
    intro it record hcurrent
    have hsettle : ∀ (itA : ι) (itB : ι'),
        Cursor.remaining (settle itA itB it.maxTrancId it.keepAllVersions).itA +
          Cursor.remaining (settle itA itB it.maxTrancId it.keepAllVersions).itB ≤
        Cursor.remaining itA + Cursor.remaining itB := fun itA itB =>
      Nat.add_le_add (remaining_skipAbove_le _ itA) (remaining_skipAbove_le _ itB)
    have hkeyA := Cursor.remaining_skipWhile_le
      (fun other : Entry => decide (other.key = record.key)) it.itA
    have hkeyB := Cursor.remaining_skipWhile_le
      (fun other : Entry => decide (other.key = record.key)) it.itB
    rw [next, hcurrent]
    dsimp only
    unfold current? at hcurrent
    cases hchoose : it.chooseA with
    | true =>
        rw [hchoose, if_pos rfl] at hcurrent
        have hnext := Cursor.remaining_next hcurrent
        have hskip := Cursor.remaining_skipWhile_lt
          (fun other : Entry => decide (other.key = record.key)) hcurrent (by simp)
        rw [if_pos rfl]
        split_ifs
        · exact (hsettle _ _).trans_lt (by omega)
        · exact (hsettle _ _).trans_lt (by omega)
    | false =>
        rw [hchoose, if_neg Bool.false_ne_true] at hcurrent
        have hnext := Cursor.remaining_next hcurrent
        have hskip := Cursor.remaining_skipWhile_lt
          (fun other : Entry => decide (other.key = record.key)) hcurrent (by simp)
        rw [if_neg Bool.false_ne_true]
        split_ifs
        · exact (hsettle _ _).trans_lt (by omega)
        · exact (hsettle _ _).trans_lt (by omega)

private theorem toList_skipAbove {ι : Type} [Cursor ι Entry] (maxTrancId : ℕ) (it : ι) :
    Cursor.toList (skipAbove maxTrancId it) =
      (Cursor.toList it).dropWhile fun entry =>
        !Versions.visible maxTrancId (fun _ => false) entry.txid := by
  unfold skipAbove
  split_ifs with hzero
  · subst hzero
    cases Cursor.toList it <;> simp [Versions.visible]
  · rw [Cursor.toList_skipWhile]
    congr 1
    funext entry
    have hbound : (maxTrancId == 0) = false := beq_eq_false_iff_ne.mpr hzero
    rw [Bool.eq_iff_iff]
    simp [Versions.visible, hbound]

/-- Which side is chosen, and what it stands on, is decided by the merge. -/
private theorem chooseItA_eq {itA : ι} {itB : ι'} {entry : Entry} {rest : List Entry}
    (hmerge : Versions.merge (Cursor.toList itA) (Cursor.toList itB) = entry :: rest) :
    (chooseItA itA itB = true ∧ Cursor.current? itA = some entry ∧
        rest = Versions.merge (Cursor.toList (Cursor.next itA)) (Cursor.toList itB)) ∨
      (chooseItA itA itB = false ∧ Cursor.current? itB = some entry ∧
        rest = Versions.merge (Cursor.toList itA) (Cursor.toList (Cursor.next itB))) := by
  cases hA : Cursor.current? itA with
  | none =>
      have hnil := Cursor.toList_of_none hA
      rw [hnil, Versions.merge_nil_left] at hmerge
      obtain ⟨hB, hrest⟩ := Cursor.toList_eq_cons hmerge
      refine Or.inr ⟨by simp [chooseItA, hA], hB, ?_⟩
      rw [hnil, Versions.merge_nil_left, hrest]
  | some entryA =>
      cases hB : Cursor.current? itB with
      | none =>
          have hnil := Cursor.toList_of_none hB
          rw [hnil, Versions.merge_nil_right] at hmerge
          obtain ⟨hentry, hrest⟩ := Cursor.toList_eq_cons hmerge
          refine Or.inl ⟨by simp [chooseItA, hA, hB], by rw [← hA, hentry], ?_⟩
          rw [hnil, Versions.merge_nil_right, hrest]
      | some entryB =>
          have hchoose : chooseItA itA itB =
              decide (Versions.Precedes entryA entryB) := by
            unfold chooseItA Versions.Precedes
            rw [hA, hB]
            dsimp only
            by_cases hkey : entryA.key = entryB.key
            · simp [hkey]
            · simp [hkey]
          rw [Cursor.toList_of_some hA, Cursor.toList_of_some hB,
            Versions.merge_cons_cons] at hmerge
          rw [hchoose]
          split_ifs at hmerge with hprec
          · obtain ⟨rfl, rfl⟩ := List.cons.inj hmerge
            refine Or.inl ⟨decide_eq_true hprec, rfl, ?_⟩
            rw [Cursor.toList_of_some hB]
          · obtain ⟨rfl, rfl⟩ := List.cons.inj hmerge
            refine Or.inr ⟨decide_eq_false hprec, rfl, ?_⟩
            rw [Cursor.toList_of_some hA]

/-- In a merge, leaving a key on both sides leaves it in the merge. -/
private theorem merge_dropWhile {left right rest : List Entry} {entry : Entry}
    (hleft : Versions.Sorted left) (hright : Versions.Sorted right)
    (hmerge : Versions.merge left right = entry :: rest) :
    Versions.merge (left.dropWhile fun other => other.key = entry.key)
        (right.dropWhile fun other => other.key = entry.key) =
      rest.dropWhile fun other => other.key = entry.key := by
  have hsorted := hleft.merge hright
  have hsame := Versions.merge_sameVersions hleft hright
  rw [hmerge] at hsorted hsame
  have hleast : ∀ other ∈ left ++ right, entry.key ≤ other.key := by
    intro other hmem
    rcases List.mem_cons.mp ((hsame.mem_iff other).mpr hmem) with rfl | hmem
    · exact le_rfl
    · exact hsorted.key_le hmem
  rw [hleft.dropWhile_least fun other hmem => hleast other (List.mem_append_left _ hmem),
    hright.dropWhile_least fun other hmem => hleast other (List.mem_append_right _ hmem),
    ← Versions.merge_filter hleft hright, hmerge, hsorted.dropWhile_key,
    List.filter_cons_of_neg (by simp)]

private theorem toList_settle {itA : ι} {itB : ι'} {maxTrancId : ℕ}
    {keepAllVersions : Bool} (hA : Versions.Sorted (Cursor.toList itA))
    (hB : Versions.Sorted (Cursor.toList itB)) :
    Cursor.toList (settle itA itB maxTrancId keepAllVersions) =
      Versions.shown maxTrancId (fun _ => false) keepAllVersions
        (Versions.merge (Cursor.toList itA) (Cursor.toList itB)) := by
  induction hlen : Cursor.remaining itA + Cursor.remaining itB
    using Nat.strong_induction_on generalizing itA itB with
  | _ length ih =>
      have hskipA := toList_skipAbove maxTrancId itA
      have hskipB := toList_skipAbove maxTrancId itB
      have hlenA := remaining_skipAbove_le maxTrancId itA
      have hlenB := remaining_skipAbove_le maxTrancId itB
      rw [← Versions.shown_merge_dropWhile _ _ _ hA hB, ← hskipA, ← hskipB]
      have hsortedA : Versions.Sorted (Cursor.toList (skipAbove maxTrancId itA)) := by
        rw [hskipA]
        exact hA.sublist (List.dropWhile_sublist _)
      have hsortedB : Versions.Sorted (Cursor.toList (skipAbove maxTrancId itB)) := by
        rw [hskipB]
        exact hB.sublist (List.dropWhile_sublist _)
      cases hmerge : Versions.merge (Cursor.toList (skipAbove maxTrancId itA))
          (Cursor.toList (skipAbove maxTrancId itB)) with
      | nil =>
          have hnil := Versions.merge_eq_nil hmerge
          rw [Cursor.toList_eq_nil_iff, Cursor.toList_eq_nil_iff] at hnil
          rw [Versions.shown_nil]
          apply Cursor.toList_of_none
          change (settle itA itB maxTrancId keepAllVersions).current? = none
          unfold settle current?
          split_ifs
          · exact hnil.1
          · exact hnil.2
      | cons entry rest =>
          have hsorted := hsortedA.merge hsortedB
          rw [hmerge] at hsorted
          have hchoice := chooseItA_eq hmerge
          have hvisible : Versions.visible maxTrancId (fun _ => false) entry.txid := by
            rcases hchoice with ⟨-, hcurrent, -⟩ | ⟨-, hcurrent, -⟩
            · rw [Cursor.current?_eq_head?, hskipA] at hcurrent
              exact Versions.visible_of_head? hcurrent
            · rw [Cursor.current?_eq_head?, hskipB] at hcurrent
              exact Versions.visible_of_head? hcurrent
          have hsettle : settle itA itB maxTrancId keepAllVersions =
              ⟨skipAbove maxTrancId itA, skipAbove maxTrancId itB,
                chooseItA (skipAbove maxTrancId itA) (skipAbove maxTrancId itB),
                maxTrancId, keepAllVersions⟩ := rfl
          rw [hsettle, Versions.shown_cons hsorted hvisible]
          generalize skipAbove maxTrancId itA = stepA at *
          generalize skipAbove maxTrancId itB = stepB at *
          have hcurrent : current? ⟨stepA, stepB, chooseItA stepA stepB, maxTrancId,
              keepAllVersions⟩ = some entry := by
            rcases hchoice with ⟨hchoose, hcurrent, -⟩ | ⟨hchoose, hcurrent, -⟩
            · rw [current?, hchoose, if_pos rfl, hcurrent]
            · rw [current?, hchoose, if_neg Bool.false_ne_true, hcurrent]
          rw [Cursor.toList_of_some hcurrent]
          congr 1
          change Cursor.toList (next _) = _
          rw [next, hcurrent]
          dsimp only
          cases keepAllVersions with
          | true =>
              rw [if_pos rfl, if_pos rfl]
              rcases hchoice with ⟨hchoose, hhead, rfl⟩ | ⟨hchoose, hhead, rfl⟩
              · have hless := Cursor.remaining_next hhead
                rw [hchoose, if_pos rfl]
                have hlist := Cursor.toList_of_some hhead
                rw [hlist] at hsortedA
                exact ih _ (by omega) hsortedA.tail hsortedB rfl
              · have hless := Cursor.remaining_next hhead
                rw [hchoose, if_neg Bool.false_ne_true]
                have hlist := Cursor.toList_of_some hhead
                rw [hlist] at hsortedB
                exact ih _ (by omega) hsortedA hsortedB.tail rfl
          | false =>
              rw [if_neg Bool.false_ne_true, if_neg Bool.false_ne_true,
                ← merge_dropWhile hsortedA hsortedB hmerge, ← Cursor.toList_skipWhile,
                ← Cursor.toList_skipWhile]
              have hleA := Cursor.remaining_skipWhile_le
                (fun other : Entry => decide (other.key = entry.key)) stepA
              have hleB := Cursor.remaining_skipWhile_le
                (fun other : Entry => decide (other.key = entry.key)) stepB
              have hless : Cursor.remaining (Cursor.skipWhile
                    (fun other : Entry => decide (other.key = entry.key)) stepA) +
                  Cursor.remaining (Cursor.skipWhile
                    (fun other : Entry => decide (other.key = entry.key)) stepB) <
                  length := by
                rcases hchoice with ⟨-, hhead, -⟩ | ⟨-, hhead, -⟩
                · have := Cursor.remaining_skipWhile_lt
                    (fun other : Entry => decide (other.key = entry.key)) hhead (by simp)
                  omega
                · have := Cursor.remaining_skipWhile_lt
                    (fun other : Entry => decide (other.key = entry.key)) hhead (by simp)
                  omega
              refine ih _ hless ?_ ?_ rfl
              · rw [Cursor.toList_skipWhile]
                exact hsortedA.sublist (List.dropWhile_sublist _)
              · rw [Cursor.toList_skipWhile]
                exact hsortedB.sublist (List.dropWhile_sublist _)

/-- Two sorted iterators are merged, cut to the bound, and without
`keep_all_versions_` reduced to the newest version of every key. -/
theorem toList_new {itA : ι} {itB : ι'} (hA : Versions.Sorted (Cursor.toList itA))
    (hB : Versions.Sorted (Cursor.toList itB)) (maxTrancId : ℕ) (keepAllVersions : Bool) :
    Cursor.toList (new itA itB maxTrancId keepAllVersions) =
      Versions.shown maxTrancId (fun _ => false) keepAllVersions
        (Versions.merge (Cursor.toList itA) (Cursor.toList itB)) :=
  toList_settle hA hB

end TwoMergeIterator

end KopiDb

import Mathlib.Data.Rat.Lemmas
import KopiDb.Redis.KeyIsolation
import KopiDb.Redis.Ranges
import KopiDb.Redis.SortedSets

/-!
# Ranks and the order of scores

`zrange` lists the members in the byte order of their padded scores.  `zrank` counts the
records in front of the score of a member, and those are records of all kinds: the prefix of
the set is also that of its members, which come first.
-/

namespace KopiDb.Redis

/-! ## Decimal numbers -/

def digitsValue (digits : Bytes) : Option ℕ :=
  if digits ≠ [] ∧ digits.all isDigit then some (parseDecimal digits) else none

/-- The number that digits with or without a point stand for. -/
def magnitude (text : Bytes) : Option ℚ :=
  match text.dropWhile (· ≠ 46) with
  | [] => (digitsValue text).map Nat.cast
  | _ :: fraction =>
      match digitsValue (text.takeWhile (· ≠ 46)), digitsValue fraction with
      | some whole, some part => some (whole + part / 10 ^ fraction.length)
      | _, _ => none

/-- The number that a score stands for. -/
def decimalValue (text : Bytes) : Option ℚ :=
  if text.head? = some 45 then (magnitude text.tail).map fun value => -value else magnitude text

theorem parseDecimal_zero_cons (digits : Bytes) :
    parseDecimal (48 :: digits) = parseDecimal digits := rfl

theorem digitsValue_zero_cons {digits : Bytes} {value : ℕ} (hvalue : digitsValue digits = some value) :
    digitsValue (48 :: digits) = some value := by
  unfold digitsValue at hvalue ⊢
  split_ifs at hvalue with hdigits
  have hall : (48 :: digits).all isDigit = true := by
    rw [List.all_cons, hdigits.2]
    rfl
  rw [if_pos ⟨List.cons_ne_nil _ _, hall⟩, parseDecimal_zero_cons]
  exact hvalue

theorem magnitude_zero_cons {text : Bytes} {value : ℚ} (hvalue : magnitude text = some value) :
    magnitude (48 :: text) = some value := by
  unfold magnitude at hvalue ⊢
  rw [List.dropWhile_cons_of_pos (by decide), List.takeWhile_cons_of_pos (by decide)]
  cases hpoint : text.dropWhile (· ≠ 46) with
  | nil =>
      rw [hpoint] at hvalue
      obtain ⟨whole, hwhole, rfl⟩ := Option.map_eq_some_iff.mp hvalue
      dsimp only
      rw [digitsValue_zero_cons hwhole]
      rfl
  | cons point fraction =>
      rw [hpoint] at hvalue
      dsimp only at hvalue ⊢
      cases hwhole : digitsValue (text.takeWhile (· ≠ 46)) with
      | none =>
          rw [hwhole] at hvalue
          cases hvalue
      | some whole =>
          rw [hwhole] at hvalue
          rw [digitsValue_zero_cons hwhole]
          exact hvalue

theorem magnitude_zeros {text : Bytes} {value : ℚ} (hvalue : magnitude text = some value)
    (count : ℕ) : magnitude (List.replicate count 48 ++ text) = some value := by
  induction count with
  | zero => exact hvalue
  | succ count ih => exact magnitude_zero_cons ih

/-- A sign is the first character, if there is one. -/
theorem not_mem_sign {text : Bytes} {value : ℚ} (hvalue : magnitude text = some value) :
    45 ∉ text := by
  have hdigits : ∀ {digits : Bytes} {number}, digitsValue digits = some number →
      45 ∉ digits := by
    intro digits number hnumber hmem
    unfold digitsValue at hnumber
    split_ifs at hnumber with hall
    have hdigit := List.all_eq_true.mp hall.2 45 hmem
    revert hdigit
    decide
  unfold magnitude at hvalue
  cases hpoint : text.dropWhile (· ≠ 46) with
  | nil =>
      rw [hpoint] at hvalue
      obtain ⟨whole, hwhole, -⟩ := Option.map_eq_some_iff.mp hvalue
      exact hdigits hwhole
  | cons point fraction =>
      rw [hpoint] at hvalue
      dsimp only at hvalue
      have hfirst : point = 46 := by
        have hnot := List.head?_dropWhile_not (fun char : Fin 256 => decide (char ≠ 46)) text
        rw [hpoint] at hnot
        simpa using hnot
      cases hwhole : digitsValue (text.takeWhile (· ≠ 46)) with
      | none =>
          rw [hwhole] at hvalue
          cases hvalue
      | some whole =>
          cases hpart : digitsValue fraction with
          | none =>
              rw [hwhole, hpart] at hvalue
              cases hvalue
          | some part =>
              rw [← List.takeWhile_append_dropWhile (p := (· ≠ 46)) (l := text), hpoint,
                List.mem_append, List.mem_cons]
              rintro (hmem | hmem | hmem)
              · exact hdigits hwhole hmem
              · rw [hfirst] at hmem
                revert hmem
                decide
              · exact hdigits hpart hmem

private theorem decimalValue_zeros {score : Bytes} {value value' : ℚ} {count : ℕ}
    (hvalue : decimalValue (List.replicate count 48 ++ score) = some value)
    (hvalue' : decimalValue score = some value') : value = value' := by
  cases count with
  | zero => exact Option.some.inj (hvalue.symm.trans hvalue')
  | succ count =>
      have hmagnitude : magnitude (List.replicate (count + 1) 48 ++ score) = some value := hvalue
      have hsign : 45 ∉ score := fun hmem =>
        not_mem_sign hmagnitude (List.mem_append_right _ hmem)
      have hunsigned : ¬score.head? = some 45 := fun hhead =>
        hsign (List.mem_of_mem_head? hhead)
      rw [decimalValue, if_neg hunsigned] at hvalue'
      rw [magnitude_zeros hvalue'] at hmagnitude
      exact (Option.some.inj hmagnitude).symm

/-- Scores with the same padded text are the same number. -/
theorem value_eq_of_formattedScore {score score' : Bytes} {value value' : ℚ}
    (hvalue : decimalValue score = some value) (hvalue' : decimalValue score' = some value')
    (heq : formattedScore score = formattedScore score') : value = value' := by
  have hzeros : ∀ {left right : Bytes} {count count' : ℕ}, count ≤ count' →
      List.replicate count (48 : Fin 256) ++ left = List.replicate count' 48 ++ right →
        left = List.replicate (count' - count) 48 ++ right := by
    intro left right count count' hle heq
    rw [← Nat.add_sub_of_le hle, List.replicate_add, List.append_assoc] at heq
    exact List.append_cancel_left heq
  rcases le_total (redisSortedSetScoreLen - score.length)
    (redisSortedSetScoreLen - score'.length) with hle | hle
  · rw [hzeros hle heq] at hvalue
    exact decimalValue_zeros hvalue hvalue'
  · rw [hzeros hle heq.symm] at hvalue'
    exact (decimalValue_zeros hvalue' hvalue).symm

/-! ## The records of a sorted set whose members are added once -/

/-- Scores, each with its member: decimal numbers that differ, and members that differ. -/
structure DistinctScores (pairs : List (Bytes × Bytes)) : Prop where
  decimal : ∀ pair ∈ pairs, (decimalValue pair.1).isSome
  apart : (pairs.map fun pair => decimalValue pair.1).Nodup
  once : (pairs.map Prod.snd).Nodup

namespace DistinctScores

variable {pairs rest : List (Bytes × Bytes)}

theorem left (hdistinct : DistinctScores (pairs ++ rest)) : DistinctScores pairs where
  decimal := fun pair hmem => hdistinct.decimal pair (List.mem_append_left _ hmem)
  apart := by
    have hapart := hdistinct.apart
    rw [List.map_append] at hapart
    exact hapart.of_append_left
  once := by
    have honce := hdistinct.once
    rw [List.map_append] at honce
    exact honce.of_append_left

theorem score_ne (hdistinct : DistinctScores pairs) {pair : Bytes × Bytes} (hmem : pair ∈ pairs) :
    pair.1 ≠ [] := by
  intro hempty
  have hdecimal := hdistinct.decimal pair hmem
  rw [hempty] at hdecimal
  revert hdecimal
  decide

theorem eq_of_member (hdistinct : DistinctScores pairs) {pair pair' : Bytes × Bytes}
    (hmem : pair ∈ pairs) (hmem' : pair' ∈ pairs) (heq : pair.2 = pair'.2) : pair = pair' :=
  List.inj_on_of_nodup_map hdistinct.once hmem hmem' heq

theorem eq_of_score (hdistinct : DistinctScores pairs) {pair pair' : Bytes × Bytes}
    (hmem : pair ∈ pairs) (hmem' : pair' ∈ pairs)
    (heq : formattedScore pair.1 = formattedScore pair'.1) : pair = pair' := by
  obtain ⟨value, hvalue⟩ := Option.isSome_iff_exists.mp (hdistinct.decimal pair hmem)
  obtain ⟨value', hvalue'⟩ := Option.isSome_iff_exists.mp (hdistinct.decimal pair' hmem')
  apply List.inj_on_of_nodup_map hdistinct.apart hmem hmem'
  rw [hvalue, hvalue', value_eq_of_formattedScore hvalue hvalue' heq]

end DistinctScores

/-- The records of one sorted set, without an expiry time.  A member without characters has
no record under its score: a value without characters is a deletion. -/
structure HoldsZset (key : Bytes) (store : Store) (pairs : List (Bytes × Bytes)) : Prop where
  expire : store.get (getExplireKey key) = none
  members : ∀ elem score, store.get (getZsetKeyElem key elem) = some score ↔ (score, elem) ∈ pairs
  index : ∀ slot elem, store.get (getZsetScorePreffix key ++ slot) = some elem ↔
    elem ≠ [] ∧ ∃ score, (score, elem) ∈ pairs ∧ formattedScore score = slot
  rest : ∀ rest value, store.get (getZsetKeyPreffix key ++ rest) = some value →
    (∃ elem, rest = ascii "ELEM_" ++ elem) ∨ ∃ slot, rest = ascii "SCORE_" ++ slot

theorem Store.get_putBatch_none {store : Store} {kvs : List (Bytes × Bytes)} {key : Bytes}
    (hkey : store.get key = none) (hempty : ∀ kv ∈ kvs, kv.1 = key → kv.2 = []) :
    (store.putBatch kvs).get key = none := by
  induction kvs generalizing store with
  | nil => exact hkey
  | cons kv rest ih =>
      obtain ⟨hhead, htail⟩ := List.forall_mem_cons.mp hempty
      apply ih _ htail
      rw [Store.get_put]
      split_ifs with hsame hvalue
      · rfl
      · exact absurd (hhead hsame.symm) hvalue
      · exact hkey

section Keys

variable (key : Bytes)

theorem getZsetKeyElem_eq_iff {elem elem' : Bytes} :
    getZsetKeyElem key elem = getZsetKeyElem key elem' ↔ elem = elem' :=
  List.append_right_inj _

theorem getZsetKeyElem_ne_slot (elem slot : Bytes) :
    getZsetKeyElem key elem ≠ getZsetScorePreffix key ++ slot := by
  rw [getZsetKeyElem_preffix, getZsetScorePreffix_eq, List.append_assoc, Ne,
    List.append_right_inj]
  simp [ascii]

theorem getZsetKeyPreffix_ne_key (rest : Bytes) : key ≠ getZsetKeyPreffix key ++ rest :=
  ne_of_length_lt (length_getZsetKeyPreffix key rest)

end Keys

/-- The records that `zadd` writes for members that are not there. -/
def zsetBatch (key : Bytes) (pairs : List (Bytes × Bytes)) : List (Bytes × Bytes) :=
  (key, getZsetKeyPreffix key) :: pairs.flatMap fun pair =>
    [(getZsetKeySocre key pair.1, pair.2), (getZsetKeyElem key pair.2, pair.1)]

theorem mem_zsetBatch {key : Bytes} {pairs : List (Bytes × Bytes)} {kv : Bytes × Bytes} :
    kv ∈ zsetBatch key pairs ↔ kv = (key, getZsetKeyPreffix key) ∨ ∃ pair ∈ pairs,
      kv = (getZsetKeySocre key pair.1, pair.2) ∨ kv = (getZsetKeyElem key pair.2, pair.1) := by
  simp only [zsetBatch, List.mem_cons, List.mem_flatMap, List.not_mem_nil, or_false]

theorem elem_of_zsetBatch {key elem : Bytes} {pairs : List (Bytes × Bytes)} {kv : Bytes × Bytes}
    (hmem : kv ∈ zsetBatch key pairs) (hkey : kv.1 = getZsetKeyElem key elem) :
    (kv.2, elem) ∈ pairs := by
  rcases mem_zsetBatch.mp hmem with rfl | ⟨pair, hpair, rfl | rfl⟩
  · rw [getZsetKeyElem_preffix] at hkey
    exact absurd hkey (getZsetKeyPreffix_ne_key key _)
  · exact absurd hkey.symm (getZsetKeyElem_ne_slot key elem _)
  · rw [← (getZsetKeyElem_eq_iff key).mp hkey]
    exact hpair

theorem slot_of_zsetBatch {key slot : Bytes} {pairs : List (Bytes × Bytes)} {kv : Bytes × Bytes}
    (hmem : kv ∈ zsetBatch key pairs) (hkey : kv.1 = getZsetScorePreffix key ++ slot) :
    ∃ pair ∈ pairs, formattedScore pair.1 = slot ∧ pair.2 = kv.2 := by
  rcases mem_zsetBatch.mp hmem with rfl | ⟨pair, hpair, rfl | rfl⟩
  · rw [getZsetScorePreffix_eq, List.append_assoc] at hkey
    exact absurd hkey (getZsetKeyPreffix_ne_key key _)
  · exact ⟨pair, hpair, List.append_cancel_left hkey, rfl⟩
  · exact absurd hkey (getZsetKeyElem_ne_slot key _ slot)

namespace HoldsZset

variable {key : Bytes} {store : Store} {added pairs : List (Bytes × Bytes)}

/-- What `zadd` writes for members that are not there. -/
theorem run_zadd (arith : DoubleArith) (hholds : HoldsZset key store added)
    (hdistinct : DistinctScores (added ++ pairs)) (now : ℤ) :
    (((ZsetOp.zadd key pairs).command arith).run now store).1 =
      store.putBatch (zsetBatch key pairs) := by
  have hheader : store.get (getZsetKeyPreffix key) = none := by
    rw [Option.eq_none_iff_forall_ne_some]
    intro value hvalue
    rw [← List.append_nil (getZsetKeyPreffix key)] at hvalue
    rcases hholds.rest [] value hvalue with ⟨elem, heq⟩ | ⟨slot, heq⟩ <;>
      exact absurd heq (List.cons_ne_nil _ _).symm
  have hnew : ∀ pair ∈ pairs, store.get (getZsetKeyElem key pair.2) ≠ some pair.1 := by
    intro pair hmem hvalue
    have hadded := (hholds.members _ _).mp hvalue
    have honce := hdistinct.once
    rw [List.map_append] at honce
    exact (List.disjoint_of_nodup_append honce) (List.mem_map_of_mem hadded)
      (List.mem_map_of_mem hmem)
  rw [ZsetOp.command, redisZadd, scorePairs_flatMap]
  dsimp only
  rw [run_writeCommand hholds.expire]
  dsimp only
  rw [zaddPairs_writes, hheader, zaddWrites, List.filter_eq_self.mpr fun pair hmem =>
    decide_eq_true (hnew pair hmem)]
  rfl

theorem zadd (arith : DoubleArith) (hholds : HoldsZset key store added)
    (hdistinct : DistinctScores (added ++ pairs)) (now : ℤ) :
    HoldsZset key (((ZsetOp.zadd key pairs).command arith).run now store).1 (added ++ pairs) := by
  have hpairs : ∀ {pair}, pair ∈ pairs → pair ∈ added ++ pairs := List.mem_append_right _
  rw [hholds.run_zadd arith hdistinct]
  constructor
  · rw [Store.get_putBatch_of_not_mem, hholds.expire]
    intro hmem
    obtain ⟨kv, hkv, hkey⟩ := List.mem_map.mp hmem
    rcases mem_zsetBatch.mp hkv with rfl | ⟨pair, -, rfl | rfl⟩
    · exact getExplireKey_ne key hkey.symm
    · rw [getZsetKeySocre_preffix] at hkey
      exact ne_of_take (take_getZsetKeyPreffix _ _) (take_getExplireKey _) (by decide) hkey
    · rw [getZsetKeyElem_preffix] at hkey
      exact ne_of_take (take_getZsetKeyPreffix _ _) (take_getExplireKey _) (by decide) hkey
  · intro elem score
    by_cases hnamed : ∃ pair ∈ pairs, pair.2 = elem
    · obtain ⟨pair, hpair, rfl⟩ := hnamed
      have hget : (store.putBatch (zsetBatch key pairs)).get (getZsetKeyElem key pair.2) =
          some pair.1 := by
        apply Store.get_putBatch_of_mem store (hdistinct.score_ne (hpairs hpair))
        · exact mem_zsetBatch.mpr (Or.inr ⟨pair, hpair, Or.inr rfl⟩)
        · intro kv hkv hkey
          exact congrArg Prod.fst (hdistinct.eq_of_member
            (hpairs (elem_of_zsetBatch hkv hkey)) (hpairs hpair) rfl)
      rw [hget, Option.some.injEq]
      constructor
      · rintro rfl
        exact hpairs hpair
      · exact fun hmem => congrArg Prod.fst (hdistinct.eq_of_member (hpairs hpair) hmem rfl)
    · rw [Store.get_putBatch_of_not_mem, hholds.members, List.mem_append]
      · exact (or_iff_left fun hmem => hnamed ⟨_, hmem, rfl⟩).symm
      · intro hmem
        obtain ⟨kv, hkv, hkey⟩ := List.mem_map.mp hmem
        exact hnamed ⟨_, elem_of_zsetBatch hkv hkey, rfl⟩
  · intro slot elem
    by_cases hnamed : ∃ pair ∈ pairs, formattedScore pair.1 = slot
    · obtain ⟨pair, hpair, rfl⟩ := hnamed
      have hother : ∀ {kv}, kv ∈ zsetBatch key pairs →
          kv.1 = getZsetScorePreffix key ++ formattedScore pair.1 → kv.2 = pair.2 := by
        intro kv hkv hkey
        obtain ⟨pair', hpair', hscore, helem⟩ := slot_of_zsetBatch hkv hkey
        rw [← helem, hdistinct.eq_of_score (hpairs hpair') (hpairs hpair) hscore]
      have hsame : ∀ {score elem}, (score, elem) ∈ added ++ pairs →
          formattedScore score = formattedScore pair.1 → elem = pair.2 := by
        intro score elem hmem hscore
        exact congrArg Prod.snd (hdistinct.eq_of_score hmem (hpairs hpair) hscore)
      by_cases hempty : pair.2 = []
      · have hnone : (store.putBatch (zsetBatch key pairs)).get
            (getZsetScorePreffix key ++ formattedScore pair.1) = none := by
          apply Store.get_putBatch_none
          · rw [Option.eq_none_iff_forall_ne_some]
            intro elem' hget
            obtain ⟨hne, score, hmem, hscore⟩ := (hholds.index _ _).mp hget
            exact hne ((hsame (List.mem_append_left _ hmem) hscore).trans hempty)
          · exact fun kv hkv hkey => (hother hkv hkey).trans hempty
        rw [hnone]
        refine iff_of_false (Option.some_ne_none elem).symm ?_
        rintro ⟨hne, score, hmem, hscore⟩
        exact hne ((hsame hmem hscore).trans hempty)
      · have hget : (store.putBatch (zsetBatch key pairs)).get
            (getZsetScorePreffix key ++ formattedScore pair.1) = some pair.2 := by
          apply Store.get_putBatch_of_mem store hempty
          · exact mem_zsetBatch.mpr (Or.inr ⟨pair, hpair, Or.inl rfl⟩)
          · exact fun kv hkv hkey => hother hkv hkey
        rw [hget, Option.some.injEq]
        constructor
        · rintro rfl
          exact ⟨hempty, pair.1, hpairs hpair, rfl⟩
        · rintro ⟨-, score, hmem, hscore⟩
          exact (hsame hmem hscore).symm
    · rw [Store.get_putBatch_of_not_mem, hholds.index]
      · have hold : ∀ score, formattedScore score = slot →
            ((score, elem) ∈ added ++ pairs ↔ (score, elem) ∈ added) := by
          intro score hscore
          rw [List.mem_append]
          exact or_iff_left fun hmem => hnamed ⟨_, hmem, hscore⟩
        refine and_congr_right fun _ => exists_congr fun score => ?_
        exact and_congr_left fun hscore => (hold score hscore).symm
      · intro hmem
        obtain ⟨kv, hkv, hkey⟩ := List.mem_map.mp hmem
        obtain ⟨pair, hpair, hscore, -⟩ := slot_of_zsetBatch hkv hkey
        exact hnamed ⟨pair, hpair, hscore⟩
  · intro rest value hvalue
    by_cases hbatch : getZsetKeyPreffix key ++ rest ∈ (zsetBatch key pairs).map Prod.fst
    · obtain ⟨kv, hkv, hkey⟩ := List.mem_map.mp hbatch
      rcases mem_zsetBatch.mp hkv with rfl | ⟨pair, -, rfl | rfl⟩
      · exact absurd hkey (getZsetKeyPreffix_ne_key key rest)
      · rw [getZsetKeySocre_preffix] at hkey
        exact Or.inr ⟨_, (List.append_cancel_left hkey).symm⟩
      · rw [getZsetKeyElem_preffix] at hkey
        exact Or.inl ⟨_, (List.append_cancel_left hkey).symm⟩
    · rw [Store.get_putBatch_of_not_mem store hbatch] at hvalue
      exact hholds.rest rest value hvalue

/-- A run of `zadd` commands. -/
theorem run (arith : DoubleArith) {ops : List (ℤ × List (Bytes × Bytes))}
    (hholds : HoldsZset key store added)
    (hdistinct : DistinctScores (added ++ ops.flatMap Prod.snd)) :
    HoldsZset key (runCommands (ops.map fun op =>
      (op.1, (ZsetOp.zadd key op.2).command arith)) store).1 (added ++ ops.flatMap Prod.snd) := by
  induction ops generalizing store added with
  | nil =>
      rw [List.flatMap_nil, List.append_nil]
      exact hholds
  | cons op rest ih =>
      rw [List.flatMap_cons, ← List.append_assoc] at hdistinct ⊢
      exact ih (hholds.zadd arith hdistinct.left op.1) hdistinct

end HoldsZset

/-! ## The order of the members -/

namespace HoldsZset

variable {key : Bytes} {store : Store} {pairs : List (Bytes × Bytes)}

theorem mem_scan (hholds : HoldsZset key store pairs) {record : Bytes × Bytes} :
    record ∈ store.scan (getZsetScorePreffix key) ↔ record.2 ≠ [] ∧
      ∃ score, (score, record.2) ∈ pairs ∧ record.1 = getZsetKeySocre key score := by
  obtain ⟨name, elem⟩ := record
  rw [Store.mem_scan]
  constructor
  · rintro ⟨⟨slot, rfl⟩, hget⟩
    obtain ⟨hne, score, hmem, rfl⟩ := (hholds.index slot elem).mp hget
    exact ⟨hne, score, hmem, rfl⟩
  · rintro ⟨hne, score, hmem, rfl⟩
    exact ⟨List.prefix_append _ _, (hholds.index _ elem).mpr ⟨hne, score, hmem, rfl⟩⟩

theorem mem_zsetElements (hholds : HoldsZset key store pairs) {elem : Bytes} :
    elem ∈ zsetElements store key ↔ elem ≠ [] ∧ ∃ score, (score, elem) ∈ pairs := by
  rw [zsetElements, List.mem_map]
  constructor
  · rintro ⟨record, hrecord, rfl⟩
    obtain ⟨hne, score, hmem, -⟩ := hholds.mem_scan.mp hrecord
    exact ⟨hne, score, hmem⟩
  · rintro ⟨hne, score, hmem⟩
    exact ⟨(_, elem), hholds.mem_scan.mpr ⟨hne, score, hmem, rfl⟩, rfl⟩

/-- The members are listed in the byte order of their padded scores. -/
theorem zsetElements_sorted (hholds : HoldsZset key store pairs)
    (hdistinct : DistinctScores pairs) :
    (zsetElements store key).Pairwise fun elem elem' =>
      ∀ score score', (score, elem) ∈ pairs → (score', elem') ∈ pairs →
        formattedScore score < formattedScore score' := by
  rw [zsetElements, List.pairwise_map]
  refine (store.scan_ascending _).imp_of_mem ?_
  intro left right hleft hright hlt score score' hscore hscore'
  obtain ⟨-, other, hmem, hname⟩ := hholds.mem_scan.mp hleft
  obtain ⟨-, other', hmem', hname'⟩ := hholds.mem_scan.mp hright
  have hsame := congrArg Prod.fst (hdistinct.eq_of_member hscore hmem rfl)
  have hsame' := congrArg Prod.fst (hdistinct.eq_of_member hscore' hmem' rfl)
  dsimp only at hsame hsame'
  rw [hname, hname', getZsetKeySocre_eq, getZsetKeySocre_eq,
    Prefixes.append_lt_append_left] at hlt
  rwa [hsame, hsame']

theorem nodup_zsetElements (hholds : HoldsZset key store pairs)
    (hdistinct : DistinctScores pairs) : (zsetElements store key).Nodup := by
  refine (hholds.zsetElements_sorted hdistinct).imp_of_mem ?_
  intro elem elem' helem _ hlt heq
  obtain ⟨-, score, hmem⟩ := hholds.mem_zsetElements.mp helem
  exact (hlt score score hmem (heq ▸ hmem)).false

/-- In front of a score are the records of all members and those of the lower scores. -/
theorem recordsBefore_perm (hholds : HoldsZset key store pairs)
    (hdistinct : DistinctScores pairs) (score : Bytes) :
    (recordsBefore key score store).Perm
      ((pairs.map fun pair => (getZsetKeyElem key pair.2, pair.1)) ++
        (pairs.filter fun pair => decide (pair.2 ≠ [] ∧
          formattedScore pair.1 < formattedScore score)).map fun pair =>
            (getZsetKeySocre key pair.1, pair.2)) := by
  have hfront : ∀ {elem slot : Bytes}, ascii "ELEM_" ++ elem < ascii "SCORE_" ++ slot := by
    intro elem slot
    exact List.cons_lt_cons_iff.mpr (Or.inl (by decide))
  refine (List.perm_ext_iff_of_nodup ?_ ?_).mpr ?_
  · refine ((store.scan_ascending _).filter _).imp ?_
    exact fun hlt heq => (heq ▸ hlt).false
  · refine List.Nodup.append ?_ ?_ ?_
    · refine List.Nodup.map_on ?_ hdistinct.once.of_map
      intro pair hpair pair' hpair' heq
      exact hdistinct.eq_of_member hpair hpair'
        ((getZsetKeyElem_eq_iff key).mp (congrArg Prod.fst heq))
    · refine List.Nodup.map_on ?_ (hdistinct.once.of_map.filter _)
      intro pair hpair pair' hpair' heq
      have helem : pair.2 = pair'.2 := (Prod.mk.inj heq).2
      exact hdistinct.eq_of_member (List.mem_filter.mp hpair).1 (List.mem_filter.mp hpair').1 helem
    · intro record hleft hright
      obtain ⟨pair, -, rfl⟩ := List.mem_map.mp hleft
      obtain ⟨pair', -, heq⟩ := List.mem_map.mp hright
      exact getZsetKeyElem_ne_slot key _ _ (congrArg Prod.fst heq).symm
  · rintro ⟨name, value⟩
    rw [mem_recordsBefore, List.mem_append, List.mem_map, List.mem_map]
    constructor
    · rintro ⟨⟨⟨rest, rfl⟩, hget⟩, hlt⟩
      rcases hholds.rest rest value hget with ⟨elem, rfl⟩ | ⟨slot, rfl⟩
      · rw [← getZsetKeyElem_preffix] at hget ⊢
        exact Or.inl ⟨_, (hholds.members elem value).mp hget, rfl⟩
      · rw [getZsetKeySocre_preffix, Prefixes.append_lt_append_left,
          Prefixes.append_lt_append_left] at hlt
        rw [← List.append_assoc, ← getZsetScorePreffix_eq] at hget ⊢
        obtain ⟨hne, score', hmem, rfl⟩ := (hholds.index slot value).mp hget
        exact Or.inr ⟨_, List.mem_filter.mpr ⟨hmem, decide_eq_true ⟨hne, hlt⟩⟩, rfl⟩
    · rintro (⟨pair, hpair, heq⟩ | ⟨pair, hpair, heq⟩)
      · obtain ⟨rfl, rfl⟩ := Prod.mk.inj heq
        refine ⟨⟨?_, (hholds.members _ _).mpr hpair⟩, ?_⟩
        · rw [getZsetKeyElem_preffix]
          exact List.prefix_append _ _
        · rw [getZsetKeyElem_preffix, getZsetKeySocre_preffix, Prefixes.append_lt_append_left]
          exact hfront
      · obtain ⟨rfl, rfl⟩ := Prod.mk.inj heq
        obtain ⟨hmem, hlower⟩ := List.mem_filter.mp hpair
        obtain ⟨hne, hlt⟩ := of_decide_eq_true hlower
        refine ⟨⟨?_, (hholds.index _ _).mpr ⟨hne, pair.1, hmem, rfl⟩⟩, ?_⟩
        · rw [getZsetKeySocre_preffix]
          exact List.prefix_append _ _
        · rw [getZsetKeySocre_eq, getZsetKeySocre_eq, Prefixes.append_lt_append_left]
          exact hlt

/-- The rank that `zrank` answers counts every member once before it counts scores. -/
theorem run_zrank (hholds : HoldsZset key store pairs) (hdistinct : DistinctScores pairs)
    {score elem : Bytes} (hmem : (score, elem) ∈ pairs) (hne : elem ≠ []) (now : ℤ) :
    ((redisZrank key elem).run now store).2 = .ok (intReply (pairs.length +
      (pairs.filter fun pair => decide (pair.2 ≠ [] ∧
        formattedScore pair.1 < formattedScore score)).length : ℕ)) := by
  have hindex : store.get (getZsetKeySocre key score) = some elem :=
    (hholds.index _ elem).mpr ⟨hne, score, hmem, rfl⟩
  rw [run_redisZrank hholds.expire ((hholds.members elem score).mpr hmem) hindex,
    (hholds.recordsBefore_perm hdistinct score).length_eq, List.length_append, List.length_map,
    List.length_map]

/-- A member without characters has no rank. -/
theorem run_zrank_nil (hholds : HoldsZset key store pairs) (hdistinct : DistinctScores pairs)
    (now : ℤ) :
    ((redisZrank key []).run now store).2 = .ok nilReply := by
  rw [redisZrank, run_readCommand hholds.expire]
  dsimp only
  cases hscore : store.get (getZsetKeyElem key []) with
  | none => rfl
  | some score =>
      dsimp only
      have hnone : (store.scan (getZsetKeyPreffix key)).findIdx? (fun record =>
          decide (record.1 = getZsetKeySocre key score)) = none := by
        rw [List.findIdx?_eq_none_iff]
        rintro ⟨name, value⟩ hrecord
        rw [decide_eq_false_iff_not]
        rintro rfl
        obtain ⟨hne, other, hmem, hslot⟩ :=
          (hholds.index _ value).mp (Store.mem_scan.mp hrecord).2
        have hown := (hholds.members [] score).mp hscore
        exact hne (congrArg Prod.snd (hdistinct.eq_of_score hmem hown hslot))
      rw [hnone]

end HoldsZset

/-- The members of a sorted set in the order of the numbers that their scores stand for. -/
def Ascending (pairs : List (Bytes × Bytes)) (members : List Bytes) : Prop :=
  members.Perm (pairs.map Prod.snd) ∧ members.Pairwise fun elem elem' =>
    ∀ score score', (score, elem) ∈ pairs → (score', elem') ∈ pairs →
      ∀ value value', decimalValue score = some value → decimalValue score' = some value' →
        value < value'

def ListsAscending (key : Bytes) (store : Store) (pairs : List (Bytes × Bytes)) (now : ℤ)
    (members : List Bytes) : Prop :=
  Ascending pairs members ∧
    (redisZrange [ascii "ZRANGE", key, ascii "0", ascii "-1"]).run now store =
      (store, .ok (arrayReply members))

/-- `zrange` lists the members in the order of the scores, and `zrank` answers with the place of
a member in this list. -/
def RanksAgree (key : Bytes) (store : Store) (pairs : List (Bytes × Bytes)) (now : ℤ) : Prop :=
  ∃ members, ListsAscending key store pairs now members ∧
    ∀ rank (hrank : rank < members.length),
      (redisZrank key members[rank]).run now store = (store, .ok (intReply rank))

namespace HoldsZset

variable {key : Bytes} {store : Store} {pairs : List (Bytes × Bytes)}

/-- The order of `zrange` is right exactly if the bytes of the padded scores are in the order of
the numbers. -/
theorem lists_ascending_iff (hholds : HoldsZset key store pairs)
    (hdistinct : DistinctScores pairs) (now : ℤ) :
    (∃ members, ListsAscending key store pairs now members) ↔
      (∀ pair ∈ pairs, pair.2 ≠ []) ∧ ∀ pair ∈ pairs, ∀ pair' ∈ pairs, ∀ value value',
        decimalValue pair.1 = some value → decimalValue pair'.1 = some value' → value < value' →
          formattedScore pair.1 < formattedScore pair'.1 := by
  have hzrange := run_redisZrange_all hholds.expire now
  rw [← zsetElements] at hzrange
  have hsorted := hholds.zsetElements_sorted hdistinct
  constructor
  · rintro ⟨members, ⟨hperm, hascending⟩, hreply⟩
    rw [hzrange, Prod.mk.injEq, Except.ok.injEq, arrayReply_inj] at hreply
    rw [← hreply.2] at hperm hascending
    have hlisted : ∀ pair ∈ pairs, pair.2 ∈ zsetElements store key := fun pair hpair =>
      hperm.mem_iff.mpr (List.mem_map_of_mem hpair)
    refine ⟨fun pair hpair => (hholds.mem_zsetElements.mp (hlisted pair hpair)).1, ?_⟩
    intro pair hpair pair' hpair' value value' hvalue hvalue' hlt
    obtain ⟨i, hi, hget⟩ := List.mem_iff_getElem.mp (hlisted pair hpair)
    obtain ⟨j, hj, hget'⟩ := List.mem_iff_getElem.mp (hlisted pair' hpair')
    rw [List.pairwise_iff_getElem] at hsorted hascending
    rcases lt_trichotomy i j with hij | rfl | hij
    · exact hsorted i j hi hj hij _ _ (hget ▸ hpair) (hget' ▸ hpair')
    · rw [hdistinct.eq_of_member hpair hpair' (hget.symm.trans hget')] at hvalue
      exact absurd (Option.some.inj (hvalue.symm.trans hvalue')) hlt.ne
    · have hgt := hascending j i hj hi hij _ _ (hget' ▸ hpair') (hget ▸ hpair) _ _ hvalue' hvalue
      exact absurd hgt hlt.not_gt
  · rintro ⟨hne, hagree⟩
    refine ⟨zsetElements store key, ⟨?_, ?_⟩, hzrange⟩
    · rw [List.perm_ext_iff_of_nodup (hholds.nodup_zsetElements hdistinct) hdistinct.once]
      intro elem
      rw [hholds.mem_zsetElements, List.mem_map]
      constructor
      · rintro ⟨-, score, hmem⟩
        exact ⟨_, hmem, rfl⟩
      · rintro ⟨pair, hpair, rfl⟩
        exact ⟨hne pair hpair, pair.1, hpair⟩
    · refine hsorted.imp ?_
      intro elem elem' hlt score score' hmem hmem' value value' hvalue hvalue'
      have hformatted := hlt score score' hmem hmem'
      by_contra hnot
      rcases (not_lt.mp hnot).eq_or_lt with rfl | hgt
      · have heq := List.inj_on_of_nodup_map hdistinct.apart hmem hmem' (hvalue.trans hvalue'.symm)
        rw [(Prod.mk.inj heq).1] at hformatted
        exact hformatted.false
      · exact hformatted.not_gt (hagree _ hmem' _ hmem _ _ hvalue' hvalue hgt)

/-- No member has its rank. -/
theorem ranks_agree_iff (hholds : HoldsZset key store pairs)
    (hdistinct : DistinctScores pairs) (now : ℤ) : RanksAgree key store pairs now ↔ pairs = [] := by
  constructor
  · rintro ⟨members, ⟨⟨hperm, -⟩, -⟩, hranks⟩
    by_contra hne
    have hlength : 0 < members.length := by
      rw [hperm.length_eq, List.length_map]
      exact List.length_pos_iff.mpr hne
    obtain ⟨⟨score, elem⟩, hmem, hfirst⟩ := List.mem_map.mp (hperm.mem_iff.mp
      (List.getElem_mem hlength))
    have hzrank := congrArg Prod.snd (hranks 0 hlength)
    rw [← hfirst] at hzrank
    by_cases helem : elem = []
    · rw [helem, hholds.run_zrank_nil hdistinct now] at hzrank
      have hreply : nilReply = intReply 0 := Except.ok.inj hzrank
      exact absurd hreply (by decide)
    · rw [hholds.run_zrank hdistinct hmem helem now] at hzrank
      have hrank := intReply_inj (Except.ok.inj hzrank)
      have hpos := List.length_pos_iff.mpr hne
      omega
  · rintro rfl
    have hempty : zsetElements store key = [] := by
      rw [List.eq_nil_iff_forall_not_mem]
      intro elem hmem
      obtain ⟨-, score, hnone⟩ := hholds.mem_zsetElements.mp hmem
      cases hnone
    refine ⟨[], ⟨⟨List.Perm.refl _, List.Pairwise.nil⟩, ?_⟩, fun rank hrank => ?_⟩
    · rw [run_redisZrange_all hholds.expire now, ← zsetElements, hempty]
    · cases hrank

end HoldsZset

/-! ## Natural numbers -/

section Naturals

private def readDigits (text : Bytes) (number : ℕ) : ℕ :=
  text.foldl (fun number char => 10 * number + (char.val - 48)) number

variable {left right : Bytes} (hleft : left.all isDigit) (hright : right.all isDigit)
  (hlength : left.length = right.length)
include hleft hright hlength

/-- What was smaller before as many digits stays smaller. -/
private theorem readDigits_lt {number number' : ℕ} (hlt : number < number') :
    readDigits left number < readDigits right number' := by
  induction left generalizing right number number' with
  | nil =>
      rw [List.eq_nil_of_length_eq_zero hlength.symm]
      exact hlt
  | cons char left ih =>
      cases right with
      | nil => cases hlength
      | cons other right =>
          rw [List.all_cons, Bool.and_eq_true] at hleft hright
          have hchar := of_decide_eq_true hleft.1
          exact ih hleft.2 hright.2 (Nat.succ.inj hlength) (by dsimp only; omega)

private theorem readDigits_lt_of_lt (hlt : left < right) (number : ℕ) :
    readDigits left number < readDigits right number := by
  induction left generalizing right number with
  | nil =>
      rw [List.eq_nil_of_length_eq_zero hlength.symm] at hlt
      exact absurd hlt (List.not_lt_nil _)
  | cons char left ih =>
      cases right with
      | nil => cases hlength
      | cons other right =>
          have htails := Nat.succ.inj hlength
          rw [List.all_cons, Bool.and_eq_true] at hleft hright
          rcases List.cons_lt_cons_iff.mp hlt with hchars | ⟨rfl, htail⟩
          · have hchar := of_decide_eq_true hleft.1
            exact readDigits_lt hleft.2 hright.2 htails (by dsimp only; omega)
          · exact ih hleft.2 hright.2 htails htail _

end Naturals

/-- The padded scores are in the order of the numbers as long as these are natural numbers of
at most as many digits as the padding is long. -/
theorem formattedScore_lt_of_digits {score score' : Bytes} {value value' : ℚ}
    (hdigits : score.all isDigit) (hdigits' : score'.all isDigit)
    (hfits : score.length ≤ redisSortedSetScoreLen)
    (hfits' : score'.length ≤ redisSortedSetScoreLen) (hvalue : decimalValue score = some value)
    (hvalue' : decimalValue score' = some value') (hlt : value < value') :
    formattedScore score < formattedScore score' := by
  have hpadded : ∀ {score : Bytes}, score.all isDigit → score.length ≤ redisSortedSetScoreLen →
      (formattedScore score).all isDigit ∧
        (formattedScore score).length = redisSortedSetScoreLen := by
    intro score hdigits hfits
    rw [formattedScore, List.all_append, hdigits, List.length_append, List.length_replicate]
    refine ⟨?_, Nat.sub_add_cancel hfits⟩
    rw [Bool.and_true, List.all_eq_true]
    intro char hmem
    rw [List.eq_of_mem_replicate hmem]
    rfl
  have hnumber : ∀ {score : Bytes} {value}, score.all isDigit → decimalValue score = some value →
      value = (parseDecimal (formattedScore score) : ℚ) := by
    intro score value hdigits hvalue
    have hother : ∀ char, isDigit char = false → char ∉ score := by
      intro char hchar hmem
      rw [List.all_eq_true.mp hdigits char hmem] at hchar
      cases hchar
    have hunsigned : ¬score.head? = some 45 := fun hhead =>
      hother 45 (by decide) (List.mem_of_mem_head? hhead)
    have hpoint : score.dropWhile (· ≠ 46) = [] := by
      rw [List.dropWhile_eq_nil_iff]
      rintro char hmem
      rw [decide_eq_true_iff]
      rintro rfl
      exact hother 46 (by decide) hmem
    have hzeros : ∀ count, parseDecimal (List.replicate count 48 ++ score) = parseDecimal score := by
      intro count
      induction count with
      | zero => rfl
      | succ count ih => exact ih
    rw [decimalValue, if_neg hunsigned, magnitude, hpoint] at hvalue
    obtain ⟨whole, hwhole, rfl⟩ := Option.map_eq_some_iff.mp hvalue
    rw [digitsValue] at hwhole
    split_ifs at hwhole
    rw [formattedScore, hzeros, Option.some.inj hwhole]
  rw [hnumber hdigits hvalue, hnumber hdigits' hvalue', Nat.cast_lt] at hlt
  obtain ⟨hall, hlength⟩ := hpadded hdigits hfits
  obtain ⟨hall', hlength'⟩ := hpadded hdigits' hfits'
  by_contra hnot
  rcases (not_lt.mp hnot).eq_or_lt with heq | hgt
  · rw [heq] at hlt
    exact hlt.false
  · exact hlt.not_gt (readDigits_lt_of_lt hall' hall (hlength'.trans hlength.symm) hgt 0)

/-! ## Runs -/

/-- A sorted set to which every member is added once, with different scores: `zrange` lists it
in the order of the scores exactly if the bytes of the padded scores are in this order, and
`zrank` never answers with the places in the list, unless there are no members. -/
theorem zset_ranks_iff (arith : DoubleArith) {key : Bytes} {store : Store}
    (hexpire : store.get (getExplireKey key) = none)
    (hfree : ∀ rest, store.get (getZsetKeyPreffix key ++ rest) = none)
    {ops : List (ℤ × List (Bytes × Bytes))} (hdistinct : DistinctScores (ops.flatMap Prod.snd))
    (now : ℤ) :
    let pairs := ops.flatMap Prod.snd
    let after := (runCommands (ops.map fun op =>
      (op.1, (ZsetOp.zadd key op.2).command arith)) store).1
    ((∃ members, ListsAscending key after pairs now members) ↔
      (∀ pair ∈ pairs, pair.2 ≠ []) ∧ ∀ pair ∈ pairs, ∀ pair' ∈ pairs, ∀ value value',
        decimalValue pair.1 = some value → decimalValue pair'.1 = some value' → value < value' →
          formattedScore pair.1 < formattedScore pair'.1) ∧
    (RanksAgree key after pairs now ↔ pairs = []) := by
  intro pairs after
  have hstart : HoldsZset key store [] := by
    refine ⟨hexpire, fun elem score => ?_, fun slot elem => ?_, fun rest value hvalue => ?_⟩
    · rw [getZsetKeyElem_preffix, hfree]
      exact iff_of_false (Option.some_ne_none score).symm List.not_mem_nil
    · rw [getZsetScorePreffix_eq, List.append_assoc, hfree]
      refine iff_of_false (Option.some_ne_none elem).symm ?_
      rintro ⟨-, score, hnone, -⟩
      cases hnone
    · rw [hfree] at hvalue
      cases hvalue
  have hholds := hstart.run arith hdistinct
  exact ⟨hholds.lists_ascending_iff hdistinct now, hholds.ranks_agree_iff hdistinct now⟩

/-- Natural numbers, a fraction and a negative number, in two commands. -/
theorem zset_ranks_iff_sample :
    let pairs := [(ascii "10", ascii "a"), (ascii "9", ascii "b"), (ascii "-1", ascii "c"),
      (ascii "2.5", ascii "d")]
    let after := (runCommands ([(0, [(ascii "10", ascii "a"), (ascii "9", ascii "b")]),
      (1, [(ascii "-1", ascii "c"), (ascii "2.5", ascii "d")])].map fun op =>
        (op.1, (ZsetOp.zadd (ascii "k") op.2).command wholeArith)) ∅).1
    ¬RanksAgree (ascii "k") after pairs 2 := by
  intro pairs after hranks
  have hdistinct : DistinctScores pairs := ⟨by decide +kernel, by decide +kernel, by decide +kernel⟩
  have hempty := (@zset_ranks_iff wholeArith (ascii "k") ∅ rfl (fun _ => rfl)
    [(0, [(ascii "10", ascii "a"), (ascii "9", ascii "b")]),
      (1, [(ascii "-1", ascii "c"), (ascii "2.5", ascii "d")])] hdistinct 2).2.mp hranks
  cases hempty

/-- The first of two members has rank two, and fractions and negative numbers are out of
order. -/
theorem zset_ranks_fail :
    (runCommands [(0, (ZsetOp.zadd (ascii "k") [(ascii "1", ascii "a"), (ascii "2",
          ascii "b")]).command wholeArith),
        (1, redisZrange [ascii "ZRANGE", ascii "k", ascii "0", ascii "-1"]),
        (1, redisZrank (ascii "k") (ascii "a"))] ∅).2 =
      [.ok (intReply 2), .ok (arrayReply [ascii "a", ascii "b"]), .ok (intReply 2)] ∧
    (runCommands [(0, (ZsetOp.zadd (ascii "k") [(ascii "1.5", ascii "a"), (ascii "10",
          ascii "b"), (ascii "-5", ascii "c"), (ascii "-3", ascii "d")]).command wholeArith),
        (1, redisZrange [ascii "ZRANGE", ascii "k", ascii "0", ascii "-1"])] ∅).2 =
      [.ok (intReply 4),
        .ok (arrayReply [ascii "d", ascii "c", ascii "b", ascii "a"])] ∧
    ¬RanksAgree (ascii "k") (runCommands [(0, (ZsetOp.zadd (ascii "k") [(ascii "1", ascii "a"),
      (ascii "2", ascii "b")]).command wholeArith)] ∅).1
        [(ascii "1", ascii "a"), (ascii "2", ascii "b")] 1 := by
  refine ⟨by decide +kernel, by decide +kernel, ?_⟩
  rintro ⟨members, ⟨-, hreply⟩, hranks⟩
  have hlisted : (.ok (arrayReply [ascii "a", ascii "b"]) : Except Err Bytes) =
      .ok (arrayReply members) := (congrArg Prod.snd hreply).symm.trans (by decide +kernel) |>.symm
  obtain rfl := arrayReply_inj.mp (Except.ok.inj hlisted)
  have hrank := congrArg Prod.snd (hranks 0 (by decide))
  revert hrank
  decide +kernel

end KopiDb.Redis

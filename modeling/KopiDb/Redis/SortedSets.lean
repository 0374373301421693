import KopiDb.Redis.Runs

/-!
# The two indexes of a sorted set

A sorted set has one record for each member, with its score, and one for each score, with
its member.  The two are inverse to each other as long as no two members have the same
score and no score is given up that nobody takes over: a changed score stays behind as a
record of its old value.
-/

namespace KopiDb.Redis

/-- The scores of the members of every sorted set. -/
abbrev Scores := Bytes → Bytes → Option Bytes

def Scores.set (scores : Scores) (key elem : Bytes) (score : Option Bytes) : Scores :=
  Function.update scores key (Function.update (scores key) elem score)

def Scores.setAll (scores : Scores) (key : Bytes) : List (Bytes × Bytes) → Scores :=
  List.foldl (fun scores pair => scores.set key pair.2 (some pair.1)) scores

def Scores.eraseAll (scores : Scores) (key : Bytes) : List Bytes → Scores :=
  List.foldl (fun scores elem => scores.set key elem none) scores

inductive ZsetOp where
  | zadd (key : Bytes) (pairs : List (Bytes × Bytes))
  | zincrby (key increment elem : Bytes)
  | zrem (key : Bytes) (elems : List Bytes)

namespace ZsetOp

variable (arith : DoubleArith)

def key : ZsetOp → Bytes
  | .zadd key _ => key
  | .zincrby key _ _ => key
  | .zrem key _ => key

def command : ZsetOp → Command
  | .zadd key pairs =>
      redisZadd (ascii "ZADD" :: key :: pairs.flatMap fun pair => [pair.1, pair.2])
  | .zincrby key increment elem => redisZincrby arith key increment elem
  | .zrem key elems => redisZrem (ascii "ZREM" :: key :: elems)

/-- The sum that `redis_zincrby` makes, `none` when a conversion throws. -/
def increased (score : Option Bytes) (increment : Bytes) : Option Bytes :=
  match score with
  | none => ((arith.stod increment).map arith.toUint64).toOption.map decimal
  | some score =>
      match stol score, arith.stod increment with
      | .ok original, .ok increment => some (decimal (arith.addToUint64 original increment))
      | _, _ => none

/-- The scores that the operation sets. -/
def apply : ZsetOp → Scores → Scores
  | .zadd key pairs, scores => scores.setAll key pairs
  | .zincrby key increment elem, scores =>
      match increased arith (scores key elem) increment with
      | none => scores
      | some score => scores.set key elem (some score)
  | .zrem key elems, scores => scores.eraseAll key elems

/-- The key has no underscore, and scores are not empty. -/
def InDomain : ZsetOp → Prop
  | .zadd key pairs => 95 ∉ key ∧ ∀ pair ∈ pairs, pair.1 ≠ []
  | .zincrby key _ _ => 95 ∉ key
  | .zrem key _ => 95 ∉ key

end ZsetOp

/-- No two members have the same score. -/
def Apart (scores : Bytes → Option Bytes) : Prop :=
  ∀ elem elem' score score', scores elem = some score → scores elem' = some score' →
    formattedScore score = formattedScore score' → elem = elem'

/-- No member is empty, a command names no member with two scores, no two members have the
same score afterwards, and every score that `zadd` takes from a member is given to
another. -/
def ZsetOp.Keeps (arith : DoubleArith) (op : ZsetOp) (scores : Scores) : Prop :=
  Apart (op.apply arith scores op.key) ∧
    match op with
    | .zadd key pairs =>
        (∀ pair ∈ pairs, pair.2 ≠ []) ∧
          (∀ pair ∈ pairs, ∀ other ∈ pairs, pair.2 = other.2 → pair.1 = other.1) ∧
          ∀ elem score, scores key elem = some score →
            ∃ elem' score', op.apply arith scores key elem' = some score' ∧
              formattedScore score' = formattedScore score
    | .zincrby _ _ elem => elem ≠ []
    | .zrem _ _ => True

/-! ## The keys of a sorted set -/

theorem getZsetKeyElem_eq (key elem : Bytes) :
    getZsetKeyElem key elem =
      redisSortedSetPrefix ++ (key ++ 95 :: (ascii "ELEM_" ++ elem)) := by
  rw [getZsetKeyElem, List.append_assoc, List.append_assoc]
  rfl

theorem getZsetScorePreffix_append (key slot : Bytes) :
    getZsetScorePreffix key ++ slot =
      redisSortedSetPrefix ++ (key ++ 95 :: (ascii "SCORE_" ++ slot)) := by
  rw [getZsetScorePreffix, List.append_assoc, List.append_assoc]
  rfl

theorem getZsetKeySocre_eq (key score : Bytes) :
    getZsetKeySocre key score = getZsetScorePreffix key ++ formattedScore score := rfl

section Keys

variable {key key' : Bytes} (hkey : 95 ∉ key) (hkey' : 95 ∉ key')
include hkey hkey'

theorem getZsetKeyElem_inj {elem elem' : Bytes}
    (heq : getZsetKeyElem key elem = getZsetKeyElem key' elem') :
    key = key' ∧ elem = elem' := by
  rw [getZsetKeyElem_eq, getZsetKeyElem_eq, List.append_right_inj] at heq
  obtain ⟨hkeys, hrest⟩ := append_cons_inj hkey hkey' heq
  exact ⟨hkeys, (List.append_right_inj _).mp hrest⟩

theorem getZsetScorePreffix_inj {slot slot' : Bytes}
    (heq : getZsetScorePreffix key ++ slot = getZsetScorePreffix key' ++ slot') :
    key = key' ∧ slot = slot' := by
  rw [getZsetScorePreffix_append, getZsetScorePreffix_append, List.append_right_inj] at heq
  obtain ⟨hkeys, hrest⟩ := append_cons_inj hkey hkey' heq
  exact ⟨hkeys, (List.append_right_inj _).mp hrest⟩

theorem getZsetKeyElem_ne_score (elem slot : Bytes) :
    getZsetKeyElem key elem ≠ getZsetScorePreffix key' ++ slot := by
  intro heq
  rw [getZsetKeyElem_eq, getZsetScorePreffix_append, List.append_right_inj] at heq
  obtain ⟨-, hrest⟩ := append_cons_inj hkey hkey' heq
  have hhead := congrArg List.head? hrest
  revert hhead
  simp [ascii]

end Keys

/-! ## The indexes -/

/-- The records of all sorted sets whose keys have no underscore. -/
structure HoldsZsets (store : Store) (scores : Scores) : Prop where
  expire : ∀ key, 95 ∉ key → store.get (getExplireKey key) = none
  members : ∀ key, 95 ∉ key → ∀ elem, store.get (getZsetKeyElem key elem) = scores key elem
  index : ∀ key, 95 ∉ key → ∀ slot elem,
    store.get (getZsetScorePreffix key ++ slot) = some elem ↔
      ∃ score, scores key elem = some score ∧ formattedScore score = slot

/-- The records of one sorted set. -/
def OfZset (key other : Bytes) : Prop :=
  other = key ∨ (∃ elem, other = getZsetKeyElem key elem) ∨
    ∃ slot, other = getZsetScorePreffix key ++ slot

namespace HoldsZsets

variable {store store' : Store} {scores scores' : Scores} {key : Bytes}

/-- Only the records of one sorted set change. -/
theorem update (hholds : HoldsZsets store scores) (hkey : 95 ∉ key)
    (hframe : ∀ other, ¬OfZset key other → store'.get other = store.get other)
    (hscores : ∀ other, other ≠ key → scores' other = scores other)
    (hmembers : ∀ elem, store'.get (getZsetKeyElem key elem) = scores' key elem)
    (hindex : ∀ slot elem, store'.get (getZsetScorePreffix key ++ slot) = some elem ↔
      ∃ score, scores' key elem = some score ∧ formattedScore score = slot) :
    HoldsZsets store' scores' := by
  have helem : ∀ other, 95 ∉ other → other ≠ key → ∀ elem,
      ¬OfZset key (getZsetKeyElem other elem) := by
    rintro other hother hne elem (heq | ⟨elem', heq⟩ | ⟨slot, heq⟩)
    · apply hkey
      rw [← heq, getZsetKeyElem_eq]
      simp
    · exact hne (getZsetKeyElem_inj hother hkey heq).1
    · exact getZsetKeyElem_ne_score hother hkey elem slot heq
  have hslot : ∀ other, 95 ∉ other → other ≠ key → ∀ slot,
      ¬OfZset key (getZsetScorePreffix other ++ slot) := by
    rintro other hother hne slot (heq | ⟨elem, heq⟩ | ⟨slot', heq⟩)
    · apply hkey
      rw [← heq, getZsetScorePreffix_append]
      simp
    · exact getZsetKeyElem_ne_score hkey hother elem slot heq.symm
    · exact hne (getZsetScorePreffix_inj hother hkey heq).1
  have hexpire : ∀ other, ¬OfZset key (getExplireKey other) := by
    rintro other (heq | ⟨elem, heq⟩ | ⟨slot, heq⟩)
    · apply hkey
      rw [← heq, getExplireKey]
      exact List.mem_append_left _ (by decide)
    · have htag : ascii "REDIS_E" = ascii "REDIS_S" := congrArg (List.take 7) heq
      revert htag
      decide
    · have htag : ascii "REDIS_E" = ascii "REDIS_S" := congrArg (List.take 7) heq
      revert htag
      decide
  exact
    { expire := fun other hother => (hframe _ (hexpire other)).trans (hholds.expire other hother)
      members := by
        intro other hother elem
        by_cases hne : other = key
        · rw [hne]
          exact hmembers elem
        · rw [hframe _ (helem other hother hne elem), hscores other hne]
          exact hholds.members other hother elem
      index := by
        intro other hother slot elem
        by_cases hne : other = key
        · rw [hne]
          exact hindex slot elem
        · rw [hframe _ (hslot other hother hne slot), hscores other hne]
          exact hholds.index other hother slot elem }

end HoldsZsets

/-! ## Scores after an operation -/

theorem Scores.set_key (scores : Scores) (key elem other : Bytes) (score : Option Bytes) :
    scores.set key elem score key other = if other = elem then score else scores key other := by
  rw [Scores.set, Function.update_self, Function.update_apply]

theorem Scores.set_of_ne (scores : Scores) {key other : Bytes} (elem : Bytes)
    (score : Option Bytes) (hne : other ≠ key) : scores.set key elem score other = scores other :=
  Function.update_of_ne hne _ _

theorem Scores.setAll_cons (scores : Scores) (key : Bytes) (pair : Bytes × Bytes)
    (rest : List (Bytes × Bytes)) :
    scores.setAll key (pair :: rest) =
      (scores.set key pair.2 (some pair.1)).setAll key rest := rfl

theorem Scores.eraseAll_cons (scores : Scores) (key elem : Bytes) (rest : List Bytes) :
    scores.eraseAll key (elem :: rest) = (scores.set key elem none).eraseAll key rest := rfl

/-- An operation changes the scores of its key only. -/
theorem ZsetOp.apply_of_ne (arith : DoubleArith) (op : ZsetOp) (scores : Scores) {other : Bytes}
    (hne : other ≠ op.key) : op.apply arith scores other = scores other := by
  cases op with
  | zadd key pairs =>
      change other ≠ key at hne
      rw [ZsetOp.apply]
      induction pairs generalizing scores with
      | nil => rfl
      | cons pair rest ih => rw [Scores.setAll_cons, ih, Scores.set_of_ne _ _ _ hne]
  | zincrby key increment elem =>
      rw [ZsetOp.apply]
      cases ZsetOp.increased arith (scores key elem) increment with
      | none => rfl
      | some score => exact Scores.set_of_ne _ _ _ hne
  | zrem key elems =>
      change other ≠ key at hne
      rw [ZsetOp.apply]
      induction elems generalizing scores with
      | nil => rfl
      | cons elem rest ih => rw [Scores.eraseAll_cons, ih, Scores.set_of_ne _ _ _ hne]

/-- A score stays when the pairs name no other one for its member. -/
theorem Scores.setAll_kept {key elem score : Bytes} {pairs : List (Bytes × Bytes)}
    {scores : Scores} (hpairs : ∀ pair ∈ pairs, pair.2 = elem → pair.1 = score)
    (hscore : scores key elem = some score) :
    scores.setAll key pairs key elem = some score := by
  induction pairs generalizing scores with
  | nil => exact hscore
  | cons pair rest ih =>
      rw [Scores.setAll_cons]
      apply ih fun other hother => hpairs other (List.mem_cons_of_mem _ hother)
      rw [Scores.set_key]
      split_ifs with helem
      · rw [hpairs pair List.mem_cons_self helem.symm]
      · exact hscore

theorem Scores.setAll_mem {key : Bytes} {pairs : List (Bytes × Bytes)}
    (hagree : ∀ pair ∈ pairs, ∀ other ∈ pairs, pair.2 = other.2 → pair.1 = other.1)
    {scores : Scores} {pair : Bytes × Bytes} (hmem : pair ∈ pairs) :
    scores.setAll key pairs key pair.2 = some pair.1 := by
  induction pairs generalizing scores with
  | nil => cases hmem
  | cons head rest ih =>
      rw [Scores.setAll_cons]
      rcases List.mem_cons.mp hmem with rfl | hrest
      · apply Scores.setAll_kept
        · exact fun other hother heq =>
            hagree other (List.mem_cons_of_mem _ hother) pair hmem heq
        · rw [Scores.set_key, if_pos rfl]
      · exact ih (fun left hleft right hright => hagree left (List.mem_cons_of_mem _ hleft)
          right (List.mem_cons_of_mem _ hright)) hrest

theorem Scores.setAll_not_mem {key elem : Bytes} {pairs : List (Bytes × Bytes)}
    {scores : Scores} (helem : ∀ pair ∈ pairs, pair.2 ≠ elem) :
    scores.setAll key pairs key elem = scores key elem := by
  induction pairs generalizing scores with
  | nil => rfl
  | cons pair rest ih =>
      rw [Scores.setAll_cons, ih fun other hother => helem other (List.mem_cons_of_mem _ hother),
        Scores.set_key, if_neg (helem pair List.mem_cons_self).symm]

/-! ## The commands -/

theorem scorePairs_flatMap (pairs : List (Bytes × Bytes)) :
    scorePairs (pairs.flatMap fun pair => [pair.1, pair.2]) = .ok pairs := by
  induction pairs with
  | nil => rfl
  | cons pair rest ih =>
      rw [List.flatMap_cons]
      change (scorePairs (rest.flatMap fun pair => [pair.1, pair.2])).map _ = _
      rw [ih]
      rfl

/-- The records that `zadd` writes: two for each pair that changes a score. -/
def zaddWrites (key : Bytes) (store : Store) (pairs : List (Bytes × Bytes)) :
    List (Bytes × Bytes) :=
  (pairs.filter fun pair =>
    decide (store.get (getZsetKeyElem key pair.2) ≠ some pair.1)).flatMap fun pair =>
      [(getZsetKeySocre key pair.1, pair.2), (getZsetKeyElem key pair.2, pair.1)]

theorem zaddPairs_writes (key : Bytes) (store : Store) (pairs putKvs : List (Bytes × Bytes))
    (removeKeys : List Bytes) (addedCount : ℕ) :
    (zaddPairs key store pairs putKvs removeKeys addedCount).1 =
      putKvs ++ zaddWrites key store pairs := by
  induction pairs generalizing putKvs removeKeys addedCount with
  | nil => simp [zaddPairs, zaddWrites]
  | cons pair rest ih =>
      obtain ⟨score, elem⟩ := pair
      rw [zaddPairs, zaddWrites, List.filter_cons]
      dsimp only
      cases hscore : store.get (getZsetKeyElem key elem) with
      | none => 
          rw [if_pos (by simp), List.flatMap_cons, ← zaddWrites, ← List.append_assoc]
          exact ih _ _ _
      | some originalScore =>
          dsimp only
          by_cases hsame : originalScore = score
          · rw [if_pos hsame, if_neg (by simpa using hsame), ← zaddWrites]
            exact ih _ _ _
          · rw [if_neg hsame, if_pos (by simpa using hsame), List.flatMap_cons, ← zaddWrites,
              ← List.append_assoc]
            exact ih _ _ _

theorem mem_zaddWrites {key : Bytes} {store : Store} {pairs : List (Bytes × Bytes)}
    {kv : Bytes × Bytes} :
    kv ∈ zaddWrites key store pairs ↔
      ∃ pair ∈ pairs, store.get (getZsetKeyElem key pair.2) ≠ some pair.1 ∧
        (kv = (getZsetKeySocre key pair.1, pair.2) ∨
          kv = (getZsetKeyElem key pair.2, pair.1)) := by
  simp only [zaddWrites, List.mem_flatMap, List.mem_filter, decide_eq_true_eq, List.mem_cons,
    List.not_mem_nil, or_false, and_assoc]

/-- No key of an index is the key of the set itself. -/
private theorem getZsetKeyElem_ne_key {key : Bytes} (hkey : 95 ∉ key) (elem : Bytes) :
    getZsetKeyElem key elem ≠ key := by
  intro heq
  apply hkey
  rw [← heq, getZsetKeyElem_eq]
  simp

private theorem getZsetScorePreffix_ne_key {key : Bytes} (hkey : 95 ∉ key) (slot : Bytes) :
    getZsetScorePreffix key ++ slot ≠ key := by
  intro heq
  apply hkey
  rw [← heq, getZsetScorePreffix_append]
  simp

namespace HoldsZsets

variable {store : Store} {scores : Scores} {key : Bytes} (arith : DoubleArith)

/-- Two members of one set never have the same score. -/
theorem apart (hholds : HoldsZsets store scores) (hkey : 95 ∉ key) : Apart (scores key) := by
  intro elem elem' score score' hscore hscore' heq
  have hget := (hholds.index key hkey _ elem).mpr ⟨score, hscore, rfl⟩
  have hget' := (hholds.index key hkey _ elem').mpr ⟨score', hscore', heq.symm⟩
  rw [hget] at hget'
  exact Option.some.inj hget'

/-- The batch of `zadd` leaves both indexes inverse to each other. -/
private theorem zadd_batch (hholds : HoldsZsets store scores) (hkey : 95 ∉ key)
    {pairs kvs : List (Bytes × Bytes)} (hscore : ∀ pair ∈ pairs, pair.1 ≠ [])
    (hkeeps : (ZsetOp.zadd key pairs).Keeps arith scores)
    (hkvs : ∀ kv, kv ∈ kvs → kv.1 = key ∨ kv ∈ zaddWrites key store pairs)
    (hwrites : ∀ kv ∈ zaddWrites key store pairs, kv ∈ kvs) :
    HoldsZsets (store.putBatch kvs) (scores.setAll key pairs) := by
  obtain ⟨hapart, helem, hagree, htaken⟩ := hkeeps
  have hset := fun pair hmem => @Scores.setAll_mem key pairs hagree scores pair hmem
  -- What the batch writes to the record of a member, and to that of a score.
  have helemWrite : ∀ elem kv, kv ∈ kvs → kv.1 = getZsetKeyElem key elem →
      ∃ pair ∈ pairs, scores key pair.2 ≠ some pair.1 ∧ pair.2 = elem ∧ pair.1 = kv.2 := by
    intro elem kv hmem hfirst
    rcases hkvs kv hmem with hown | hwrite
    · exact absurd (hfirst.symm.trans hown) (getZsetKeyElem_ne_key hkey elem)
    · obtain ⟨pair, hpair, hchanged, rfl | rfl⟩ := mem_zaddWrites.mp hwrite
      · exact absurd hfirst.symm (getZsetKeyElem_ne_score hkey hkey elem _)
      · rw [hholds.members key hkey] at hchanged
        exact ⟨pair, hpair, hchanged, (getZsetKeyElem_inj hkey hkey hfirst).2, rfl⟩
  have hslotWrite : ∀ slot kv, kv ∈ kvs → kv.1 = getZsetScorePreffix key ++ slot →
      ∃ pair ∈ pairs, scores key pair.2 ≠ some pair.1 ∧ formattedScore pair.1 = slot ∧
        pair.2 = kv.2 := by
    intro slot kv hmem hfirst
    rcases hkvs kv hmem with hown | hwrite
    · exact absurd (hfirst.symm.trans hown) (getZsetScorePreffix_ne_key hkey slot)
    · obtain ⟨pair, hpair, hchanged, rfl | rfl⟩ := mem_zaddWrites.mp hwrite
      · rw [hholds.members key hkey] at hchanged
        exact ⟨pair, hpair, hchanged, (getZsetScorePreffix_inj hkey hkey hfirst).2, rfl⟩
      · exact absurd hfirst (getZsetKeyElem_ne_score hkey hkey _ slot)
  apply hholds.update hkey
  · intro other hother
    apply Store.get_putBatch_of_not_mem
    intro hmem
    obtain ⟨kv, hkv, rfl⟩ := List.mem_map.mp hmem
    apply hother
    rcases hkvs kv hkv with hown | hwrite
    · exact Or.inl hown
    · obtain ⟨pair, -, -, rfl | rfl⟩ := mem_zaddWrites.mp hwrite
      · exact Or.inr (Or.inr ⟨_, rfl⟩)
      · exact Or.inr (Or.inl ⟨_, rfl⟩)
  · exact fun other hne => ZsetOp.apply_of_ne arith (.zadd key pairs) scores hne
  · intro elem
    by_cases hnamed : ∃ pair ∈ pairs, scores key pair.2 ≠ some pair.1 ∧ pair.2 = elem
    · obtain ⟨pair, hpair, hchanged, rfl⟩ := hnamed
      rw [hset pair hpair]
      apply Store.get_putBatch_of_mem _ (hscore pair hpair)
      · apply hwrites
        rw [← hholds.members key hkey] at hchanged
        exact mem_zaddWrites.mpr ⟨pair, hpair, hchanged, Or.inr rfl⟩
      · intro kv hkv hfirst
        obtain ⟨other, hother, -, hsame, hvalue⟩ := helemWrite _ kv hkv hfirst
        rw [← hvalue]
        exact (hagree pair hpair other hother hsame.symm).symm
    · rw [Store.get_putBatch_of_not_mem, hholds.members key hkey]
      · by_cases hmem : ∃ pair ∈ pairs, pair.2 = elem
        · obtain ⟨pair, hpair, rfl⟩ := hmem
          rw [hset pair hpair]
          by_contra hchanged
          exact hnamed ⟨pair, hpair, hchanged, rfl⟩
        · rw [Scores.setAll_not_mem fun pair hpair heq => hmem ⟨pair, hpair, heq⟩]
      · intro hmem
        obtain ⟨kv, hkv, hfirst⟩ := List.mem_map.mp hmem
        obtain ⟨pair, hpair, hchanged, hsame, -⟩ := helemWrite elem kv hkv hfirst
        exact hnamed ⟨pair, hpair, hchanged, hsame⟩
  · intro slot elem
    by_cases hnamed : ∃ pair ∈ pairs, scores key pair.2 ≠ some pair.1 ∧
        formattedScore pair.1 = slot
    · obtain ⟨pair, hpair, hchanged, hslot⟩ := hnamed
      have hget : (store.putBatch kvs).get (getZsetScorePreffix key ++ slot) =
          some pair.2 := by
        apply Store.get_putBatch_of_mem _ (helem pair hpair)
        · apply hwrites
          rw [← hholds.members key hkey] at hchanged
          rw [← hslot]
          exact mem_zaddWrites.mpr ⟨pair, hpair, hchanged, Or.inl rfl⟩
        · intro kv hkv hfirst
          obtain ⟨other, hother, -, hsame, hvalue⟩ := hslotWrite slot kv hkv hfirst
          rw [← hvalue]
          exact hapart _ _ _ _ (hset other hother) (hset pair hpair)
            (hsame.trans hslot.symm)
      rw [hget, Option.some.injEq]
      constructor
      · rintro rfl
        exact ⟨pair.1, hset pair hpair, hslot⟩
      · rintro ⟨score, hvalue, heq⟩
        exact hapart _ _ _ _ (hset pair hpair) hvalue (hslot.trans heq.symm)
    · -- Nothing is written to the score, so its member is the one from before.
      rw [Store.get_putBatch_of_not_mem, hholds.index key hkey]
      · have hsame : ∀ elem score, scores.setAll key pairs key elem = some score →
            formattedScore score = slot → scores key elem = some score := by
          intro elem score hvalue heq
          by_cases hmem : ∃ pair ∈ pairs, pair.2 = elem
          · obtain ⟨pair, hpair, rfl⟩ := hmem
            obtain rfl := Option.some.inj ((hset pair hpair).symm.trans hvalue)
            by_contra hchanged
            exact hnamed ⟨pair, hpair, hchanged, heq⟩
          · rwa [Scores.setAll_not_mem fun pair hpair heq => hmem ⟨pair, hpair, heq⟩]
              at hvalue
        constructor
        · rintro ⟨score, hvalue, rfl⟩
          obtain ⟨elem', score', hvalue', heq⟩ := htaken elem score hvalue
          obtain rfl := hholds.apart hkey _ _ _ _ (hsame elem' score' hvalue' heq) hvalue heq
          exact ⟨score', hvalue', heq⟩
        · rintro ⟨score, hvalue, heq⟩
          exact ⟨score, hsame elem score hvalue heq, heq⟩
      · intro hmem
        obtain ⟨kv, hkv, hfirst⟩ := List.mem_map.mp hmem
        obtain ⟨pair, hpair, hchanged, hslot, -⟩ := hslotWrite slot kv hkv hfirst
        exact hnamed ⟨pair, hpair, hchanged, hslot⟩

/-- A member leaves with its two records. -/
private theorem erase (hholds : HoldsZsets store scores) (hkey : 95 ∉ key)
    {elem score : Bytes} (hscore : scores key elem = some score) :
    HoldsZsets ((store.remove (getZsetKeyElem key elem)).remove (getZsetKeySocre key score))
      (scores.set key elem none) := by
  rw [getZsetKeySocre_eq]
  apply hholds.update hkey
  · intro other hother
    rw [Store.get_remove_of_ne, Store.get_remove_of_ne]
    · rintro rfl
      exact hother (Or.inr (Or.inl ⟨_, rfl⟩))
    · rintro rfl
      exact hother (Or.inr (Or.inr ⟨_, rfl⟩))
  · exact fun other hne => Scores.set_of_ne _ _ _ hne
  · intro elem'
    rw [Store.get_remove_of_ne _ (getZsetKeyElem_ne_score hkey hkey _ _), Store.get_remove,
      Scores.set_key]
    by_cases helem : elem' = elem
    · rw [helem, if_pos rfl, if_pos rfl]
    · rw [if_neg helem, if_neg fun heq => helem (getZsetKeyElem_inj hkey hkey heq).2]
      exact hholds.members key hkey elem'
  · intro slot elem'
    rw [Store.get_remove]
    by_cases hslot : slot = formattedScore score
    · rw [hslot, if_pos rfl]
      constructor
      · exact fun hnone => absurd hnone.symm (Option.some_ne_none _)
      · rintro ⟨score', hvalue, heq⟩
        rw [Scores.set_key] at hvalue
        split_ifs at hvalue with helem
        exact absurd (hholds.apart hkey _ _ _ _ hvalue hscore heq) helem
    · rw [if_neg fun heq => hslot (getZsetScorePreffix_inj hkey hkey heq).2,
        Store.get_remove_of_ne _ (getZsetKeyElem_ne_score hkey hkey _ _).symm,
        hholds.index key hkey]
      have hother : ∀ score', scores.set key elem none key elem' = some score' ↔
          scores key elem' = some score' ∧ elem' ≠ elem := by
        intro score'
        rw [Scores.set_key]
        split_ifs with helem <;> simp [helem]
      constructor
      · rintro ⟨score', hvalue, heq⟩
        refine ⟨score', (hother score').mpr ⟨hvalue, ?_⟩, heq⟩
        rintro rfl
        rw [hscore] at hvalue
        exact hslot (Option.some.inj hvalue ▸ heq.symm)
      · rintro ⟨score', hvalue, heq⟩
        exact ⟨score', ((hother score').mp hvalue).1, heq⟩

/-- A member comes with a score that no other member has. -/
private theorem insert (hholds : HoldsZsets store scores) (hkey : 95 ∉ key)
    {elem score : Bytes} (helem : elem ≠ []) (hscore : score ≠ [])
    (hnew : scores key elem = none)
    (hapart : Apart (scores.set key elem (some score) key)) :
    HoldsZsets ((store.put (getZsetKeyElem key elem) score).put (getZsetKeySocre key score) elem)
      (scores.set key elem (some score)) := by
  have hself : scores.set key elem (some score) key elem = some score := by
    rw [Scores.set_key, if_pos rfl]
  rw [getZsetKeySocre_eq]
  apply hholds.update hkey
  · intro other hother
    rw [Store.get_put_of_ne, Store.get_put_of_ne]
    · rintro rfl
      exact hother (Or.inr (Or.inl ⟨_, rfl⟩))
    · rintro rfl
      exact hother (Or.inr (Or.inr ⟨_, rfl⟩))
  · exact fun other hne => Scores.set_of_ne _ _ _ hne
  · intro elem'
    rw [Store.get_put_of_ne _ _ (getZsetKeyElem_ne_score hkey hkey _ _)]
    by_cases hsame : elem' = elem
    · rw [hsame, hself, Store.get_put_self _ _ _ hscore]
    · rw [Store.get_put_of_ne _ _ fun heq => hsame (getZsetKeyElem_inj hkey hkey heq).2,
        Scores.set_key, if_neg hsame]
      exact hholds.members key hkey elem'
  · intro slot elem'
    by_cases hslot : slot = formattedScore score
    · rw [hslot, Store.get_put_self _ _ _ helem, Option.some.injEq]
      constructor
      · rintro rfl
        exact ⟨score, hself, rfl⟩
      · rintro ⟨score', hvalue, heq⟩
        exact hapart _ _ _ _ hself hvalue heq.symm
    · rw [Store.get_put_of_ne _ _ fun heq => hslot (getZsetScorePreffix_inj hkey hkey heq).2,
        Store.get_put_of_ne _ _ (getZsetKeyElem_ne_score hkey hkey _ _).symm,
        hholds.index key hkey]
      constructor
      · rintro ⟨score', hvalue, heq⟩
        have hne : elem' ≠ elem := by
          rintro rfl
          rw [hnew] at hvalue
          cases hvalue
        exact ⟨score', by rw [Scores.set_key, if_neg hne, hvalue], heq⟩
      · rintro ⟨score', hvalue, heq⟩
        rw [Scores.set_key] at hvalue
        split_ifs at hvalue with hsame
        · rw [← Option.some.inj hvalue] at heq
          exact absurd heq.symm hslot
        · exact ⟨score', hvalue, heq⟩

/-- A member gets another score. -/
private theorem rescore (hholds : HoldsZsets store scores) (hkey : 95 ∉ key)
    {elem score newScore : Bytes} (helem : elem ≠ []) (hscore : scores key elem = some score)
    (hne : newScore ≠ []) (hapart : Apart (scores.set key elem (some newScore) key)) :
    HoldsZsets (((store.remove (getZsetKeySocre key score)).put (getZsetKeyElem key elem)
      newScore).put (getZsetKeySocre key newScore) elem)
      (scores.set key elem (some newScore)) := by
  have hset : (scores.set key elem none).set key elem (some newScore) =
      scores.set key elem (some newScore) := by
    simp [Scores.set]
  have hinsert := (hholds.erase hkey hscore).insert hkey helem hne
    (by rw [Scores.set_key, if_pos rfl]) (by rwa [hset])
  have hstore : ((store.remove (getZsetKeyElem key elem)).remove
        (getZsetKeySocre key score)).put (getZsetKeyElem key elem) newScore =
      (store.remove (getZsetKeySocre key score)).put (getZsetKeyElem key elem) newScore := by
    apply Store.ext_get
    intro other
    by_cases hother : other = getZsetKeyElem key elem
    · rw [hother, Store.get_put_self _ _ _ hne, Store.get_put_self _ _ _ hne]
    · rw [Store.get_put_of_ne _ _ hother, Store.get_put_of_ne _ _ hother, Store.get_remove,
        Store.get_remove_of_ne _ hother, Store.get_remove]
  rwa [hset, hstore] at hinsert

private theorem zrem_loop (hholds : HoldsZsets store scores) (hkey : 95 ∉ key)
    (elems : List Bytes) (removedCount : ℕ) :
    HoldsZsets (zremElems key elems store removedCount).1 (scores.eraseAll key elems) := by
  induction elems generalizing store scores removedCount with
  | nil => exact hholds
  | cons elem rest ih =>
      rw [zremElems, Scores.eraseAll_cons, hholds.members key hkey]
      cases hscore : scores key elem with
      | none =>
          have hsame : scores.set key elem none = scores := by
            rw [Scores.set, ← hscore, Function.update_eq_self, Function.update_eq_self]
          rw [hsame]
          exact ih hholds removedCount
      | some score => exact ih (hholds.erase hkey hscore) _

/-- One operation. -/
theorem step (hholds : HoldsZsets store scores) {op : ZsetOp} (hdomain : op.InDomain)
    (hkeeps : op.Keeps arith scores) (now : ℤ) :
    HoldsZsets ((op.command arith).run now store).1 (op.apply arith scores) := by
  cases op with
  | zadd key pairs =>
      obtain ⟨hkey, hscore⟩ := hdomain
      rw [ZsetOp.command, ZsetOp.apply, redisZadd, scorePairs_flatMap]
      dsimp only
      rw [run_writeCommand (hholds.expire key hkey)]
      dsimp only
      rw [zaddPairs_writes]
      apply hholds.zadd_batch arith hkey hscore hkeeps
      · intro kv hmem
        rcases List.mem_append.mp hmem with hmem | hmem
        · left
          split_ifs at hmem
          · cases hmem
          · rw [List.mem_singleton.mp hmem]
        · exact Or.inr hmem
      · exact fun kv hmem => List.mem_append_right _ hmem
  | zincrby key increment elem =>
      obtain ⟨hapart, helem⟩ := hkeeps
      have hnumber := fun number => (isDigit_decimal number).1
      change Apart ((ZsetOp.zincrby key increment elem).apply arith scores key) at hapart
      rw [ZsetOp.command, redisZincrby, run_writeCommand (hholds.expire key hdomain)]
      rw [ZsetOp.apply] at hapart ⊢
      dsimp only
      rw [hholds.members key hdomain]
      cases hscore : scores key elem with
      | none =>
          rw [hscore] at hapart
          unfold ZsetOp.increased at hapart ⊢
          dsimp only at hapart ⊢
          cases hincrement : arith.stod increment with
          | error err => exact hholds
          | ok increment =>
              rw [hincrement] at hapart
              exact hholds.insert hdomain helem (hnumber _) hscore hapart
      | some score =>
          rw [hscore] at hapart
          unfold ZsetOp.increased at hapart ⊢
          dsimp only at hapart ⊢
          cases hnumberOf : stol score with
          | error err => exact hholds
          | ok original =>
              cases hincrement : arith.stod increment with
              | error err => exact hholds
              | ok increment =>
                  rw [hnumberOf, hincrement] at hapart
                  exact hholds.rescore hdomain helem hscore (hnumber _) hapart
  | zrem key elems =>
      rw [ZsetOp.command, ZsetOp.apply]
      cases elems with
      | nil => exact hholds
      | cons elem rest =>
          rw [redisZrem, run_takeCommand (hholds.expire key hdomain)]
          exact hholds.zrem_loop hdomain (elem :: rest) 0

end HoldsZsets

/-! ## The answers -/

/-- What the read commands say of a sorted set: the members are listed once each, counted,
and have the scores that were set. -/
structure ZsetAnswers (store : Store) (key : Bytes) (scores : Bytes → Option Bytes) (now : ℤ) :
    Prop where
  /-- The records of members and of scores are inverse to each other. -/
  inverse : ∀ elem slot, store.get (getZsetScorePreffix key ++ slot) = some elem ↔
    ∃ score, store.get (getZsetKeyElem key elem) = some score ∧ formattedScore score = slot
  zscore : ∀ elem, (redisZscore key elem).run now store =
    (store, .ok ((scores elem).elim nilReply bulkReply))
  listed : ∃ members : List Bytes, members.Nodup ∧
    (∀ elem, elem ∈ members ↔ (scores elem).isSome) ∧
    (redisZcard key).run now store = (store, .ok (intReply members.length)) ∧
    (redisZrange [ascii "ZRANGE", key, ascii "0", ascii "-1"]).run now store =
      (store, .ok (arrayReply members))

/-- The range from the first to the last element is everything. -/
theorem rangeSlice_all (elements : List Bytes) (hne : elements ≠ []) :
    rangeSlice elements 0 (-1) = arrayReply elements := by
  have hlength := List.length_pos_iff.mpr hne
  unfold rangeSlice
  dsimp only
  rw [if_neg (lt_irrefl 0), if_neg (lt_irrefl 0), if_pos (by decide : (-1 : ℤ) < 0)]
  have hstop : (if (-1 + (elements.length : ℤ)) < 0 ∨
      (elements.length : ℤ) ≤ -1 + elements.length then (elements.length : ℤ) - 1
      else -1 + elements.length) = elements.length - 1 := by
    rw [if_neg (by omega)]
    omega
  rw [hstop, if_neg (by omega), Int.toNat_zero, List.drop_zero, List.take_of_length_le]
  omega

/-- All members, in the order of the records of the scores. -/
theorem run_redisZrange_all {key : Bytes} {store : Store}
    (hexpire : store.get (getExplireKey key) = none) (now : ℤ) :
    (redisZrange [ascii "ZRANGE", key, ascii "0", ascii "-1"]).run now store =
      (store, .ok (arrayReply ((store.scan (getZsetScorePreffix key)).map Prod.snd))) := by
  have hstart : stoi (ascii "0") = .ok 0 := by decide
  have hstop : stoi (ascii "-1") = .ok (-1) := by decide
  rw [redisZrange]
  dsimp only
  rw [hstart, hstop]
  change (readCommand _ _ _ _).run now store = _
  rw [run_readCommand hexpire]
  split_ifs with hempty
  · rw [hempty]
  · rw [rangeSlice_all _ hempty]

theorem HoldsZsets.answers {store : Store} {scores : Scores} (hholds : HoldsZsets store scores)
    {key : Bytes} (hkey : 95 ∉ key) (now : ℤ) :
    ZsetAnswers store key (scores key) now where
  inverse := by
    intro elem slot
    rw [hholds.index key hkey, hholds.members key hkey]
  zscore := by
    intro elem
    rw [redisZscore, run_readCommand (hholds.expire key hkey), hholds.members key hkey]
    cases scores key elem <;> rfl
  listed := by
    have hscan : ∀ record, record ∈ store.scan (getZsetScorePreffix key) ↔
        ∃ score, scores key record.2 = some score ∧
          record.1 = getZsetScorePreffix key ++ formattedScore score := by
      rintro ⟨name, elem⟩
      rw [Store.mem_scan]
      constructor
      · rintro ⟨⟨slot, rfl⟩, hget⟩
        obtain ⟨score, hscore, rfl⟩ := (hholds.index key hkey slot elem).mp hget
        exact ⟨score, hscore, rfl⟩
      · rintro ⟨score, hscore, rfl⟩
        exact ⟨List.prefix_append _ _,
          (hholds.index key hkey _ elem).mpr ⟨score, hscore, rfl⟩⟩
    refine ⟨(store.scan (getZsetScorePreffix key)).map Prod.snd, ?_, ?_, ?_, ?_⟩
    · rw [List.Nodup, List.pairwise_map]
      refine (store.scan_ascending _).imp_of_mem ?_
      intro left right hleft hright hlt heq
      obtain ⟨score, hscore, hname⟩ := (hscan left).mp hleft
      obtain ⟨score', hscore', hname'⟩ := (hscan right).mp hright
      rw [heq, hscore'] at hscore
      rw [hname, hname', Option.some.inj hscore] at hlt
      exact hlt.false
    · intro elem
      rw [List.mem_map, Option.isSome_iff_exists]
      constructor
      · rintro ⟨record, hrecord, rfl⟩
        obtain ⟨score, hscore, -⟩ := (hscan record).mp hrecord
        exact ⟨score, hscore⟩
      · rintro ⟨score, hscore⟩
        exact ⟨(_, elem), (hscan _).mpr ⟨score, hscore, rfl⟩, rfl⟩
    · rw [redisZcard, run_readCommand (hholds.expire key hkey), List.length_map]
    · exact run_redisZrange_all (hholds.expire key hkey) now

/-- After every sequence of commands that keep the scores apart, both indexes of every
sorted set are inverse to each other and the answers are those of the scores set. -/
theorem sorted_sets_consistent (arith : DoubleArith) {ops : List (ℤ × ZsetOp)}
    (hdomain : ∀ op ∈ ops, op.2.InDomain)
    (hkeeps : AllowedRun (fun op scores => (op.apply arith scores, []))
      (fun op scores => op.Keeps arith scores) ops fun _ _ => none)
    {key : Bytes} (hkey : 95 ∉ key) (now : ℤ) :
    ZsetAnswers (runCommands (ops.map fun op => (op.1, op.2.command arith)) ∅).1 key
      (ops.foldl (fun scores op => op.2.apply arith scores) (fun _ _ => none) key) now := by
  have hstart : HoldsZsets ∅ fun _ _ => none :=
    { expire := fun _ _ => rfl
      members := fun _ _ _ => rfl
      index := by
        intro key _ slot elem
        constructor
        · exact fun hsome => absurd hsome.symm (Option.some_ne_none _)
        · rintro ⟨score, hscore, -⟩
          cases hscore }
  have hstep : ∀ (op : ZsetOp) store scores now, HoldsZsets store scores →
      op.InDomain ∧ op.Keeps arith scores →
        HoldsZsets ((op.command arith).run now store).1 (op.apply arith scores) :=
    fun op store scores now hholds hallowed => hholds.step arith hallowed.1 hallowed.2 now
  have hend := runCommands_represents _ _ _ hstep hstart (hkeeps.and hdomain)
  rw [runSpec_fst] at hend
  exact hend.answers hkey now

/-- A member gets a score and another one, which `zincrby` computes. -/
theorem sorted_sets_consistent_sample :
    ZsetAnswers (runCommands ([(0, ZsetOp.zadd (ascii "k") [(ascii "1", ascii "a")]),
        (1, .zincrby (ascii "k") (ascii "5") (ascii "a"))].map fun op =>
          (op.1, op.2.command wholeArith)) ∅).1 (ascii "k")
      (fun elem => if elem = ascii "a" then some (ascii "6") else none) 4 := by
  let added : Scores := Scores.set (fun _ _ => none) (ascii "k") (ascii "a") (some (ascii "1"))
  have hadded : ∀ elem, added (ascii "k") elem =
      if elem = ascii "a" then some (ascii "1") else none :=
    fun elem => Scores.set_key _ _ _ _ _
  have hincreased : ZsetOp.increased wholeArith (some (ascii "1")) (ascii "5") =
      some (ascii "6") := by decide +kernel
  have hscores : ∀ elem, (ZsetOp.zincrby (ascii "k") (ascii "5") (ascii "a")).apply wholeArith
      added (ascii "k") elem = if elem = ascii "a" then some (ascii "6") else none := by
    intro elem
    rw [ZsetOp.apply, hadded, if_pos rfl, hincreased]
    change Scores.set _ _ _ _ _ _ = _
    rw [Scores.set_key, hadded]
    split_ifs <;> rfl
  have hsingle : ∀ {scores : Bytes → Option Bytes} {score},
      (∀ elem, scores elem = if elem = ascii "a" then some score else none) → Apart scores := by
    intro scores score htable elem elem' value value' hvalue hvalue' _
    rw [htable] at hvalue hvalue'
    split_ifs at hvalue with helem
    split_ifs at hvalue' with helem'
    exact helem.trans helem'.symm
  have hanswers := @sorted_sets_consistent wholeArith
    [(0, .zadd (ascii "k") [(ascii "1", ascii "a")]),
      (1, .zincrby (ascii "k") (ascii "5") (ascii "a"))] ?_ ⟨⟨?_, ?_⟩, ⟨?_, ?_⟩, trivial⟩
    (ascii "k") (by decide) 4
  · rw [← funext hscores]
    exact hanswers
  · intro op hmem
    rcases List.mem_pair.mp hmem with rfl | rfl
    · exact ⟨by decide, by decide⟩
    · exact (by decide : (95 : Fin 256) ∉ ascii "k")
  · exact hsingle hadded
  · refine ⟨by decide, by decide, ?_⟩
    intro elem score hscore
    cases hscore
  · exact hsingle hscores
  · exact (by decide : ascii "a" ≠ [])

/-- The old score of a member that gets another one stays, and equal scores hide a
member. -/
theorem sorted_sets_stale_score :
    (runCommands ([(0, ZsetOp.zadd (ascii "k") [(ascii "1", ascii "a")]),
        (1, .zadd (ascii "k") [(ascii "2", ascii "a")])].map (fun op =>
          (op.1, op.2.command wholeArith)) ++
        [(2, redisZcard (ascii "k")),
          (2, redisZrange [ascii "ZRANGE", ascii "k", ascii "0", ascii "-1"])]) ∅).2 =
      [.ok (ascii ":1\r\n"), .ok (ascii ":1\r\n"), .ok (ascii ":2\r\n"),
        .ok (ascii "*2\r\n$1\r\na\r\n$1\r\na\r\n")] ∧
    (runCommands ([(0, ZsetOp.zadd (ascii "k") [(ascii "1", ascii "a"),
          (ascii "1", ascii "b")])].map (fun op => (op.1, op.2.command wholeArith)) ++
        [(1, redisZcard (ascii "k"))]) ∅).2 =
      [.ok (ascii ":2\r\n"), .ok (ascii ":1\r\n")] := by
  decide +kernel

end KopiDb.Redis

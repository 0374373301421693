import KopiDb.Redis.Ranks
import KopiDb.Redis.Sets
import KopiDb.Redis.Hashes

/-!
# What is left of a deleted key

`redis_del` removes the record of the key, its expiry time and, if the record is that of a
hash, the fields that the record lists.  The members of sets and sorted sets stay.
-/

namespace KopiDb.Redis

/-- The fields that the record of a hash lists. -/
def listedFields (key : Bytes) (store : Store) : List Bytes :=
  match store.get key with
  | none => []
  | some value =>
      if isValueHash value then
        split (value.drop redisHashValuePreffix.length) redisFieldSeparator
      else []

/-- What all records of the members of a key start with. -/
def memberPrefixes (key : Bytes) : List Bytes :=
  [getHashFiledKey key [], getSetMemberKey key [], getZsetKeyElem key [], getZsetScorePreffix key]

/-- The store as it would be if the key had never existed. -/
def withoutKey (key : Bytes) (store : Store) : Store :=
  store.removeBatch (key :: getExplireKey key ::
    (memberPrefixes key).flatMap fun start => (store.scan start).map Prod.fst)

/-- All that a clean-up of the key must find is found by `redis_del`. -/
structure DeletedWhole (key : Bytes) (store : Store) : Prop where
  fields : ∀ field, store.get (getHashFiledKey key field) = none ∨ field ∈ listedFields key store
  members : ∀ member, store.get (getSetMemberKey key member) = none
  elems : ∀ elem, store.get (getZsetKeyElem key elem) = none
  scores : ∀ slot, store.get (getZsetScorePreffix key ++ slot) = none

/-- No request on the key, after any requests on it, is answered in another way. -/
def AnswersAlike (arith : DoubleArith) (key : Bytes) (store store' : Store) : Prop :=
  ∀ requests : List (ℤ × List Bytes), (∀ request ∈ requests, OnKey key request.2) →
    ∀ (request : List Bytes) (now : ℤ), OnKey key request →
      ((dispatch arith request).run now (runRequests arith requests store)).2 =
        ((dispatch arith request).run now (runRequests arith requests store')).2

section

variable {key : Bytes} {store : Store}

theorem get_withoutKey (other : Bytes) :
    (withoutKey key store).get other =
      if other = key ∨ other = getExplireKey key ∨ ∃ start ∈ memberPrefixes key, start <+: other
      then none else store.get other := by
  rw [withoutKey, Store.get_removeBatch]
  by_cases hrecord : other = key ∨ other = getExplireKey key ∨
      ∃ start ∈ memberPrefixes key, start <+: other
  · rw [if_pos hrecord]
    split_ifs with hremoved
    · rfl
    · rw [List.mem_cons, List.mem_cons, not_or, not_or] at hremoved
      obtain ⟨hkey, hexpire, hmembers⟩ := hremoved
      obtain ⟨start, hstart, hother⟩ := (hrecord.resolve_left hkey).resolve_left hexpire
      rw [Option.eq_none_iff_forall_ne_some]
      intro value hget
      exact hmembers (List.mem_flatMap.mpr ⟨start, hstart,
        List.mem_map.mpr ⟨(other, value), Store.mem_scan.mpr ⟨hother, hget⟩, rfl⟩⟩)
  · rw [if_neg hrecord, if_neg]
    intro hremoved
    apply hrecord
    rcases List.mem_cons.mp hremoved with hkey | hremoved
    · exact Or.inl hkey
    · refine Or.inr ((List.mem_cons.mp hremoved).imp_right fun hmember => ?_)
      obtain ⟨start, hstart, hname⟩ := List.mem_flatMap.mp hmember
      obtain ⟨⟨name, value⟩, hscan, rfl⟩ := List.mem_map.mp hname
      exact ⟨start, hstart, (Store.mem_scan.mp hscan).1⟩

private theorem get_remove_present (removed other : Bytes) :
    (if (store.get removed).isSome then store.remove removed else store).get other =
      if other = removed then none else store.get other := by
  by_cases hother : other = removed
  · rw [if_pos hother, hother]
    split_ifs with hsome
    · rw [Store.get_remove, if_pos rfl]
    · simpa using hsome
  · rw [if_neg hother]
    split_ifs
    · rw [Store.get_remove_of_ne _ hother]
    · rfl

theorem getFiledsFromHashValue_hash {value : Bytes} (hhash : isValueHash value = true) :
    getFiledsFromHashValue (some value) =
      .ok (split (value.drop redisHashValuePreffix.length) redisFieldSeparator) := by
  rw [isValueHash, List.isPrefixOf_iff_prefix] at hhash
  obtain ⟨rest, rfl⟩ := hhash
  have hlength : ¬(redisHashValuePreffix ++ rest).length < redisHashValuePreffix.length := by
    rw [List.length_append]
    omega
  rw [getFiledsFromHashValue, Option.getD_some,
    if_neg (List.append_ne_nil_of_left_ne_nil (by decide) rest), if_neg hlength]

/-- What `redis_del` removes. -/
theorem get_redisDel (op : Bytes) (now : ℤ) (other : Bytes) :
    ((redisDel [op, key]).run now store).1.get other =
      if other = key ∨ other = getExplireKey key ∨
        ∃ field ∈ listedFields key store, getHashFiledKey key field = other
      then none else store.get other := by
  have hrun : ∃ deleted, delKey store key =
      let rest := (store.removeBatch ((listedFields key store).map (getHashFiledKey key))).remove key
      (if (rest.get (getExplireKey key)).isSome then rest.remove (getExplireKey key) else rest,
        .ok deleted) := by
    rw [delKey]
    cases hget : store.get key with
    | none =>
        have hsame : store.remove key = store := by
          apply Store.ext_get
          intro other
          rw [Store.get_remove]
          split_ifs with hother
          · rw [hother, hget]
          · rfl
        have hlisted : listedFields key store = [] := by
          rw [listedFields, hget]
        rw [hlisted, List.map_nil, Store.removeBatch, List.foldl_nil, hsame]
        exact ⟨0, rfl⟩
    | some value =>
        dsimp only
        by_cases hhash : isValueHash value
        · have hlisted : listedFields key store =
              split (value.drop redisHashValuePreffix.length) redisFieldSeparator := by
            rw [listedFields, hget]
            exact if_pos hhash
          rw [if_pos hhash, getFiledsFromHashValue_hash hhash, hlisted]
          exact ⟨1, rfl⟩
        · have hlisted : listedFields key store = [] := by
            rw [listedFields, hget]
            exact if_neg hhash
          rw [if_neg hhash, hlisted]
          exact ⟨1, rfl⟩
  obtain ⟨deleted, hrun⟩ := hrun
  have hstore : ((redisDel [op, key]).run now store).1 = (delKey store key).1 := by
    change (delKeys [key] store 0).1 = _
    rw [delKeys, hrun]
    rfl
  rw [hstore, hrun, get_remove_present, Store.get_remove, Store.get_removeBatch]
  by_cases hkey : other = key
  · simp [hkey]
  · by_cases hexpire : other = getExplireKey key
    · simp [hexpire]
    · simp [hkey, hexpire]

theorem memberPrefixes_iff (key : Bytes) {other : Bytes} :
    (∃ start ∈ memberPrefixes key, start <+: other) ↔
      (∃ field, getHashFiledKey key field = other) ∨
      (∃ member, getSetMemberKey key member = other) ∨
      (∃ elem, getZsetKeyElem key elem = other) ∨
      ∃ slot, getZsetScorePreffix key ++ slot = other := by
  simp only [memberPrefixes, List.mem_cons, List.not_mem_nil, or_false, exists_eq_or_imp,
    exists_eq_left, List.IsPrefix, getHashFiledKey, getSetMemberKey, getZsetKeyElem,
    List.append_nil]

/-- If nothing is left over, the store is the one that never had the key. -/
theorem DeletedWhole.eq_withoutKey (hwhole : DeletedWhole key store) (op : Bytes) (now : ℤ) :
    ((redisDel [op, key]).run now store).1 = withoutKey key store := by
  apply Store.ext_get
  intro other
  rw [get_redisDel, get_withoutKey]
  by_cases hplain : other = key ∨ other = getExplireKey key
  · rw [if_pos (hplain.imp_right Or.inl), if_pos (hplain.imp_right Or.inl)]
  · rw [not_or] at hplain
    by_cases hmember : ∃ start ∈ memberPrefixes key, start <+: other
    · rw [if_pos (Or.inr (Or.inr hmember))]
      split_ifs with hlisted
      · rfl
      · rcases (memberPrefixes_iff key).mp hmember with
          ⟨field, rfl⟩ | ⟨member, rfl⟩ | ⟨elem, rfl⟩ | ⟨slot, rfl⟩
        · exact (hwhole.fields field).resolve_right fun hmem =>
            hlisted (Or.inr (Or.inr ⟨field, hmem, rfl⟩))
        · exact hwhole.members member
        · exact hwhole.elems elem
        · exact hwhole.scores slot
    · rw [if_neg, if_neg]
      · rintro (heq | heq | hstart)
        · exact hplain.1 heq
        · exact hplain.2 heq
        · exact hmember hstart
      · rintro (heq | heq | ⟨field, -, heq⟩)
        · exact hplain.1 heq
        · exact hplain.2 heq
        · exact hmember ((memberPrefixes_iff key).mpr (Or.inl ⟨field, heq⟩))

end

/-! ## Reads of what is left -/

theorem bulkReply_ne_nilReply (value : Bytes) : bulkReply value ≠ nilReply := by
  intro heq
  have hform : bulkReply value =
      36 :: (decimal value.length ++ (ascii "\r\n" ++ (value ++ ascii "\r\n"))) := by
    simp only [bulkReply, List.append_assoc]
    rfl
  obtain ⟨hne, hdigits⟩ := isDigit_decimal value.length
  obtain ⟨first, rest, hdecimal⟩ := List.exists_cons_of_ne_nil hne
  rw [hform, hdecimal] at heq
  have hfirst : first = 45 := (List.cons.inj (List.cons.inj heq).2).1
  have hdigit := List.all_eq_true.mp hdigits first (hdecimal ▸ List.mem_cons_self)
  rw [hfirst] at hdigit
  revert hdigit
  decide

section Reads

variable {key : Bytes} {store : Store} {now : ℤ}

theorem run_redisZscore {elem : Bytes} (hexpire : store.get (getExplireKey key) = none) :
    ((redisZscore key elem).run now store).2 =
      .ok ((store.get (getZsetKeyElem key elem)).elim nilReply bulkReply) := by
  rw [redisZscore, run_readCommand hexpire]
  cases store.get (getZsetKeyElem key elem) <;> rfl

theorem run_redisZcard (hexpire : store.get (getExplireKey key) = none) :
    ((redisZcard key).run now store).2 =
      .ok (intReply (store.scan (getZsetScorePreffix key)).length) := by
  rw [redisZcard, run_readCommand hexpire]

theorem elim_bulkReply {value : Option Bytes} (heq : value.elim nilReply bulkReply = nilReply) :
    value = none := by
  cases value with
  | none => rfl
  | some value => exact absurd heq (bulkReply_ne_nilReply value)

/-- The records of members are no other records of the key. -/
theorem ne_of_memberPrefixes {other : Bytes} (hmember : ∃ start ∈ memberPrefixes key, start <+: other) :
    other ≠ key ∧ other ≠ getExplireKey key := by
  rcases (memberPrefixes_iff key).mp hmember with ⟨field, rfl⟩ | ⟨member, rfl⟩ | ⟨elem, rfl⟩ | ⟨slot, rfl⟩
  · exact ⟨getHashFiledKey_ne_key key field, getHashFiledKey_ne_expire key field⟩
  · exact ⟨getSetMemberKey_ne_key key member, getSetMemberKey_ne_expire key member⟩
  · rw [getZsetKeyElem_preffix]
    exact ⟨(getZsetKeyPreffix_ne_key key _).symm,
      ne_of_take (take_getZsetKeyPreffix _ _) (take_getExplireKey _) (by decide)⟩
  · rw [getZsetScorePreffix_eq, List.append_assoc]
    exact ⟨(getZsetKeyPreffix_ne_key key _).symm,
      ne_of_take (take_getZsetKeyPreffix _ _) (take_getExplireKey _) (by decide)⟩

/-- What `redis_del` leaves: every record of a member, but for the listed fields. -/
theorem get_redisDel_member (op : Bytes) {other : Bytes}
    (hmember : ∃ start ∈ memberPrefixes key, start <+: other)
    (hlisted : ∀ field ∈ listedFields key store, getHashFiledKey key field ≠ other) :
    ((redisDel [op, key]).run now store).1.get other = store.get other := by
  obtain ⟨hkey, hexpire⟩ := ne_of_memberPrefixes hmember
  rw [get_redisDel, if_neg]
  rintro (heq | heq | ⟨field, hfield, heq⟩)
  · exact hkey heq
  · exact hexpire heq
  · exact hlisted field hfield heq

end Reads

/-- `redis_del` removes a key with all that it holds exactly if the key holds no members of a set
or of a sorted set, and no field of a hash that its record does not list. -/
theorem del_whole_iff (arith : DoubleArith) (key : Bytes) (store : Store) (now : ℤ) :
    AnswersAlike arith key ((redisDel [ascii "DEL", key]).run now store).1 (withoutKey key store) ↔
      DeletedWhole key store := by
  constructor
  · intro halike
    have hexpire : ((redisDel [ascii "DEL", key]).run now store).1.get (getExplireKey key) =
        none := by
      rw [get_redisDel, if_pos (Or.inr (Or.inl rfl))]
    have hexpire' : (withoutKey key store).get (getExplireKey key) = none := by
      rw [get_withoutKey, if_pos (Or.inr (Or.inl rfl))]
    have hgone : ∀ {other}, (∃ start ∈ memberPrefixes key, start <+: other) →
        (withoutKey key store).get other = none := by
      intro other hmember
      rw [get_withoutKey, if_pos (Or.inr (Or.inr hmember))]
    have hreply : ∀ request, OnKey key request →
        ((dispatch arith request).run 0 ((redisDel [ascii "DEL", key]).run now store).1).2 =
          ((dispatch arith request).run 0 (withoutKey key store)).2 :=
      fun request hrequest => halike [] (List.forall_mem_nil _) request 0 hrequest
    refine ⟨fun field => ?_, fun member => ?_, fun elem => ?_, fun slot => ?_⟩
    · by_cases hlisted : field ∈ listedFields key store
      · exact Or.inr hlisted
      · left
        have hmember := (memberPrefixes_iff key).mpr (Or.inl ⟨field, rfl⟩)
        have hget := hreply [ascii "HGET", key, field] (by rintro _ ⟨⟩; rfl)
        change ((redisHget key field).run 0 _).2 = ((redisHget key field).run 0 _).2 at hget
        rw [run_redisHget hexpire, run_redisHget hexpire', hgone hmember,
          get_redisDel_member _ hmember] at hget
        · exact elim_bulkReply (Except.ok.inj hget)
        · exact fun other hother heq => hlisted (getHashFiledKey_inj.mp heq ▸ hother)
    · have hmember := (memberPrefixes_iff key).mpr (Or.inr (Or.inl ⟨member, rfl⟩))
      have hget := hreply [ascii "SISMEMBER", key, member] (by rintro _ ⟨⟩; rfl)
      change ((redisSismember key member).run 0 _).2 = ((redisSismember key member).run 0 _).2
        at hget
      rw [run_redisSismember hexpire, run_redisSismember hexpire', hgone hmember,
        get_redisDel_member _ hmember] at hget
      · have hcount := intReply_inj (Except.ok.inj hget)
        cases hvalue : store.get (getSetMemberKey key member) with
        | none => rfl
        | some value =>
            rw [hvalue] at hcount
            cases hcount
      · exact fun other _ =>
          ne_of_take (take_getHashFiledKey _ _) (take_getSetMemberKey _ _) (by decide)
    · have hmember := (memberPrefixes_iff key).mpr (Or.inr (Or.inr (Or.inl ⟨elem, rfl⟩)))
      have hget := hreply [ascii "ZSCORE", key, elem] (by rintro _ ⟨⟩; rfl)
      change ((redisZscore key elem).run 0 _).2 = ((redisZscore key elem).run 0 _).2 at hget
      rw [run_redisZscore hexpire, run_redisZscore hexpire', hgone hmember,
        get_redisDel_member _ hmember] at hget
      · exact elim_bulkReply (Except.ok.inj hget)
      · intro other _
        rw [getZsetKeyElem_preffix]
        exact ne_of_take (take_getHashFiledKey _ _) (take_getZsetKeyPreffix _ _) (by decide)
    · have hget := hreply [ascii "ZCARD", key] (by rintro _ ⟨⟩; rfl)
      change ((redisZcard key).run 0 _).2 = ((redisZcard key).run 0 _).2 at hget
      rw [run_redisZcard hexpire, run_redisZcard hexpire'] at hget
      have hlength := Int.ofNat_inj.mp (intReply_inj (Except.ok.inj hget))
      have hmember := fun slot => (memberPrefixes_iff key).mpr (Or.inr (Or.inr (Or.inr ⟨slot, rfl⟩)))
      have hempty : (withoutKey key store).scan (getZsetScorePreffix key) = [] := by
        rw [List.eq_nil_iff_forall_not_mem]
        rintro ⟨name, value⟩ hrecord
        obtain ⟨⟨slot, rfl⟩, hvalue⟩ := Store.mem_scan.mp hrecord
        rw [hgone (hmember slot)] at hvalue
        cases hvalue
      rw [hempty, List.length_nil, List.length_eq_zero_iff, List.eq_nil_iff_forall_not_mem]
        at hlength
      rw [Option.eq_none_iff_forall_ne_some]
      intro value hvalue
      refine hlength (_, value) (Store.mem_scan.mpr ⟨List.prefix_append _ slot, ?_⟩)
      rw [get_redisDel_member _ (hmember slot), hvalue]
      intro other _
      rw [getZsetScorePreffix_eq, List.append_assoc]
      exact ne_of_take (take_getHashFiledKey _ _) (take_getZsetKeyPreffix _ _) (by decide)
  · intro hwhole requests _ request time _
    rw [hwhole.eq_withoutKey]

/-- The members of a set and those of a sorted set stay, and a set that is made again starts
with them. -/
theorem del_leaves_members :
    (runCommands [(0, redisSadd [ascii "SADD", ascii "k", ascii "a"]),
        (1, redisDel [ascii "DEL", ascii "k"]), (2, redisSismember (ascii "k") (ascii "a")),
        (2, redisScard (ascii "k")), (3, redisSadd [ascii "SADD", ascii "k", ascii "b"]),
        (3, redisSmembers (ascii "k"))] ∅).2 =
      [.ok (intReply 1), .ok (intReply 1), .ok (intReply 1), .ok (intReply 0), .ok (intReply 1),
        .ok (arrayReply [ascii "a", ascii "b"])] ∧
    (runCommands [(0, redisZadd [ascii "ZADD", ascii "k", ascii "1", ascii "a"]),
        (1, redisDel [ascii "DEL", ascii "k"]), (2, redisZscore (ascii "k") (ascii "a")),
        (2, redisZcard (ascii "k"))] ∅).2 =
      [.ok (intReply 1), .ok (intReply 1), .ok (bulkReply (ascii "1")), .ok (intReply 1)] ∧
    let store := ((redisSadd [ascii "SADD", ascii "k", ascii "a"]).run 0 ∅).1
    ¬AnswersAlike wholeArith (ascii "k") ((redisDel [ascii "DEL", ascii "k"]).run 1 store).1
      (withoutKey (ascii "k") store) := by
  refine ⟨by decide +kernel, by decide +kernel, fun halike => ?_⟩
  have hreply := halike [] (List.forall_mem_nil _) [ascii "SISMEMBER", ascii "k", ascii "a"] 2
    (by rintro _ ⟨⟩; rfl)
  revert hreply
  decide +kernel

/-! ## The types -/

section Types

variable {key : Bytes} {store : Store}

/-- A string or a list is removed. -/
theorem deletedWhole_plain
    (hplain : ∀ other, (∃ start ∈ memberPrefixes key, start <+: other) → store.get other = none) :
    DeletedWhole key store where
  fields field := Or.inl (hplain _ ((memberPrefixes_iff key).mpr (Or.inl ⟨field, rfl⟩)))
  members member := hplain _ ((memberPrefixes_iff key).mpr (Or.inr (Or.inl ⟨member, rfl⟩)))
  elems elem := hplain _ ((memberPrefixes_iff key).mpr (Or.inr (Or.inr (Or.inl ⟨elem, rfl⟩))))
  scores slot := hplain _ ((memberPrefixes_iff key).mpr (Or.inr (Or.inr (Or.inr ⟨slot, rfl⟩))))

/-- A hash is removed if its fields have no separator and the last one is not empty. -/
theorem deletedWhole_hash {fields : List Bytes}
    (hget : store.get key = some (getHashValueFromFields fields))
    (hfree : ∀ field ∈ fields, redisFieldSeparator ∉ field) (hlast : fields.getLast? ≠ some [])
    (hfields : ∀ field, store.get (getHashFiledKey key field) = none ∨ field ∈ fields)
    (hmembers : ∀ member, store.get (getSetMemberKey key member) = none)
    (helems : ∀ elem, store.get (getZsetKeyElem key elem) = none)
    (hscores : ∀ slot, store.get (getZsetScorePreffix key ++ slot) = none) :
    DeletedWhole key store := by
  have hhash : isValueHash (getHashValueFromFields fields) = true := by
    rw [isValueHash, List.isPrefixOf_iff_prefix]
    exact List.prefix_append _ _
  have hlisted : listedFields key store = fields := by
    have hread := getFiledsFromHashValue_of_fields hfree hlast
    rw [getFiledsFromHashValue_hash hhash] at hread
    rw [listedFields, hget]
    exact (if_pos hhash).trans (Except.ok.inj hread)
  exact ⟨fun field => hlisted ▸ hfields field, hmembers, helems, hscores⟩

theorem HoldsSet.not_deletedWhole {members : Finset Bytes} (hholds : HoldsSet key store members)
    (hne : members.Nonempty) : ¬DeletedWhole key store := by
  intro hwhole
  obtain ⟨member, hmem⟩ := hne
  have hrecord := hholds.records member
  rw [if_pos hmem, hwhole.members] at hrecord
  cases hrecord

theorem HoldsZset.not_deletedWhole {pairs : List (Bytes × Bytes)}
    (hholds : HoldsZset key store pairs) (hne : pairs ≠ []) : ¬DeletedWhole key store := by
  intro hwhole
  obtain ⟨pair, hmem⟩ := List.exists_mem_of_ne_nil pairs hne
  have hrecord := (hholds.members _ _).mpr hmem
  rw [hwhole.elems] at hrecord
  cases hrecord

end Types

end KopiDb.Redis

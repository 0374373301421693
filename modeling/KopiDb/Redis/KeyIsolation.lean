import KopiDb.Redis.Footprint

/-!
# Commands on one key and reads of another

Nothing separates the keys that are made of two keys of users.  The commands on one key
leave the answers about the other alone exactly when no key made of the one is seen by the
reads of the other.
-/

namespace KopiDb.Redis

/-- No command on the first key writes what a read of the second one sees. -/
def Unrelated (key other : Bytes) : Prop := ∀ made, MadeKey key made → ¬SeenKey other made

/-- Whatever the store has come to contain, requests on the first key change no answer to a
read of the second one. -/
def Isolated (arith : DoubleArith) (key other : Bytes) : Prop :=
  ∀ history requests : List (ℤ × List Bytes), (∀ request ∈ requests, OnKey key request.2) →
    ∀ (read : List Bytes) (now : ℤ), ReadsKey other read →
      ((dispatch arith read).run now
          (runRequests arith requests (runRequests arith history ∅))).2 =
        ((dispatch arith read).run now (runRequests arith history ∅)).2

/-! ## Unrelated keys -/

theorem runRequests_sameOff (arith : DoubleArith) {key : Bytes}
    {requests : List (ℤ × List Bytes)} (honly : ∀ request ∈ requests, OnKey key request.2)
    (store : Store) :
    Store.SameOff (MadeKey key) (runRequests arith requests store) store := by
  induction requests generalizing store with
  | nil => exact .refl store
  | cons request rest ih =>
      obtain ⟨hrequest, hrest⟩ := List.forall_mem_cons.mp honly
      exact (ih hrest _).trans ((dispatch_within arith hrequest).run request.1 store)

theorem isolated_of_unrelated (arith : DoubleArith) {key other : Bytes}
    (hunrelated : Unrelated key other) : Isolated arith key other := by
  intro history requests honly read now hread
  apply dispatch_reply arith hread
  intro seen hseen
  exact runRequests_sameOff arith honly _ seen fun hmade => hunrelated seen hmade hseen

/-! ## Made keys that differ -/

theorem ne_of_take {left right leftTag rightTag : Bytes} (hleft : left.take 8 = leftTag)
    (hright : right.take 8 = rightTag) (htags : leftTag ≠ rightTag) : left ≠ right := by
  rintro rfl
  exact htags (hleft.symm.trans hright)

@[simp]
theorem take_getExplireKey (key : Bytes) :
    (getExplireKey key).take 8 = ascii "REDIS_EX" := rfl

@[simp]
theorem take_getHashFiledKey (key field : Bytes) :
    (getHashFiledKey key field).take 8 = ascii "REDIS_FI" := rfl

@[simp]
theorem take_getSetMemberKey (key elem : Bytes) :
    (getSetMemberKey key elem).take 8 = ascii "REDIS_SE" := rfl

@[simp]
theorem take_getZsetKeyPreffix (key rest : Bytes) :
    (getZsetKeyPreffix key ++ rest).take 8 = ascii "REDIS_SO" := rfl

theorem getExplireKey_inj {key other : Bytes} (heq : getExplireKey key = getExplireKey other) :
    key = other := (List.append_right_inj _).mp heq

theorem SeenKey.made {key seen : Bytes} (hseen : SeenKey key seen) : MadeKey key seen := by
  cases hseen with
  | plain => exact .plain
  | expire => exact .expire
  | field field => exact .field field
  | zset rest hrest => exact .zset rest
  | member elem => exact .member elem

/-- Two keys make a common key only by records of the same kind. -/
theorem MadeKey.overlap {key other made : Bytes} (hmade : MadeKey key made)
    (hother : MadeKey other made) :
    made = key ∨ made = other ∨ key = other ∨
      (∃ field field', made = getHashFiledKey key field ∧
        getHashFiledKey key field = getHashFiledKey other field') ∨
      (∃ rest rest', made = getZsetKeyPreffix key ++ rest ∧
        getZsetKeyPreffix key ++ rest = getZsetKeyPreffix other ++ rest') ∨
      ∃ elem elem', made = getSetMemberKey key elem ∧
        getSetMemberKey key elem = getSetMemberKey other elem' := by
  obtain ⟨seen, hsame, hseen⟩ : ∃ seen, made = seen ∧ MadeKey other seen :=
    ⟨made, rfl, hother⟩
  cases hmade with
  | plain => exact Or.inl rfl
  | expire =>
      cases hseen with
      | plain => exact Or.inr (Or.inl hsame)
      | expire => exact Or.inr (Or.inr (Or.inl (getExplireKey_inj hsame)))
      | field field =>
          exact absurd hsame
            (ne_of_take (take_getExplireKey _) (take_getHashFiledKey _ _) (by decide))
      | zset rest =>
          exact absurd hsame
            (ne_of_take (take_getExplireKey _) (take_getZsetKeyPreffix _ _) (by decide))
      | member elem =>
          exact absurd hsame
            (ne_of_take (take_getExplireKey _) (take_getSetMemberKey _ _) (by decide))
  | field field =>
      cases hseen with
      | plain => exact Or.inr (Or.inl hsame)
      | expire =>
          exact absurd hsame
            (ne_of_take (take_getHashFiledKey _ _) (take_getExplireKey _) (by decide))
      | field field' => exact Or.inr (Or.inr (Or.inr (Or.inl ⟨field, field', rfl, hsame⟩)))
      | zset rest =>
          exact absurd hsame
            (ne_of_take (take_getHashFiledKey _ _) (take_getZsetKeyPreffix _ _) (by decide))
      | member elem =>
          exact absurd hsame
            (ne_of_take (take_getHashFiledKey _ _) (take_getSetMemberKey _ _) (by decide))
  | zset rest =>
      cases hseen with
      | plain => exact Or.inr (Or.inl hsame)
      | expire =>
          exact absurd hsame
            (ne_of_take (take_getZsetKeyPreffix _ _) (take_getExplireKey _) (by decide))
      | field field =>
          exact absurd hsame
            (ne_of_take (take_getZsetKeyPreffix _ _) (take_getHashFiledKey _ _) (by decide))
      | zset rest' =>
          exact Or.inr (Or.inr (Or.inr (Or.inr (Or.inl ⟨rest, rest', rfl, hsame⟩))))
      | member elem =>
          exact absurd hsame
            (ne_of_take (take_getZsetKeyPreffix _ _) (take_getSetMemberKey _ _) (by decide))
  | member elem =>
      cases hseen with
      | plain => exact Or.inr (Or.inl hsame)
      | expire =>
          exact absurd hsame
            (ne_of_take (take_getSetMemberKey _ _) (take_getExplireKey _) (by decide))
      | field field =>
          exact absurd hsame
            (ne_of_take (take_getSetMemberKey _ _) (take_getHashFiledKey _ _) (by decide))
      | zset rest =>
          exact absurd hsame
            (ne_of_take (take_getSetMemberKey _ _) (take_getZsetKeyPreffix _ _) (by decide))
      | member elem' =>
          exact Or.inr (Or.inr (Or.inr (Or.inr (Or.inr ⟨elem, elem', rfl, hsame⟩))))

/-- A key that is made of another has an underscore. -/
theorem MadeKey.underscore {key made : Bytes} (hmade : MadeKey key made) (hne : made ≠ key) :
    95 ∈ made := by
  cases hmade with
  | plain => exact absurd rfl hne
  | expire =>
      apply List.mem_of_mem_take (i := 8)
      rw [take_getExplireKey]
      decide
  | field field =>
      apply List.mem_of_mem_take (i := 8)
      rw [take_getHashFiledKey]
      decide
  | zset rest =>
      apply List.mem_of_mem_take (i := 8)
      rw [take_getZsetKeyPreffix]
      decide
  | member elem =>
      apply List.mem_of_mem_take (i := 8)
      rw [take_getSetMemberKey]
      decide

theorem length_getExplireKey (key : Bytes) : key.length < (getExplireKey key).length := by
  rw [getExplireKey, List.length_append]
  exact Nat.lt_add_of_pos_left (by decide)

theorem length_getHashFiledKey (key field : Bytes) :
    key.length < (getHashFiledKey key field).length := by
  have hlength : 0 < redisFieldPrefix.length := by decide
  simp only [getHashFiledKey, List.length_append]
  omega

theorem length_getSetMemberKey (key elem : Bytes) :
    key.length < (getSetMemberKey key elem).length := by
  have hlength : 0 < redisSetPrefix.length := by decide
  simp only [getSetMemberKey, List.length_append]
  omega

theorem length_getZsetKeyPreffix (key rest : Bytes) :
    key.length < (getZsetKeyPreffix key ++ rest).length := by
  have hlength : 0 < redisSortedSetPrefix.length := by decide
  simp only [getZsetKeyPreffix, List.length_append]
  omega

/-- Keys of different lengths differ. -/
theorem ne_of_length_lt {left right : Bytes} (hlt : left.length < right.length) :
    left ≠ right := by
  rintro rfl
  exact hlt.false

/-! ## Related keys -/

section Related

variable {arith : DoubleArith} {key other : Bytes} {store : Store} {now : ℤ}

theorem run_redisSet {value : Bytes} (hexpire : store.get (getExplireKey key) = none)
    (now : ℤ) : ((redisSet key value).run now store).1 = store.put key value := by
  rw [redisSet, Command.run]
  dsimp only
  rw [Store.get_put_of_ne _ _ (getExplireKey_ne key), hexpire]
  rfl

theorem run_redisGet {value : Bytes} (hplain : store.get key = some value)
    (hexpire : store.get (getExplireKey key) = none) :
    ((redisGet key).run now store).2 = .ok (bulkReply value) := by
  rw [redisGet, Command.run]
  dsimp only
  rw [hplain, hexpire]
  rfl

theorem run_redisGet_none (hplain : store.get key = none) :
    ((redisGet key).run now store).2 = .ok nilReply := by
  rw [redisGet, Command.run]
  dsimp only
  rw [hplain]
  cases store.get (getExplireKey key) <;> rfl

theorem run_redisGet_expired {value : Bytes} (hplain : store.get key = some value)
    (hexpire : store.get (getExplireKey key) = some (ascii "1")) :
    ((redisGet key).run 2 store).2 = .ok nilReply := by
  have hexpired : isExpired (some (ascii "1")) 2 = .ok true := by decide
  rw [redisGet, Command.run]
  dsimp only
  rw [hplain, hexpire]
  dsimp only
  rw [hexpired]
  rfl

theorem run_redisHget {field : Bytes} (hexpire : store.get (getExplireKey key) = none) :
    ((redisHget key field).run now store).2 =
      .ok ((store.get (getHashFiledKey key field)).elim nilReply bulkReply) := by
  rw [redisHget, run_readCommand hexpire]
  cases store.get (getHashFiledKey key field) <;> rfl

theorem run_redisSismember {member : Bytes} (hexpire : store.get (getExplireKey key) = none) :
    ((redisSismember key member).run now store).2 =
      .ok (intReply (if (store.get (getSetMemberKey key member)).isSome then 1 else 0)) := by
  rw [redisSismember, run_readCommand hexpire]

/-- One request on the key changes no answer to a read of the other. -/
theorem Isolated.reply (hisolated : Isolated arith key other) (history : List (ℤ × List Bytes))
    (args read : List Bytes) (hargs : OnKey key args) (hread : ReadsKey other read) (now : ℤ) :
    ((dispatch arith read).run now
        ((dispatch arith args).run 0 (runRequests arith history ∅)).1).2 =
      ((dispatch arith read).run now (runRequests arith history ∅)).2 :=
  hisolated history [(0, args)] (by simpa using hargs) read now hread

/-- `SET` of the expiry record makes the other key expire. -/
theorem not_isolated_expire (hkey : key = getExplireKey other) :
    ¬Isolated arith key other := by
  intro hisolated
  have hlength : other.length < key.length := by
    rw [hkey]
    exact length_getExplireKey other
  have hne := ne_of_length_lt hlength
  have hexpire := ne_of_length_lt (hlength.trans (length_getExplireKey key))
  have hbefore : runRequests arith [(0, [ascii "SET", other, ascii "v"])] ∅ =
      (∅ : Store).put other (ascii "v") := run_redisSet rfl 0
  have hother : ((∅ : Store).put other (ascii "v")).get other = some (ascii "v") :=
    Store.get_put_self _ _ _ (by decide)
  have hmade : ∀ made, made ≠ other → ((∅ : Store).put other (ascii "v")).get made = none :=
    fun made hmade => Store.get_put_of_ne _ _ hmade
  have hreply := hisolated.reply [(0, [ascii "SET", other, ascii "v"])]
    [ascii "SET", key, ascii "1"] [ascii "GET", other] (by rintro _ ⟨⟩; rfl)
    ⟨rfl, by decide⟩ 2
  rw [hbefore] at hreply
  change ((redisGet other).run 2 ((redisSet key (ascii "1")).run 0 _).1).2 =
    ((redisGet other).run 2 _).2 at hreply
  rw [run_redisSet (hmade _ hexpire.symm), run_redisGet_expired,
    run_redisGet hother (hmade _ (getExplireKey_ne other))] at hreply
  · revert hreply
    decide
  · exact (Store.get_put_of_ne _ _ hne).trans hother
  · rw [← hkey]
    exact Store.get_put_self _ _ _ (by decide)

/-- The answers about the other key after `SET` are those of the empty store. -/
theorem Isolated.set (hisolated : Isolated arith key other) (read : List Bytes)
    (hread : ReadsKey other read) (now : ℤ) :
    ((dispatch arith read).run now ((∅ : Store).put key (ascii "v"))).2 =
      ((dispatch arith read).run now ∅).2 := by
  have hreply := hisolated.reply [] [ascii "SET", key, ascii "v"] read
    (by rintro _ ⟨⟩; rfl) hread now
  change ((dispatch arith read).run now ((redisSet key (ascii "v")).run 0 ∅).1).2 = _ at hreply
  rwa [run_redisSet rfl] at hreply

section Set

variable (hexpire : key ≠ getExplireKey other)
include hexpire

theorem put_expire (value : Bytes) :
    ((∅ : Store).put key value).get (getExplireKey other) = none :=
  Store.get_put_of_ne _ _ hexpire.symm

theorem not_isolated_field {field : Bytes} (hkey : key = getHashFiledKey other field) :
    ¬Isolated arith key other := by
  intro hisolated
  have hreply := hisolated.set [ascii "HGET", other, field] ⟨rfl, by decide⟩ 0
  change ((redisHget other field).run 0 _).2 = ((redisHget other field).run 0 _).2 at hreply
  rw [run_redisHget (put_expire hexpire _), run_redisHget rfl, ← hkey,
    Store.get_put_self _ _ _ (by decide), Store.get_empty] at hreply
  revert hreply
  decide

theorem not_isolated_member {elem : Bytes} (hkey : key = getSetMemberKey other elem) :
    ¬Isolated arith key other := by
  intro hisolated
  have hreply := hisolated.set [ascii "SISMEMBER", other, elem] ⟨rfl, by decide⟩ 0
  change ((redisSismember other elem).run 0 _).2 =
    ((redisSismember other elem).run 0 _).2 at hreply
  rw [run_redisSismember (put_expire hexpire _), run_redisSismember rfl, ← hkey,
    Store.get_put_self _ _ _ (by decide), Store.get_empty] at hreply
  revert hreply
  decide

theorem not_isolated_score {slot : Bytes} (hkey : key = getZsetScorePreffix other ++ slot) :
    ¬Isolated arith key other := by
  intro hisolated
  have hreply := hisolated.set [ascii "ZCARD", other] ⟨rfl, by decide⟩ 0
  have hscan : ((∅ : Store).put key (ascii "v")).scan (getZsetScorePreffix other) =
      [(key, ascii "v")] := by
    rw [Store.scan, Store.put, dif_neg (by decide)]
    change List.filter _ [(key, ascii "v")] = _
    rw [List.filter_cons, if_pos]
    · rfl
    · rw [List.isPrefixOf_iff_prefix, hkey]
      exact List.prefix_append _ _
  change ((redisZcard other).run 0 _).2 = ((redisZcard other).run 0 _).2 at hreply
  rw [redisZcard, run_readCommand (put_expire hexpire _), run_readCommand rfl] at hreply
  dsimp only at hreply
  rw [hscan] at hreply
  change Except.ok (intReply 1) = (Except.ok (intReply 0) : Except Err Bytes) at hreply
  revert hreply
  decide

end Set

/-- `EXPIRE` writes the other key. -/
theorem not_isolated_of_expire (hne : key ≠ other) (hother : other = getExplireKey key) :
    ¬Isolated arith key other := by
  intro hisolated
  have hexpire : getExplireKey other ≠ getExplireKey key :=
    fun heq => hne (getExplireKey_inj heq).symm
  have hreply := hisolated.reply [] [ascii "EXPIRE", key, ascii "100"] [ascii "GET", other]
    (by rintro _ ⟨⟩; rfl) ⟨rfl, by decide⟩ 0
  change ((redisGet other).run 0 ((redisExpire key (ascii "100")).run 0 ∅).1).2 =
    ((redisGet other).run 0 ∅).2 at hreply
  have hwritten : ((redisExpire key (ascii "100")).run 0 ∅).1 =
      (∅ : Store).put (getExplireKey key) (ascii "100") := by
    have htime : getExpireTime (ascii "100") 0 = .ok (ascii "100") := by decide
    rw [redisExpire, Command.run, htime]
  have hplain : ((∅ : Store).put (getExplireKey key) (ascii "100")).get other =
      some (ascii "100") := by
    rw [hother]
    exact Store.get_put_self _ _ _ (by decide)
  rw [hwritten, run_redisGet hplain (Store.get_put_of_ne _ _ hexpire),
    run_redisGet_none rfl] at hreply
  revert hreply
  decide

/-- The store after a field is set. -/
theorem run_redisHsetBatch_single (field : Bytes) (now : ℤ) :
    ((redisHsetBatch key [(field, ascii "v")]).run now ∅).1 =
      ((∅ : Store).put (getHashFiledKey key field) (ascii "v")).put key
        (getHashValueFromFields [field]) := by
  rw [redisHsetBatch, run_writeCommand rfl]
  rfl

theorem dispatch_hset (field value : Bytes) :
    dispatch arith [ascii "HSET", key, field, value] = redisHsetBatch key [(field, value)] := by
  change wrapperHset [ascii "HSET", key, field, value] = _
  rw [wrapperHset, if_neg (by simp)]
  rfl

/-- `HSET` writes a field of the other key. -/
theorem not_isolated_of_fields (hexpire : key ≠ getExplireKey other) {field field' : Bytes}
    (hmade : getHashFiledKey key field = getHashFiledKey other field') :
    ¬Isolated arith key other := by
  intro hisolated
  have hreply := hisolated.reply [] [ascii "HSET", key, field, ascii "v"]
    [ascii "HGET", other, field'] (by rintro _ ⟨⟩; rfl) ⟨rfl, by decide⟩ 0
  rw [dispatch_hset] at hreply
  change ((redisHget other field').run 0
    ((redisHsetBatch key [(field, ascii "v")]).run 0 ∅).1).2 =
      ((redisHget other field').run 0 ∅).2 at hreply
  have hkey : getHashFiledKey other field' ≠ key :=
    hmade ▸ (ne_of_length_lt (length_getHashFiledKey key field)).symm
  have hrecord : getExplireKey other ≠ getHashFiledKey key field :=
    ne_of_take (take_getExplireKey _) (take_getHashFiledKey _ _) (by decide)
  rw [run_redisHsetBatch_single, run_redisHget, run_redisHget rfl,
    Store.get_put_of_ne _ _ hkey, hmade, Store.get_put_self _ _ _ (by decide),
    Store.get_empty] at hreply
  · revert hreply
    decide
  · rw [Store.get_put_of_ne _ _ hexpire.symm, Store.get_put_of_ne _ _ hrecord]
    rfl

/-- `HSET` writes the other key. -/
theorem not_isolated_of_field {field : Bytes} (hother : other = getHashFiledKey key field) :
    ¬Isolated arith key other := by
  intro hisolated
  have hreply := hisolated.reply [] [ascii "HSET", key, field, ascii "v"] [ascii "GET", other]
    (by rintro _ ⟨⟩; rfl) ⟨rfl, by decide⟩ 0
  rw [dispatch_hset] at hreply
  change ((redisGet other).run 0 ((redisHsetBatch key [(field, ascii "v")]).run 0 ∅).1).2 =
    ((redisGet other).run 0 ∅).2 at hreply
  have hlength : key.length < other.length := by
    rw [hother]
    exact length_getHashFiledKey key field
  have hexpire := length_getExplireKey other
  have hplain : (((∅ : Store).put (getHashFiledKey key field) (ascii "v")).put key
      (getHashValueFromFields [field])).get other = some (ascii "v") := by
    rw [Store.get_put_of_ne _ _ (ne_of_length_lt hlength).symm, ← hother]
    exact Store.get_put_self _ _ _ (by decide)
  rw [run_redisHsetBatch_single, run_redisGet hplain, run_redisGet_none rfl] at hreply
  · revert hreply
    decide
  · rw [Store.get_put_of_ne _ _ (ne_of_length_lt (hlength.trans hexpire)).symm, ← hother,
      Store.get_put_of_ne _ _ (ne_of_length_lt hexpire).symm]
    rfl

/-- The store after a member is added. -/
theorem run_redisSadd_single (elem : Bytes) (now : ℤ) :
    ((redisSadd [ascii "SADD", key, elem]).run now ∅).1 =
      ((∅ : Store).put (getSetMemberKey key elem) (ascii "1")).put key (ascii "1") := by
  have hsize : toDecimal (wrapInt 32 (1 + 0)) = ascii "1" := by decide
  have hnew : newMembers key [elem] ∅ = [(getSetMemberKey key elem, ascii "1")] := rfl
  rw [redisSadd, run_writeCommand rfl]
  dsimp only
  rw [hnew, Store.get_empty]
  dsimp only [Option.elim]
  rw [List.length_singleton, Nat.cast_one, hsize]
  rfl

/-- `SADD` adds a member of the other key. -/
theorem not_isolated_of_members (hexpire : key ≠ getExplireKey other) {elem elem' : Bytes}
    (hmade : getSetMemberKey key elem = getSetMemberKey other elem') :
    ¬Isolated arith key other := by
  intro hisolated
  have hreply := hisolated.reply [] [ascii "SADD", key, elem] [ascii "SISMEMBER", other, elem']
    (by rintro _ ⟨⟩; rfl) ⟨rfl, by decide⟩ 0
  change ((redisSismember other elem').run 0
    ((redisSadd [ascii "SADD", key, elem]).run 0 ∅).1).2 =
      ((redisSismember other elem').run 0 ∅).2 at hreply
  have hkey : getSetMemberKey other elem' ≠ key :=
    hmade ▸ (ne_of_length_lt (length_getSetMemberKey key elem)).symm
  have hrecord : getExplireKey other ≠ getSetMemberKey key elem :=
    ne_of_take (take_getExplireKey _) (take_getSetMemberKey _ _) (by decide)
  rw [run_redisSadd_single, run_redisSismember, run_redisSismember rfl,
    Store.get_put_of_ne _ _ hkey, hmade, Store.get_put_self _ _ _ (by decide),
    Store.get_empty] at hreply
  · revert hreply
    decide
  · rw [Store.get_put_of_ne _ _ hexpire.symm, Store.get_put_of_ne _ _ hrecord]
    rfl

/-- `SADD` writes the other key. -/
theorem not_isolated_of_member {elem : Bytes} (hother : other = getSetMemberKey key elem) :
    ¬Isolated arith key other := by
  intro hisolated
  have hreply := hisolated.reply [] [ascii "SADD", key, elem] [ascii "GET", other]
    (by rintro _ ⟨⟩; rfl) ⟨rfl, by decide⟩ 0
  change ((redisGet other).run 0 ((redisSadd [ascii "SADD", key, elem]).run 0 ∅).1).2 =
    ((redisGet other).run 0 ∅).2 at hreply
  have hlength : key.length < other.length := by
    rw [hother]
    exact length_getSetMemberKey key elem
  have hexpire := length_getExplireKey other
  have hplain : (((∅ : Store).put (getSetMemberKey key elem) (ascii "1")).put key
      (ascii "1")).get other = some (ascii "1") := by
    rw [Store.get_put_of_ne _ _ (ne_of_length_lt hlength).symm, ← hother]
    exact Store.get_put_self _ _ _ (by decide)
  rw [run_redisSadd_single, run_redisGet hplain, run_redisGet_none rfl] at hreply
  · revert hreply
    decide
  · rw [Store.get_put_of_ne _ _ (ne_of_length_lt (hlength.trans hexpire)).symm, ← hother,
      Store.get_put_of_ne _ _ (ne_of_length_lt hexpire).symm]
    rfl

/-- The clean-up of an expired sorted set removes the other key. -/
theorem not_isolated_of_zset {rest : Bytes}
    (hother : other = getZsetKeyPreffix key ++ rest) : ¬Isolated arith key other := by
  intro hisolated
  have hreply := hisolated [(0, [ascii "SET", other, ascii "v"])]
    [(0, [ascii "EXPIRE", key, ascii "-1"]), (0, [ascii "ZCARD", key])]
    (by
      intro request hrequest
      rcases List.mem_pair.mp hrequest with rfl | rfl
      · rintro _ ⟨⟩
        rfl
      · rintro _ ⟨⟩
        rfl)
    [ascii "GET", other] 0 ⟨rfl, by decide⟩
  have hbefore : runRequests arith [(0, [ascii "SET", other, ascii "v"])] ∅ =
      (∅ : Store).put other (ascii "v") := run_redisSet rfl 0
  have hplain : ((∅ : Store).put other (ascii "v")).get other = some (ascii "v") :=
    Store.get_put_self _ _ _ (by decide)
  have hexpire : getExplireKey other ≠ other := getExplireKey_ne other
  have hrecord : other ≠ getExplireKey key := by
    rw [hother]
    exact ne_of_take (take_getZsetKeyPreffix _ _) (take_getExplireKey _) (by decide)
  have hwritten : ∀ store : Store, ((redisExpire key (ascii "-1")).run 0 store).1 =
      store.put (getExplireKey key) (ascii "-1") := by
    have htime : getExpireTime (ascii "-1") 0 = .ok (ascii "-1") := by decide
    intro store
    rw [redisExpire, Command.run, htime]
  have hcleaned : ∀ store : Store, store.get (getExplireKey key) = some (ascii "-1") →
      ((redisZcard key).run 0 store).1.get other = none := by
    intro store hget
    have hpast : isExpired (some (ascii "-1")) 0 = .ok true := by decide
    rw [redisZcard, readCommand, checkExpiry, Command.run, hget, hpast]
    rw [hother]
    exact get_expirePrefixClean_append _ _ _ _
  rw [hbefore] at hreply
  change ((redisGet other).run 0 ((redisZcard key).run 0
    ((redisExpire key (ascii "-1")).run 0 _).1).1).2 = ((redisGet other).run 0 _).2 at hreply
  rw [run_redisGet hplain (Store.get_put_of_ne _ _ hexpire), run_redisGet_none] at hreply
  · revert hreply
    decide
  · apply hcleaned
    rw [hwritten]
    exact Store.get_put_self _ _ _ (by decide)

/-! ### A record before the scores -/

theorem intReply_natCast_inj {left right : ℕ} (heq : intReply left = intReply right) :
    left = right := by
  have hdecimal : ∀ number : ℕ, toDecimal number = decimal number := by
    intro number
    rw [toDecimal, if_neg (by omega), Int.natAbs_natCast]
  rw [intReply, intReply, List.append_left_inj, List.append_right_inj, hdecimal, hdecimal] at heq
  have hparsed := congrArg parseDecimal heq
  rwa [parseDecimal_decimal, parseDecimal_decimal] at hparsed

/-- In an ascending list the place of a key is the number of the keys before it. -/
theorem findIdx?_eq_length {records : List (Bytes × Bytes)} {target value : Bytes}
    (hsorted : records.Pairwise fun left right => left.1 < right.1)
    (hmem : (target, value) ∈ records) :
    records.findIdx? (fun record => decide (record.1 = target)) =
      some (records.filter fun record => decide (record.1 < target)).length := by
  induction records with
  | nil => cases hmem
  | cons record rest ih =>
      obtain ⟨hhead, htail⟩ := List.pairwise_cons.mp hsorted
      rw [List.findIdx?_cons, List.filter_cons]
      rcases List.mem_cons.mp hmem with rfl | hrest
      · have hempty : rest.filter (fun record => decide (record.1 < target)) = [] :=
          List.filter_eq_nil_iff.mpr fun other hother => by
            simpa using (hhead other hother).le
        simp [hempty]
      · have hlt := hhead _ hrest
        rw [if_neg (by simpa using hlt.ne), if_pos (by simpa using hlt), ih htail hrest]
        rfl

theorem lt_append {left word : Bytes} (hlt : left < word) (tail : Bytes) :
    left < word ++ tail := by
  have hle := Prefixes.append_lt_append_left word tail []
  rw [List.append_nil] at hle
  exact hlt.trans_le (not_lt.mp fun h => absurd (hle.mp h) (List.not_lt_nil _))

theorem score_ne_elem (score elem : Bytes) :
    getZsetKeySocre key score ≠ getZsetKeyElem key elem := by
  rw [getZsetKeySocre_preffix, getZsetKeyElem_preffix, Ne, List.append_right_inj]
  exact (lt_append (elem_lt_score elem) _).ne'

theorem run_redisZadd_single (elem : Bytes) (now : ℤ) :
    ((redisZadd [ascii "ZADD", key, ascii "1", elem]).run now ∅).1 =
      (((∅ : Store).put key (getZsetKeyPreffix key)).put (getZsetKeySocre key (ascii "1"))
        elem).put (getZsetKeyElem key elem) (ascii "1") := by
  have hpairs : scorePairs [ascii "1", elem] = .ok [(ascii "1", elem)] := rfl
  rw [redisZadd]
  dsimp only
  rw [hpairs]
  dsimp only
  rw [run_writeCommand rfl]
  rfl

theorem dispatch_zadd (score elem : Bytes) :
    dispatch arith [ascii "ZADD", key, score, elem] =
      redisZadd [ascii "ZADD", key, score, elem] := by
  change zaddHandler [ascii "ZADD", key, score, elem] = _
  rw [zaddHandler, if_neg (by simp)]

/-- The records of the set before the one of the score. -/
def recordsBefore (key score : Bytes) (store : Store) : List (Bytes × Bytes) :=
  (store.scan (getZsetKeyPreffix key)).filter fun record =>
    decide (record.1 < getZsetKeySocre key score)

theorem mem_recordsBefore {score name value : Bytes} :
    (name, value) ∈ recordsBefore key score store ↔
      (getZsetKeyPreffix key <+: name ∧ store.get name = some value) ∧
        name < getZsetKeySocre key score := by
  rw [recordsBefore, List.mem_filter, Store.mem_scan, decide_eq_true_iff]

theorem run_redisZrank {elem score value : Bytes}
    (hexpire : store.get (getExplireKey key) = none)
    (helem : store.get (getZsetKeyElem key elem) = some score)
    (hscore : store.get (getZsetKeySocre key score) = some value) :
    ((redisZrank key elem).run now store).2 =
      .ok (intReply (recordsBefore key score store).length) := by
  rw [redisZrank, run_readCommand hexpire, helem]
  dsimp only
  rw [findIdx?_eq_length (store.scan_ascending _) (Store.mem_scan.mpr ⟨?_, hscore⟩)]
  · rfl
  · rw [getZsetKeySocre_preffix]
    exact List.prefix_append _ _

/-- `SET` of a record of the other key that is before the scores moves their ranks. -/
theorem not_isolated_before (hexpire : key ≠ getExplireKey other) {rest : Bytes}
    (hkey : key = getZsetKeyPreffix other ++ rest) (hrest : rest < ascii "SCORE_") :
    ¬Isolated arith key other := by
  intro hisolated
  let elem : Bytes := rest ++ ascii "a"
  let score : Bytes := getZsetKeySocre other (ascii "1")
  let store : Store := (((∅ : Store).put other (getZsetKeyPreffix other)).put score elem).put
    (getZsetKeyElem other elem) (ascii "1")
  have hzset : ∀ rest, getZsetKeyPreffix other ++ rest ≠ other := fun rest =>
    (ne_of_length_lt (length_getZsetKeyPreffix other rest)).symm
  have hget : ∀ made, made ≠ other → made ≠ score → made ≠ getZsetKeyElem other elem →
      store.get made = none := by
    intro made hother hscore helem
    rw [Store.get_put_of_ne _ _ helem, Store.get_put_of_ne _ _ hscore,
      Store.get_put_of_ne _ _ hother]
    rfl
  have hscore : store.get score = some elem := by
    rw [Store.get_put_of_ne _ _ (score_ne_elem _ _)]
    exact Store.get_put_self _ _ _ (by simp [elem, ascii])
  have helem : store.get (getZsetKeyElem other elem) = some (ascii "1") :=
    Store.get_put_self _ _ _ (by decide)
  have hlt : key < score := by
    rw [hkey]
    change _ < getZsetKeySocre other (ascii "1")
    rw [getZsetKeySocre_preffix, Prefixes.append_lt_append_left]
    exact lt_append hrest _
  have hkeyElem : key ≠ getZsetKeyElem other elem := by
    rw [hkey, getZsetKeyElem_preffix, Ne, List.append_right_inj]
    intro heq
    have hlength := congrArg List.length heq
    rw [List.length_append, List.length_append] at hlength
    change rest.length = 5 + (rest.length + 1) at hlength
    omega
  have hnew : store.get key = none := hget key (hkey ▸ hzset rest) hlt.ne hkeyElem
  have hmade : ∀ made, made.take 8 = ascii "REDIS_EX" → made ≠ other → store.get made = none := by
    intro made htake hother
    apply hget made hother
    · have hscoreTake : score.take 8 = ascii "REDIS_SO" := rfl
      exact ne_of_take htake hscoreTake (by decide)
    · have helemTake : (getZsetKeyElem other elem).take 8 = ascii "REDIS_SO" := rfl
      exact ne_of_take htake helemTake (by decide)
  have hexpireOther : store.get (getExplireKey other) = none :=
    hmade _ rfl (getExplireKey_ne other)
  have hlength : other.length < key.length := hkey ▸ length_getZsetKeyPreffix other rest
  have hexpireKey : store.get (getExplireKey key) = none :=
    hmade _ rfl (ne_of_length_lt (hlength.trans (length_getExplireKey key))).symm
  have hbefore : runRequests arith [(0, [ascii "ZADD", other, ascii "1", elem])] ∅ = store := by
    change ((dispatch arith [ascii "ZADD", other, ascii "1", elem]).run 0 ∅).1 = store
    rw [dispatch_zadd]
    exact run_redisZadd_single elem 0
  have hreply := hisolated.reply [(0, [ascii "ZADD", other, ascii "1", elem])]
    [ascii "SET", key, ascii "v"] [ascii "ZRANK", other, elem] (by rintro _ ⟨⟩; rfl)
    ⟨rfl, by decide⟩ 0
  rw [hbefore] at hreply
  change ((redisZrank other elem).run 0 ((redisSet key (ascii "v")).run 0 store).1).2 =
    ((redisZrank other elem).run 0 store).2 at hreply
  have hsame : ∀ made, made ≠ key → (store.put key (ascii "v")).get made = store.get made :=
    fun made hmade => Store.get_put_of_ne _ _ hmade
  rw [run_redisSet hexpireKey, run_redisZrank hexpireOther helem hscore,
    run_redisZrank ((hsame _ hexpire.symm).trans hexpireOther)
      ((hsame _ hkeyElem.symm).trans helem) ((hsame _ hlt.ne').trans hscore)] at hreply
  have hsize := intReply_natCast_inj (Except.ok.inj hreply)
  have hsub : recordsBefore other (ascii "1") store ⊆
      recordsBefore other (ascii "1") (store.put key (ascii "v")) := by
    rintro ⟨name, value⟩ hmem
    obtain ⟨⟨hstarts, hvalue⟩, hname⟩ := mem_recordsBefore.mp hmem
    refine mem_recordsBefore.mpr ⟨⟨hstarts, ?_⟩, hname⟩
    rw [hsame name]
    · exact hvalue
    · rintro rfl
      rw [hnew] at hvalue
      cases hvalue
  have hnodup : (recordsBefore other (ascii "1") store).Nodup :=
    ((store.scan_ascending _).imp fun hless heq => (heq ▸ hless).false).filter _
  have hperm := (List.subperm_of_subset hnodup hsub).perm_of_length_le hsize.le
  have hmem : (key, ascii "v") ∈ recordsBefore other (ascii "1") store := by
    rw [hperm.mem_iff]
    apply mem_recordsBefore.mpr
    refine ⟨⟨?_, Store.get_put_self _ _ _ (by decide)⟩, hlt⟩
    rw [hkey]
    exact List.prefix_append _ _
  have hfound := (mem_recordsBefore.mp hmem).1.2
  rw [hnew] at hfound
  cases hfound

end Related

/-! ## The condition is exact -/

theorem unrelated_of_isolated (arith : DoubleArith) {key other : Bytes} (hne : key ≠ other)
    (hisolated : Isolated arith key other) : Unrelated key other := by
  have hexpire : key ≠ getExplireKey other :=
    fun hkey => not_isolated_expire hkey hisolated
  intro made hmade hseen
  rcases hmade.overlap hseen.made with rfl | rfl | rfl | ⟨field, field', rfl, hfields⟩ |
    ⟨rest, rest', rfl, hzsets⟩ | ⟨elem, elem', rfl, hmembers⟩
  · generalize hkey : made = seen at hseen
    cases hseen with
    | plain => exact hne hkey
    | expire => exact hexpire hkey
    | field field => exact not_isolated_field hexpire hkey hisolated
    | member elem => exact not_isolated_member hexpire hkey hisolated
    | zset rest hrest =>
        rcases hrest with hlt | ⟨slot, rfl⟩
        · exact not_isolated_before hexpire hkey hlt hisolated
        · have hscore : made = getZsetScorePreffix other ++ slot := by
            rw [hkey, getZsetScorePreffix_eq, List.append_assoc]
          exact not_isolated_score hexpire hscore hisolated
  · generalize hother : made = seen at hmade
    cases hmade with
    | plain => exact hne hother.symm
    | expire => exact not_isolated_of_expire hne hother hisolated
    | field field => exact not_isolated_of_field hother hisolated
    | member elem => exact not_isolated_of_member hother hisolated
    | zset rest => exact not_isolated_of_zset hother hisolated
  · exact hne rfl
  · exact not_isolated_of_fields hexpire hfields hisolated
  · -- Sets of the two keys meet where their sorted sets do.
    have hmembers : getSetMemberKey key rest = getSetMemberKey other rest' := by
      simp only [getZsetKeyPreffix, getSetMemberKey, List.append_assoc] at hzsets ⊢
      rw [(List.append_right_inj _).mp hzsets]
    exact not_isolated_of_members hexpire hmembers hisolated
  · exact not_isolated_of_members hexpire hmembers hisolated

/-- Commands on one key leave the answers about another one alone exactly when no key made
of the one is seen by the reads of the other. -/
theorem keys_isolated_iff (arith : DoubleArith) {key other : Bytes} (hne : key ≠ other) :
    Isolated arith key other ↔ Unrelated key other :=
  ⟨unrelated_of_isolated arith hne, isolated_of_unrelated arith⟩

/-- Different keys without an underscore are unrelated. -/
theorem unrelated_of_no_underscore {key other : Bytes} (hne : key ≠ other) (hkey : 95 ∉ key)
    (hother : 95 ∉ other) : Unrelated key other := by
  have hinj : ∀ {start rest rest' : Bytes},
      start ++ (key ++ 95 :: rest) = start ++ (other ++ 95 :: rest') → False := by
    intro start rest rest' heq
    exact hne (append_cons_inj hkey hother ((List.append_right_inj _).mp heq)).1
  intro made hmade hseen
  rcases hmade.overlap hseen.made with rfl | rfl | rfl | ⟨field, field', rfl, hfields⟩ |
    ⟨rest, rest', rfl, hzsets⟩ | ⟨elem, elem', rfl, hmembers⟩
  · exact hkey (hseen.made.underscore hne)
  · exact hother (hmade.underscore hne.symm)
  · exact hne rfl
  · simp only [getHashFiledKey, List.append_assoc] at hfields
    exact hinj hfields
  · simp only [getZsetKeyPreffix, List.append_assoc] at hzsets
    exact hinj hzsets
  · simp only [getSetMemberKey, List.append_assoc] at hmembers
    exact hinj hmembers

theorem keys_isolated_sample : Isolated wholeArith (ascii "a") (ascii "b") := by
  rw [keys_isolated_iff wholeArith (by decide)]
  exact unrelated_of_no_underscore (by decide) (by decide) (by decide)

/-- A member of one set is listed in the other. -/
theorem keys_not_isolated_sample :
    ((dispatch wholeArith [ascii "SMEMBERS", ascii "a_b"]).run 0
        (runRequests wholeArith [(0, [ascii "SADD", ascii "a", ascii "b_c"])] ∅)).2 =
      .ok (ascii "*1\r\n$1\r\nc\r\n") ∧
    ((dispatch wholeArith [ascii "SMEMBERS", ascii "a_b"]).run 0
        (runRequests wholeArith [] ∅)).2 = .ok (ascii "*0\r\n") := by
  decide +kernel

end KopiDb.Redis

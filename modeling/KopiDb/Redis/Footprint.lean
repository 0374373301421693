import KopiDb.Lib.Prefixes
import KopiDb.Redis.Runs
import KopiDb.Redis.Server

/-!
# The records of a key

All commands on a key write to keys made from it, and the answers of its reads depend on
records under such keys only.
-/

namespace KopiDb.Redis

/-! ## Records outside a set of keys -/

/-- Two stores have the same records outside of a set of keys. -/
def Store.SameOff (keys : Bytes → Prop) (store store' : Store) : Prop :=
  ∀ other, ¬keys other → store.get other = store'.get other

namespace Store.SameOff

variable {keys : Bytes → Prop} {store store' store'' : Store}

theorem refl (store : Store) : SameOff keys store store := fun _ _ => rfl

theorem trans (hfirst : SameOff keys store store') (hsecond : SameOff keys store' store'') :
    SameOff keys store store'' :=
  fun other hother => (hfirst other hother).trans (hsecond other hother)

theorem put (hsame : SameOff keys store store') {key : Bytes} (hkey : keys key)
    (value : Bytes) : SameOff keys (store.put key value) store' := by
  intro other hother
  rw [get_put_of_ne]
  · exact hsame other hother
  · rintro rfl
    exact hother hkey

theorem remove (hsame : SameOff keys store store') {key : Bytes} (hkey : keys key) :
    SameOff keys (store.remove key) store' := by
  intro other hother
  rw [get_remove_of_ne]
  · exact hsame other hother
  · rintro rfl
    exact hother hkey

theorem putBatch (hsame : SameOff keys store store') {kvs : List (Bytes × Bytes)}
    (hkvs : ∀ kv ∈ kvs, keys kv.1) : SameOff keys (store.putBatch kvs) store' := by
  induction kvs generalizing store with
  | nil => exact hsame
  | cons kv rest ih =>
      exact ih (hsame.put (hkvs kv List.mem_cons_self) kv.2) fun other hother =>
        hkvs other (List.mem_cons_of_mem _ hother)

theorem removeBatch (hsame : SameOff keys store store') {removed : List Bytes}
    (hremoved : ∀ key ∈ removed, keys key) :
    SameOff keys (store.removeBatch removed) store' := by
  induction removed generalizing store with
  | nil => exact hsame
  | cons key rest ih =>
      exact ih (hsame.remove (hremoved key List.mem_cons_self)) fun other hother =>
        hremoved other (List.mem_cons_of_mem _ hother)

end Store.SameOff

/-- Every section of the command leaves the records outside of the keys alone. -/
def Command.Within (keys : Bytes → Prop) : Command → Prop
  | .done _ => True
  | .shared next => ∀ now store, (next now store).Within keys
  | .cleanUp clean next =>
      (∀ store, Store.SameOff keys (clean store).1 store) ∧ next.Within keys
  | .exclusive body => ∀ now store, Store.SameOff keys (body now store).1 store

theorem Command.Within.run {keys : Bytes → Prop} {command : Command}
    (hwithin : command.Within keys) (now : ℤ) (store : Store) :
    Store.SameOff keys (command.run now store).1 store := by
  induction command generalizing store with
  | done reply => exact .refl store
  | shared next ih => exact ih now store (hwithin now store) store
  | cleanUp clean next ih =>
      have hclean := hwithin.1 store
      rw [Command.run]
      revert hclean
      cases clean store with
      | mk cleaned result =>
          intro hclean
          cases result with
          | error err => exact hclean
          | ok _ => exact (ih hwithin.2 cleaned).trans hclean
  | exclusive body => exact hwithin now store

theorem Command.Within.mapReply {keys : Bytes → Prop} {command : Command}
    (hwithin : command.Within keys) (f : Bytes → Bytes) : (command.mapReply f).Within keys := by
  induction command with
  | done reply => trivial
  | shared next ih => exact fun now store => ih now store (hwithin now store)
  | cleanUp clean next ih => exact ⟨hwithin.1, ih hwithin.2⟩
  | exclusive body => exact hwithin

/-! ## Made keys -/

/-- The key and the keys that the commands make from it. -/
inductive MadeKey (key : Bytes) : Bytes → Prop where
  | plain : MadeKey key key
  | expire : MadeKey key (getExplireKey key)
  | field (field : Bytes) : MadeKey key (getHashFiledKey key field)
  | zset (rest : Bytes) : MadeKey key (getZsetKeyPreffix key ++ rest)
  | member (elem : Bytes) : MadeKey key (getSetMemberKey key elem)

/-- The records of a key that can change the answer of a read command.  Of a sorted set
these end with the scores: a later record is in no count and no range. -/
inductive SeenKey (key : Bytes) : Bytes → Prop where
  | plain : SeenKey key key
  | expire : SeenKey key (getExplireKey key)
  | field (field : Bytes) : SeenKey key (getHashFiledKey key field)
  | zset (rest : Bytes) (hrest : rest < ascii "SCORE_" ∨ ascii "SCORE_" <+: rest) :
      SeenKey key (getZsetKeyPreffix key ++ rest)
  | member (elem : Bytes) : SeenKey key (getSetMemberKey key elem)

theorem getZsetScorePreffix_eq (key : Bytes) :
    getZsetScorePreffix key = getZsetKeyPreffix key ++ ascii "SCORE_" := by
  rw [getZsetScorePreffix, getZsetKeyPreffix, List.append_assoc, List.append_assoc,
    List.append_assoc]
  rfl

theorem getZsetKeyElem_preffix (key elem : Bytes) :
    getZsetKeyElem key elem = getZsetKeyPreffix key ++ (ascii "ELEM_" ++ elem) := by
  rw [getZsetKeyElem, getZsetKeyPreffix]
  simp only [List.append_assoc]
  rfl

theorem getZsetKeySocre_preffix (key score : Bytes) :
    getZsetKeySocre key score =
      getZsetKeyPreffix key ++ (ascii "SCORE_" ++ formattedScore score) := by
  rw [getZsetKeySocre, getZsetKeyPreffix]
  simp only [List.append_assoc]
  rfl

namespace MadeKey

variable {key : Bytes}

theorem zsetElem (elem : Bytes) : MadeKey key (getZsetKeyElem key elem) := by
  rw [getZsetKeyElem_preffix]
  exact zset _

theorem zsetScore (score : Bytes) : MadeKey key (getZsetKeySocre key score) := by
  rw [getZsetKeySocre_preffix]
  exact zset _

end MadeKey

/-! ## What a clean-up leaves -/

theorem get_expireListClean (key : Bytes) (store : Store) :
    (expireListClean key store).1.get key = none := by
  rw [expireListClean, Store.get_remove_of_ne _ (getExplireKey_ne key).symm, Store.get_remove,
    if_pos rfl]

theorem get_expirePrefixClean (preffix key : Bytes) (store : Store) :
    (expirePrefixClean preffix key store).1.get key = none := by
  rw [expirePrefixClean, Store.get_removeBatch]
  split_ifs
  · rfl
  · exact get_expireListClean key store

theorem get_expirePrefixClean_append (preffix key rest : Bytes) (store : Store) :
    (expirePrefixClean preffix key store).1.get (preffix ++ rest) = none := by
  rw [expirePrefixClean, Store.get_removeBatch]
  split_ifs with hmem
  · rfl
  · cases hget : ((store.remove key).remove (getExplireKey key)).get (preffix ++ rest) with
    | none => rfl
    | some value =>
        have hscan := Store.mem_scan.mpr ⟨List.prefix_append preffix rest, hget⟩
        exact absurd (List.mem_map_of_mem hscan) hmem

/-! ## What a command writes -/

section Within

variable {key : Bytes}

/-- The commands on a key write to its made keys. -/
abbrev Command.WithinKey (key : Bytes) (command : Command) : Prop :=
  command.Within (MadeKey key)

theorem within_checkExpiry {clean : Store → Store × Except Err Unit} {expired : Command}
    {live : ℤ → Store → Command}
    (hclean : ∀ store, Store.SameOff (MadeKey key) (clean store).1 store)
    (hexpired : expired.WithinKey key)
    (hlive : ∀ now store, (live now store).WithinKey key) :
    (checkExpiry key clean expired live).WithinKey key := by
  intro now store
  dsimp only
  cases isExpired (store.get (getExplireKey key)) now with
  | error err => trivial
  | ok verdict =>
      cases verdict with
      | true => exact ⟨hclean, hexpired⟩
      | false => exact hlive now store

theorem within_expireListClean (store : Store) :
    Store.SameOff (MadeKey key) (expireListClean key store).1 store :=
  ((Store.SameOff.refl store).remove MadeKey.plain).remove MadeKey.expire

theorem within_expireHashClean (store : Store) :
    Store.SameOff (MadeKey key) (expireHashClean key store).1 store := by
  rw [expireHashClean]
  cases getFiledsFromHashValue (store.get key) with
  | error err => exact .refl store
  | ok fileds =>
      have hfields : ∀ removed ∈ fileds.map (getHashFiledKey key),
          MadeKey key removed := by
        intro removed hremoved
        obtain ⟨field, -, rfl⟩ := List.mem_map.mp hremoved
        exact MadeKey.field field
      exact (((Store.SameOff.refl store).removeBatch hfields).remove MadeKey.plain).remove
        MadeKey.expire

theorem within_expirePrefixClean {preffix : Bytes}
    (hpreffix : ∀ rest, MadeKey key (preffix ++ rest)) (store : Store) :
    Store.SameOff (MadeKey key) (expirePrefixClean preffix key store).1 store := by
  have hclean := @within_expireListClean key store
  apply hclean.removeBatch
  intro removed hremoved
  obtain ⟨⟨name, value⟩, hrecord, rfl⟩ := List.mem_map.mp hremoved
  obtain ⟨⟨rest, rfl⟩, -⟩ := Store.mem_scan.mp hrecord
  exact hpreffix rest

theorem within_expireZsetClean (store : Store) :
    Store.SameOff (MadeKey key) (expireZsetClean key store).1 store :=
  within_expirePrefixClean MadeKey.zset store

theorem within_expireSetClean (store : Store) :
    Store.SameOff (MadeKey key) (expireSetClean key store).1 store :=
  within_expirePrefixClean MadeKey.member store

theorem within_readCommand {clean : Store → Store × Except Err Unit} (expired : Bytes)
    (read : Store → Except Err Bytes)
    (hclean : ∀ store, Store.SameOff (MadeKey key) (clean store).1 store) :
    (readCommand key clean expired read).WithinKey key :=
  within_checkExpiry hclean trivial fun _ _ => trivial

theorem within_takeCommand {clean : Store → Store × Except Err Unit} (expired : Bytes)
    {body : Store → Store × Except Err Bytes}
    (hclean : ∀ store, Store.SameOff (MadeKey key) (clean store).1 store)
    (hbody : ∀ store, Store.SameOff (MadeKey key) (body store).1 store) :
    (takeCommand key clean expired body).WithinKey key :=
  within_checkExpiry hclean trivial fun _ _ _ => hbody

theorem within_writeCommand {clean : Store → Store × Except Err Unit}
    {body : Store → Store × Except Err Bytes}
    (hclean : ∀ store, Store.SameOff (MadeKey key) (clean store).1 store)
    (hbody : ∀ store, Store.SameOff (MadeKey key) (body store).1 store) :
    (writeCommand key clean body).WithinKey key :=
  within_checkExpiry hclean (fun _ => hbody) fun _ _ _ => hbody

theorem within_redisAdd (step : ℤ) : (redisAdd step key).WithinKey key := by
  intro now store
  dsimp only
  cases store.get key with
  | none => exact (Store.SameOff.refl store).put MadeKey.plain _
  | some originalValue =>
      cases hnumber : stoll originalValue with
      | error err =>
          simp only [hnumber]
          exact .refl store
      | ok number =>
          simp only [hnumber]
          exact (Store.SameOff.refl store).put MadeKey.plain _

theorem within_dropExpire {store store' : Store} (hsame : store.SameOff (MadeKey key) store') :
    Store.SameOff (MadeKey key)
      (if (store.get (getExplireKey key)).isSome then store.remove (getExplireKey key)
        else store) store' := by
  split_ifs
  · exact hsame.remove MadeKey.expire
  · exact hsame

theorem within_redisSet (value : Bytes) : (redisSet key value).WithinKey key :=
  fun _ store => within_dropExpire ((Store.SameOff.refl store).put MadeKey.plain value)

theorem within_delKey (store : Store) :
    Store.SameOff (MadeKey key) (delKey store key).1 store := by
  rw [delKey]
  cases hvalue : store.get key with
  | none => exact within_dropExpire (.refl store)
  | some curValue =>
      dsimp only
      by_cases hhash : isValueHash curValue = true
      · rw [if_pos hhash]
        cases getFiledsFromHashValue (some curValue) with
        | error err => exact .refl store
        | ok fieldList =>
            apply within_dropExpire
            apply Store.SameOff.remove _ MadeKey.plain
            apply (Store.SameOff.refl store).removeBatch
            intro removed hremoved
            obtain ⟨field, -, rfl⟩ := List.mem_map.mp hremoved
            exact MadeKey.field field
      · rw [if_neg hhash]
        exact within_dropExpire ((Store.SameOff.refl store).remove MadeKey.plain)

theorem within_delKeys {keys : List Bytes} (hkeys : ∀ other ∈ keys, other = key)
    (store : Store) (delCount : ℕ) :
    Store.SameOff (MadeKey key) (delKeys keys store delCount).1 store := by
  induction keys generalizing store delCount with
  | nil => exact .refl store
  | cons curKey rest ih =>
      obtain ⟨rfl, hrest⟩ := List.forall_mem_cons.mp hkeys
      have hdeleted := @within_delKey curKey store
      rw [delKeys]
      revert hdeleted
      cases delKey store curKey with
      | mk next result =>
          intro hdeleted
          cases result with
          | error err => exact hdeleted
          | ok deleted => exact (ih hrest next _).trans hdeleted

theorem within_redisExpire (secondsCount : Bytes) :
    (redisExpire key secondsCount).WithinKey key := by
  intro now store
  dsimp only
  cases getExpireTime secondsCount now with
  | error err => exact .refl store
  | ok expireTimeStr => exact (Store.SameOff.refl store).put MadeKey.expire _

theorem within_redisGet : (redisGet key).WithinKey key := by
  intro now store
  dsimp only
  cases store.get key with
  | none =>
      cases store.get (getExplireKey key) with
      | none => trivial
      | some expireStr =>
          exact ⟨fun store => (Store.SameOff.refl store).remove MadeKey.expire, trivial⟩
  | some value =>
      cases store.get (getExplireKey key) with
      | none => trivial
      | some expireStr =>
          dsimp only
          cases isExpired (some expireStr) now with
          | error err => trivial
          | ok verdict =>
              cases verdict with
              | true => exact ⟨within_expireListClean, trivial⟩
              | false => trivial

theorem within_redisTtl : (redisTtl key).WithinKey key := by
  intro now store
  dsimp only
  cases store.get key with
  | none => trivial
  | some value =>
      cases store.get (getExplireKey key) with
      | none => trivial
      | some expireStr =>
          dsimp only
          cases isExpired (some expireStr) now with
          | error err => trivial
          | ok verdict => cases verdict <;> trivial

theorem within_hsetFields (pairs : List (Bytes × Bytes)) (store : Store)
    (fieldList : List Bytes) (addedCount : ℕ) :
    Store.SameOff (MadeKey key) (hsetFields key pairs store fieldList addedCount).1 store := by
  induction pairs generalizing store fieldList addedCount with
  | nil => exact .refl store
  | cons pair rest ih =>
      have hfield : MadeKey key (getHashFiledKey key pair.1) := MadeKey.field pair.1
      have hput := (Store.SameOff.refl store).put hfield pair.2
      rw [hsetFields]
      split_ifs
      · exact (ih _ _ _).trans hput
      · exact (ih _ _ _).trans hput

theorem within_redisHsetBatch (fieldValuePairs : List (Bytes × Bytes)) :
    (redisHsetBatch key fieldValuePairs).WithinKey key := by
  apply within_writeCommand within_expireHashClean
  intro store
  cases getFiledsFromHashValue (store.get key) with
  | error err => exact .refl store
  | ok fieldList => exact (within_hsetFields _ store _ _).put MadeKey.plain _

theorem within_redisHdel (field : Bytes) : (redisHdel key field).WithinKey key := by
  apply within_takeCommand _ within_expireHashClean
  intro store
  have hremove : Store.SameOff (MadeKey key)
      (if (store.get (getHashFiledKey key field)).isSome
        then store.remove (getHashFiledKey key field) else store) store := by
    split_ifs
    · exact (Store.SameOff.refl store).remove (MadeKey.field field)
    · exact .refl store
  dsimp only
  generalize (if (store.get (getHashFiledKey key field)).isSome
    then store.remove (getHashFiledKey key field) else store) = removed at hremove
  cases getFiledsFromHashValue (removed.get key) with
  | error err => exact hremove
  | ok fieldList =>
      dsimp only
      split_ifs
      · exact hremove.remove MadeKey.plain
      · exact hremove.put MadeKey.plain _
      · exact hremove

theorem within_redisPush (added : Bytes → Bytes → Bytes) (value : Bytes) :
    (redisPush added key value).WithinKey key :=
  within_writeCommand within_expireListClean fun store =>
    (Store.SameOff.refl store).put MadeKey.plain _

theorem within_redisPop (taken : List Bytes → Option (Bytes × List Bytes)) :
    (redisPop taken key).WithinKey key := by
  apply within_takeCommand _ within_expireListClean
  intro store
  cases store.get key with
  | none => exact .refl store
  | some list =>
      dsimp only
      cases taken (split list redisListSeparator) with
      | none => exact .refl store
      | some result =>
          dsimp only
          split_ifs
          · exact (Store.SameOff.refl store).remove MadeKey.plain
          · exact (Store.SameOff.refl store).put MadeKey.plain _

/-- Everything that `zadd` writes is a made key. -/
theorem zaddPairs_madeKeys (store : Store) (pairs putKvs : List (Bytes × Bytes))
    (removeKeys : List Bytes) (addedCount : ℕ) (hputKvs : ∀ kv ∈ putKvs, MadeKey key kv.1) :
    ∀ kv ∈ (zaddPairs key store pairs putKvs removeKeys addedCount).1, MadeKey key kv.1 := by
  induction pairs generalizing putKvs removeKeys addedCount with
  | nil => exact hputKvs
  | cons pair rest ih =>
      have hadded : ∀ kv ∈ putKvs ++ [(getZsetKeySocre key pair.1, pair.2),
          (getZsetKeyElem key pair.2, pair.1)], MadeKey key kv.1 := by
        intro kv hmem
        rcases List.mem_append.mp hmem with hmem | hmem
        · exact hputKvs kv hmem
        · rcases List.mem_pair.mp hmem with rfl | rfl
          · exact MadeKey.zsetScore _
          · exact MadeKey.zsetElem _
      rw [zaddPairs]
      cases store.get (getZsetKeyElem key pair.2) with
      | none => exact ih _ _ _ hadded
      | some originalScore =>
          dsimp only
          split_ifs
          · exact ih _ _ _ hputKvs
          · exact ih _ _ _ hadded

theorem within_redisZadd (op : Bytes) (args : List Bytes) :
    (redisZadd (op :: key :: args)).WithinKey key := by
  rw [redisZadd]
  dsimp only
  cases scorePairs args with
  | error err => trivial
  | ok pairs =>
      apply within_writeCommand within_expireZsetClean
      intro store
      apply (Store.SameOff.refl store).putBatch
      apply zaddPairs_madeKeys
      intro kv hmem
      split_ifs at hmem
      · cases hmem
      · rw [List.mem_singleton.mp hmem]
        exact MadeKey.plain

theorem within_zremElems (elems : List Bytes) (store : Store) (removedCount : ℕ) :
    Store.SameOff (MadeKey key) (zremElems key elems store removedCount).1 store := by
  induction elems generalizing store removedCount with
  | nil => exact .refl store
  | cons elem rest ih =>
      rw [zremElems]
      cases store.get (getZsetKeyElem key elem) with
      | none => exact ih store _
      | some score =>
          apply (ih _ _).trans
          exact ((Store.SameOff.refl store).remove (MadeKey.zsetElem _)).remove
            (MadeKey.zsetScore _)

theorem within_redisZrem (op : Bytes) (args : List Bytes) :
    (redisZrem (op :: key :: args)).WithinKey key := by
  cases args with
  | nil => trivial
  | cons elem rest =>
      exact within_takeCommand _ within_expireZsetClean fun store =>
        within_zremElems (elem :: rest) store 0

theorem within_withNumber {number : Except Err ℤ} {next : ℤ → Command}
    (hnext : ∀ number, (next number).WithinKey key) : (withNumber number next).WithinKey key := by
  cases number with
  | error err => trivial
  | ok number => exact hnext number

theorem within_redisZrange (op : Bytes) (args : List Bytes) :
    (redisZrange (op :: key :: args)).WithinKey key := by
  rcases args with _ | ⟨startStr, _ | ⟨stopStr, rest⟩⟩
  · trivial
  · trivial
  · exact within_withNumber fun start => within_withNumber fun stop =>
      within_readCommand _ _ within_expireZsetClean

theorem within_redisZincrby (arith : DoubleArith) (increment elem : Bytes) :
    (redisZincrby arith key increment elem).WithinKey key := by
  apply within_writeCommand within_expireZsetClean
  intro store
  dsimp only
  have hwritten : ∀ {store' : Store} (score : Bytes), store'.SameOff (MadeKey key) store →
      Store.SameOff (MadeKey key) ((store'.put (getZsetKeyElem key elem) score).put
        (getZsetKeySocre key score) elem) store :=
    fun score hsame => (hsame.put (MadeKey.zsetElem _) _).put (MadeKey.zsetScore _) _
  cases store.get (getZsetKeyElem key elem) with
  | none =>
      cases arith.stod increment with
      | error err => exact .refl store
      | ok number => exact hwritten _ (.refl store)
  | some originalScore =>
      dsimp only
      cases stol originalScore with
      | error err => exact .refl store
      | ok original =>
          cases arith.stod increment with
          | error err => exact .refl store
          | ok number =>
              exact hwritten _ ((Store.SameOff.refl store).remove (MadeKey.zsetScore _))

theorem within_redisSadd (op : Bytes) (members : List Bytes) :
    (redisSadd (op :: key :: members)).WithinKey key := by
  apply within_writeCommand within_expireSetClean
  intro store
  dsimp only
  cases (store.get key).elim (.ok 0) stoi with
  | error err => exact .refl store
  | ok prevSize =>
      apply (Store.SameOff.refl store).putBatch
      intro kv hmem
      rcases List.mem_append.mp hmem with hmem | hmem
      · obtain ⟨member, -, rfl⟩ := List.mem_map.mp hmem
        exact MadeKey.member member
      · rw [List.mem_singleton.mp hmem]
        exact MadeKey.plain

theorem within_redisSrem (op : Bytes) (members : List Bytes) :
    (redisSrem (op :: key :: members)).WithinKey key := by
  apply within_takeCommand _ within_expireSetClean
  intro store
  dsimp only
  cases (store.get key).elim (.ok 0) stoi with
  | error err => exact .refl store
  | ok prevSize =>
      apply ((Store.SameOff.refl store).put MadeKey.plain _).removeBatch
      intro removed hremoved
      obtain ⟨member, -, rfl⟩ := List.mem_map.mp (List.mem_filter.mp hremoved).1
      exact MadeKey.member member

theorem KeyCommand.within {arith : DoubleArith} {command : Command}
    (hcommand : KeyCommand arith key command) : command.WithinKey key := by
  cases hcommand with
  | done reply => trivial
  | save => exact fun _ store => .refl store
  | set value => exact within_redisSet value
  | get => exact within_redisGet
  | del op keys hkeys => exact fun _ store => within_delKeys hkeys store 0
  | add step => exact (within_redisAdd step).mapReply _
  | expire secondsCount => exact within_redisExpire secondsCount
  | ttl => exact within_redisTtl
  | hset pairs => exact within_redisHsetBatch pairs
  | hget field => exact within_readCommand _ _ within_expireHashClean
  | hdel field => exact within_redisHdel field
  | hkeys => exact within_readCommand _ _ within_expireHashClean
  | push added value => exact within_redisPush added value
  | pop taken => exact within_redisPop taken
  | llen => exact within_readCommand _ _ within_expireListClean
  | lrange start stop => exact within_readCommand _ _ within_expireListClean
  | zadd op args => exact within_redisZadd op args
  | zrem op args => exact within_redisZrem op args
  | zrange op args => exact within_redisZrange op args
  | zcard => exact within_readCommand _ _ within_expireZsetClean
  | zscore elem => exact within_readCommand _ _ within_expireZsetClean
  | zincrby increment elem => exact within_redisZincrby arith increment elem
  | zrank elem => exact within_readCommand _ _ within_expireZsetClean
  | sadd op members => exact within_redisSadd op members
  | srem op members => exact within_redisSrem op members
  | sismember member => exact within_readCommand _ _ within_expireSetClean
  | scard => exact within_readCommand _ _ within_expireSetClean
  | smembers => exact within_readCommand _ _ within_expireSetClean

end Within

theorem dispatch_within (arith : DoubleArith) {key : Bytes} {args : List Bytes}
    (hkey : OnKey key args) : (dispatch arith args).WithinKey key :=
  (dispatch_keyCommand arith hkey).within

/-! ## What a read sees -/

/-- The answer depends on the records of the keys only. -/
def Command.Sees (keys : Bytes → Prop) (command : Command) : Prop :=
  ∀ now (store store' : Store), (∀ seen, keys seen → store.get seen = store'.get seen) →
    (command.run now store).2 = (command.run now store').2

/-- In an ascending list the place of a key depends on the keys up to it. -/
theorem findIdx?_filter_le {records : List (Bytes × Bytes)} {target : Bytes}
    (hsorted : records.Pairwise fun left right => left.1 < right.1) :
    (records.filter fun record => decide (record.1 ≤ target)).findIdx?
        (fun record => decide (record.1 = target)) =
      records.findIdx? fun record => decide (record.1 = target) := by
  induction records with
  | nil => rfl
  | cons record rest ih =>
      obtain ⟨hhead, htail⟩ := List.pairwise_cons.mp hsorted
      rw [List.filter_cons]
      split_ifs with hle
      · rw [List.findIdx?_cons, List.findIdx?_cons, ih htail]
      · have hlt : target < record.1 := by simpa using hle
        have hlater : ∀ other ∈ rest, target < other.1 :=
          fun other hother => hlt.trans (hhead other hother)
        have hnone : rest.findIdx? (fun record => decide (record.1 = target)) = none :=
          List.findIdx?_eq_none_iff.mpr fun other hother => by
            simpa using (hlater other hother).ne'
        have hempty : rest.filter (fun record => decide (record.1 ≤ target)) = [] :=
          List.filter_eq_nil_iff.mpr fun other hother => by simpa using hlater other hother
        rw [hempty, List.findIdx?_cons, if_neg (by simpa using hlt.ne'), hnone]
        rfl

theorem elem_lt_score (elem : Bytes) : ascii "ELEM_" ++ elem < ascii "SCORE_" := by
  have helem : ascii "ELEM_" ++ elem = 69 :: (ascii "LEM_" ++ elem) := rfl
  have hscore : ascii "SCORE_" = 83 :: ascii "CORE_" := rfl
  rw [helem, hscore, List.cons_lt_cons_iff]
  exact Or.inl (by decide)

section Sees

variable {key : Bytes} {store store' : Store}
  (hsame : ∀ seen, SeenKey key seen → store.get seen = store'.get seen)
include hsame

theorem scan_scores_congr :
    store.scan (getZsetScorePreffix key) = store'.scan (getZsetScorePreffix key) := by
  apply Store.scan_congr
  rintro _ ⟨slot, rfl⟩
  apply hsame
  rw [getZsetScorePreffix_eq, List.append_assoc]
  exact SeenKey.zset _ (Or.inr (List.prefix_append _ _))

theorem get_zsetElem_congr (elem : Bytes) :
    store.get (getZsetKeyElem key elem) = store'.get (getZsetKeyElem key elem) := by
  apply hsame
  rw [getZsetKeyElem_preffix]
  exact SeenKey.zset _ (Or.inl (elem_lt_score elem))

theorem rank_congr (score : Bytes) :
    ((store.scan (getZsetKeyPreffix key)).findIdx? fun record =>
        decide (record.1 = getZsetKeySocre key score)) =
      (store'.scan (getZsetKeyPreffix key)).findIdx? fun record =>
        decide (record.1 = getZsetKeySocre key score) := by
  rw [← findIdx?_filter_le (store.scan_ascending _),
    ← findIdx?_filter_le (store'.scan_ascending _)]
  congr 1
  apply Store.scan_filter_congr (p := fun name => decide (name ≤ getZsetKeySocre key score))
  rintro _ ⟨rest, rfl⟩ hle
  apply hsame
  apply SeenKey.zset
  rw [getZsetKeySocre_preffix, decide_eq_true_iff, ← not_lt, Prefixes.append_lt_append_left, not_lt]
    at hle
  exact Prefixes.lt_or_prefix_of_le hle

/-- A read whose clean-up fails or succeeds alike in both stores. -/
theorem reply_readCommand {clean : Store → Store × Except Err Unit} {expired : Bytes}
    {read : Store → Except Err Bytes} (hclean : (clean store).2 = (clean store').2)
    (hread : read store = read store') (now : ℤ) :
    ((readCommand key clean expired read).run now store).2 =
      ((readCommand key clean expired read).run now store').2 := by
  rw [readCommand, checkExpiry, Command.run, Command.run, hsame _ SeenKey.expire]
  cases isExpired (store'.get (getExplireKey key)) now with
  | error err => rfl
  | ok verdict =>
      cases verdict with
      | false => exact hread
      | true =>
          dsimp only
          rw [Command.run, Command.run]
          revert hclean
          generalize clean store = cleaned
          generalize clean store' = cleaned'
          obtain ⟨cleaned, result⟩ := cleaned
          obtain ⟨cleaned', result'⟩ := cleaned'
          rintro rfl
          cases result <;> rfl

theorem reply_redisGet (now : ℤ) :
    ((redisGet key).run now store).2 = ((redisGet key).run now store').2 := by
  rw [redisGet, Command.run, Command.run]
  dsimp only
  rw [hsame _ SeenKey.plain, hsame _ SeenKey.expire]
  cases store'.get key with
  | none => cases store'.get (getExplireKey key) <;> rfl
  | some value =>
      cases store'.get (getExplireKey key) with
      | none => rfl
      | some expireStr =>
          dsimp only
          cases isExpired (some expireStr) now with
          | error err => rfl
          | ok verdict => cases verdict <;> rfl

theorem reply_redisTtl (now : ℤ) :
    ((redisTtl key).run now store).2 = ((redisTtl key).run now store').2 := by
  rw [redisTtl, Command.run, Command.run]
  rw [hsame _ SeenKey.plain, hsame _ SeenKey.expire]
  cases store'.get key with
  | none => rfl
  | some value =>
      cases store'.get (getExplireKey key) with
      | none => rfl
      | some expireStr =>
          dsimp only
          cases isExpired (some expireStr) now with
          | error err => rfl
          | ok verdict => cases verdict <;> rfl

theorem reply_hashClean :
    (expireHashClean key store).2 = (expireHashClean key store').2 := by
  rw [expireHashClean, expireHashClean, hsame _ SeenKey.plain]
  cases getFiledsFromHashValue (store'.get key) <;> rfl

end Sees

/-- A read command on the key. -/
def ReadsKey (key : Bytes) : List Bytes → Prop
  | opStr :: other :: _ =>
      other = key ∧ string2Ops opStr ∈ [Ops.get, .ttl, .hget, .hkeys, .llen, .lrange, .zrange,
        .zcard, .zscore, .zrank, .sismember, .scard, .smembers]
  | _ => False

theorem reply_exactly {size : ℕ} {name : String} {args : List Bytes} {next : Command}
    {now : ℤ} {store store' : Store}
    (hnext : (next.run now store).2 = (next.run now store').2) :
    ((exactly size name args next).run now store).2 =
      ((exactly size name args next).run now store').2 := by
  rw [exactly]
  split_ifs
  · rfl
  · exact hnext

theorem reply_withArg {args : List Bytes} {idx : ℕ} {next : Bytes → Command} {now : ℤ}
    {store store' : Store}
    (hnext : ∀ arg, ((next arg).run now store).2 = ((next arg).run now store').2) :
    ((withArg args idx next).run now store).2 = ((withArg args idx next).run now store').2 := by
  rw [withArg]
  cases args[idx]? with
  | none => rfl
  | some arg => exact hnext arg

theorem reply_withNumber {number : Except Err ℤ} {next : ℤ → Command} {now : ℤ}
    {store store' : Store}
    (hnext : ∀ number, ((next number).run now store).2 = ((next number).run now store').2) :
    ((withNumber number next).run now store).2 = ((withNumber number next).run now store').2 := by
  cases number with
  | error err => rfl
  | ok number => exact hnext number

/-- The answer of a read depends on the seen records. -/
theorem dispatch_reply (arith : DoubleArith) {key : Bytes} {args : List Bytes}
    (hreads : ReadsKey key args) {store store' : Store}
    (hsame : ∀ seen, SeenKey key seen → store.get seen = store'.get seen) (now : ℤ) :
    ((dispatch arith args).run now store).2 = ((dispatch arith args).run now store').2 := by
  rcases args with _ | ⟨opStr, _ | ⟨other, rest⟩⟩
  · cases hreads
  · cases hreads
  obtain ⟨rfl, hop⟩ := hreads
  have hfield : ∀ field, store.get (getHashFiledKey other field) =
      store'.get (getHashFiledKey other field) := fun field => hsame _ (SeenKey.field field)
  have hmember : ∀ elem, store.get (getSetMemberKey other elem) =
      store'.get (getSetMemberKey other elem) := fun elem => hsame _ (SeenKey.member elem)
  have hplain := hsame _ SeenKey.plain
  rw [dispatch, withArg, List.getElem?_cons_zero]
  dsimp only
  generalize string2Ops opStr = op at hop ⊢
  cases op with
  | get => exact reply_exactly (reply_redisGet hsame now)
  | ttl => exact reply_exactly (reply_redisTtl hsame now)
  | hget =>
      apply reply_exactly
      change ((withArg _ 2 _).run now store).2 = _
      apply reply_withArg
      intro field
      apply reply_readCommand hsame (reply_hashClean hsame)
      rw [hfield]
  | hkeys =>
      apply reply_exactly
      apply reply_readCommand hsame (reply_hashClean hsame)
      rw [hplain]
  | llen =>
      apply reply_exactly
      apply reply_readCommand hsame rfl
      rw [hplain]
  | lrange =>
      apply reply_exactly
      apply reply_withArg
      intro startStr
      apply reply_withArg
      intro endStr
      apply reply_withNumber
      intro start
      apply reply_withNumber
      intro stop
      apply reply_readCommand hsame rfl
      rw [hplain]
  | zrange =>
      dsimp only
      rw [zrangeHandler]
      split_ifs
      · rfl
      · rcases rest with _ | ⟨startStr, _ | ⟨stopStr, rest⟩⟩
        · rfl
        · rfl
        · apply reply_withNumber
          intro start
          apply reply_withNumber
          intro stop
          apply reply_readCommand hsame rfl
          rw [scan_scores_congr hsame]
  | zcard =>
      apply reply_exactly
      apply reply_readCommand hsame rfl
      rw [scan_scores_congr hsame]
  | zscore =>
      apply reply_exactly
      change ((withArg _ 2 _).run now store).2 = _
      apply reply_withArg
      intro elem
      apply reply_readCommand hsame rfl
      rw [get_zsetElem_congr hsame]
  | zrank =>
      apply reply_exactly
      change ((withArg _ 2 _).run now store).2 = _
      apply reply_withArg
      intro elem
      apply reply_readCommand hsame rfl
      rw [get_zsetElem_congr hsame]
      cases store'.get (getZsetKeyElem other elem) with
      | none => rfl
      | some score =>
          dsimp only
          rw [rank_congr hsame]
  | sismember =>
      apply reply_exactly
      change ((withArg _ 2 _).run now store).2 = _
      apply reply_withArg
      intro member
      apply reply_readCommand hsame rfl
      rw [hmember]
  | scard =>
      apply reply_exactly
      apply reply_readCommand hsame rfl
      rw [hplain]
  | smembers =>
      apply reply_exactly
      apply reply_readCommand hsame rfl
      have hscan : store.scan (getSetMemberPrefix other) =
          store'.scan (getSetMemberPrefix other) := by
        apply Store.scan_congr
        rintro _ ⟨elem, rfl⟩
        exact hmember elem
      dsimp only
      rw [hscan]
  | _ => exact absurd hop (by decide)

end KopiDb.Redis

import KopiDb.Redis.Backing
import KopiDb.Redis.Wrapper

/-!
# The wrapper on the engine

The methods of the wrapper call an `LSM`, and a call may throw, in the flush or the compaction
that it starts or where it reads a block.  Up to the first call that does, the methods answer as
their commands do on the one map, and the `LSM` holds the records of that map.
-/

namespace KopiDb.Redis

/-! ## The calls on the engine -/

namespace LsmCall

/-- A call that returns leaves its reply and the store. -/
def returned {α : Type} (outcome : LSM × Except Err α) : Except Err (LSM × α) :=
  outcome.2.map fun reply => (outcome.1, reply)

theorem returned_eq_ok {α : Type} {outcome : LSM × Except Err α} {next : LSM × α}
    (hreturned : returned outcome = .ok next) : outcome.1 = next.1 ∧ outcome.2 = .ok next.2 := by
  rcases outcome with ⟨lsm, err | reply⟩
  · cases hreturned
  · obtain rfl := Except.ok.inj hreturned
    exact ⟨rfl, rfl⟩

/-- The keys that a call writes to. -/
def keys : LsmCall → List Bytes
  | put key _ => [key]
  | putBatch kvs => kvs.map Prod.fst
  | remove key => [key]
  | removeBatch keys => keys
  | _ => []

/-- What a call throws where it reads blocks, if anything. -/
abbrev Reads := LSM → LsmCall → Option Err

/-- The call on the `LSM`, if its reads of blocks do not throw. -/
def answered (config : Config) (sameBlock : SstIterator → Bool) (lsm : LSM) :
    (call : LsmCall) → Except Err (LSM × call.Reply)
  | get key => returned (lsm.get key)
  | put key value => returned (lsm.put config key value)
  | putBatch kvs => returned (lsm.putBatch config kvs)
  | remove key => returned (lsm.remove config key)
  | removeBatch keys => returned (lsm.removeBatch config keys)
  | scan preffix => returned
      (lsm, (lsm.scanRange 0 (preffixPredicate preffix) sameBlock).map keyValues)
  | clear => .ok (lsm.clear, ())
  | flush => returned (lsm.flush config)

/-- The call on the `LSM`. -/
def onLsm (config : Config) (sameBlock : SstIterator → Bool) (reads : Reads) (lsm : LSM)
    (call : LsmCall) : Except Err (LSM × call.Reply) :=
  match reads lsm call with
  | some err => .error err
  | none => call.answered config sameBlock lsm

/-- No call writes under the empty key, and a scan finds nothing outside of its range. -/
def named : CallTree.Contract LsmCall Reply where
  asks call := ∀ key ∈ call.keys, key ≠ []
  promises
    | scan preffix, records => ∀ record ∈ records, preffix <+: record.1
    | _, _ => True

/-- Every call that returns does on the `LSM` what it does on the map. -/
theorem onLsm_refines (config : Config) (sameBlock : SstIterator → Bool) (reads : Reads) :
    CallTree.Refines named (fun lsm store => ∃ history, Backs lsm history store)
      (onLsm config sameBlock reads) onStore where
  promised store call := by
    cases call with
    | scan preffix => exact fun record hmem => (Store.mem_scan.mp hmem).1
    | _ => trivial
  step {lsm store call next} hbacks hkeys hreturned := by
    obtain ⟨history, hbacks⟩ := hbacks
    have hanswered : call.answered config sameBlock lsm = .ok next := by
      rw [onLsm] at hreturned
      cases hreads : reads lsm call with
      | some err =>
          rw [hreads] at hreturned
          cases hreturned
      | none =>
          rw [hreads] at hreturned
          exact hreturned
    have hkept : ∀ call : StoreCall, (∀ key ∈ call.keys, key ≠ []) →
        (call.runOn config lsm).1 = next.1 →
          ∃ history, Backs next.1 history (call.apply store).1 := by
      intro call hkeys hlsm
      obtain ⟨history', hnext⟩ := hbacks.kept config call hkeys
      exact ⟨history', hlsm ▸ hnext⟩
    cases call with
    | get key =>
        obtain ⟨hlsm, hreply⟩ := returned_eq_ok hanswered
        refine ⟨?_, hkept (.get key) (List.forall_mem_nil _) hlsm⟩
        have hget := hbacks.taken.get_eq key fun entry hmem => (hbacks.below entry hmem).le
        exact Except.ok.inj (hreply.symm.trans hget)
    | scan preffix =>
        obtain ⟨entries, hscan, hrecords⟩ := hbacks.scanRange_eq preffix sameBlock
        rw [answered, hscan] at hanswered
        obtain rfl := Except.ok.inj hanswered
        exact ⟨hrecords, history, hbacks⟩
    | put key value => exact ⟨rfl, hkept (.put key value) hkeys (returned_eq_ok hanswered).1⟩
    | putBatch kvs => exact ⟨rfl, hkept (.putBatch kvs) hkeys (returned_eq_ok hanswered).1⟩
    | remove key => exact ⟨rfl, hkept (.remove key) hkeys (returned_eq_ok hanswered).1⟩
    | removeBatch keys => exact ⟨rfl, hkept (.removeBatch keys) hkeys (returned_eq_ok hanswered).1⟩
    | clear =>
        obtain rfl := Except.ok.inj hanswered
        exact ⟨rfl, hkept .clear hkeys rfl⟩
    | flush => exact ⟨rfl, hkept .flush hkeys (returned_eq_ok hanswered).1⟩

end LsmCall

/-! ## Keys that are made from keys -/

theorem getExplireKey_ne_nil (key : Bytes) : getExplireKey key ≠ [] :=
  List.append_ne_nil_of_left_ne_nil (by decide) _

/-- The keys of the parts of a collection, all of one form. -/
theorem partKey_ne_nil {separator : Bytes} (hseparator : separator ≠ []) (preffix rest : Bytes) :
    preffix ++ separator ++ rest ≠ [] :=
  List.append_ne_nil_of_left_ne_nil (List.append_ne_nil_of_right_ne_nil _ hseparator) _

theorem getHashFiledKey_ne_nil (key field : Bytes) : getHashFiledKey key field ≠ [] :=
  partKey_ne_nil (by decide) _ _

theorem getZsetKeySocre_ne_nil (key score : Bytes) : getZsetKeySocre key score ≠ [] :=
  partKey_ne_nil (by decide) _ _

theorem getZsetKeyElem_ne_nil (key elem : Bytes) : getZsetKeyElem key elem ≠ [] :=
  partKey_ne_nil (by decide) _ _

theorem getSetMemberKey_ne_nil (key elem : Bytes) : getSetMemberKey key elem ≠ [] :=
  partKey_ne_nil (by decide) _ _

/-! ## Methods that write under names -/

namespace RedisWrapper

/-- No call of the method writes under the empty key. -/
abbrev Named {α : Type} (method : Method α) : Prop := method.Keeps LsmCall.named

section Named

variable {α : Type} {key : Bytes}

theorem named_lsmGet {next : Option Bytes → Method α} (hnext : ∀ found, Named (next found)) :
    Named (lsmGet key >>= next) :=
  CallTree.Keeps.make_bind (List.forall_mem_nil _) fun found _ => hnext found

theorem named_lsmPut {value : Bytes} {next : Unit → Method α} (hkey : key ≠ [])
    (hnext : Named (next ())) : Named (lsmPut key value >>= next) :=
  CallTree.Keeps.make_bind (List.forall_mem_singleton.mpr hkey) fun _ _ => hnext

theorem named_lsmPutBatch {kvs : List (Bytes × Bytes)} {next : Unit → Method α}
    (hkvs : ∀ kv ∈ kvs, kv.1 ≠ []) (hnext : Named (next ())) :
    Named (lsmPutBatch kvs >>= next) :=
  CallTree.Keeps.make_bind (List.forall_mem_map.mpr hkvs) fun _ _ => hnext

theorem named_lsmRemove {next : Unit → Method α} (hkey : key ≠ []) (hnext : Named (next ())) :
    Named (lsmRemove key >>= next) :=
  CallTree.Keeps.make_bind (List.forall_mem_singleton.mpr hkey) fun _ _ => hnext

theorem named_lsmRemoveBatch {keys : List Bytes} {next : Unit → Method α}
    (hkeys : ∀ key ∈ keys, key ≠ []) (hnext : Named (next ())) :
    Named (lsmRemoveBatch keys >>= next) :=
  CallTree.Keeps.make_bind hkeys fun _ _ => hnext

/-- What is found in the range of a prefix has the prefix, so that it is under a name. -/
theorem named_lsmScan {preffix : Bytes} {next : List (Bytes × Bytes) → Method α}
    (hnext : ∀ records, (∀ record ∈ records, preffix <+: record.1) → Named (next records)) :
    Named (lsmScan preffix >>= next) :=
  CallTree.Keeps.make_bind (List.forall_mem_nil _) hnext

theorem named_ofExcept {β : Type} {result : Except Err β} {next : β → Method α}
    (hnext : ∀ value, Named (next value)) : Named (CallTree.ofExcept result >>= next) :=
  (CallTree.Keeps.ofExcept result).bind hnext

theorem named_forM_lsmRemove {keys : List Bytes} (hkeys : ∀ key ∈ keys, key ≠ [])
    {next : Unit → Method α} (hnext : Named (next ())) :
    Named (keys.forM lsmRemove >>= next) := by
  induction keys with
  | nil => exact hnext
  | cons key rest ih =>
      obtain ⟨hkey, hrest⟩ := List.forall_mem_cons.mp hkeys
      exact named_lsmRemove hkey (ih hrest)

theorem named_return (value : α) : Named (return value) := CallTree.Keeps.pure value

/-! ### Expiry -/

theorem named_hashClean (hkey : key ≠ []) : Named (hashClean key) := by
  refine named_lsmGet fun _ => named_ofExcept fun fileds => named_forM_lsmRemove ?_ ?_
  · exact List.forall_mem_map.mpr fun field _ => getHashFiledKey_ne_nil key field
  · exact named_lsmRemove hkey (CallTree.Keeps.make
      (List.forall_mem_singleton.mpr (getExplireKey_ne_nil key)))

theorem named_listClean (hkey : key ≠ []) : Named (listClean key) :=
  named_lsmRemove hkey (CallTree.Keeps.make
    (List.forall_mem_singleton.mpr (getExplireKey_ne_nil key)))

theorem named_prefixClean {preffix : Bytes} (hpreffix : preffix ≠ []) (hkey : key ≠ []) :
    Named (prefixClean preffix key) := by
  refine named_lsmRemove hkey (named_lsmRemove (getExplireKey_ne_nil key)
    (named_lsmScan fun records hrecords => ?_))
  split_ifs
  · exact named_return ()
  · refine CallTree.Keeps.make (List.forall_mem_map.mpr fun record hmem => ?_)
    exact (hrecords record hmem).ne_nil hpreffix

theorem named_zsetClean (hkey : key ≠ []) : Named (prefixClean (getZsetKeyPreffix key) key) :=
  named_prefixClean (List.append_ne_nil_of_right_ne_nil _ (by decide)) hkey

theorem named_setClean (hkey : key ≠ []) : Named (prefixClean (getSetKeyPreffix key) key) :=
  named_prefixClean (List.append_ne_nil_of_right_ne_nil _ (by decide)) hkey

theorem named_expireClean {clean : Method Unit} (hclean : Named clean) (now : ℤ)
    {next : Bool → Method α} (hnext : ∀ expired, Named (next expired)) :
    Named (expireClean clean now key >>= next) := by
  have hcheck : Named (expireClean clean now key) := by
    refine named_lsmGet fun _ => named_ofExcept fun expired => ?_
    split_ifs
    · exact hclean.bind fun _ => named_return true
    · exact named_return false
  exact hcheck.bind hnext

/-- A method that answers at once when the key has expired. -/
theorem named_unlessExpired {clean : Method Unit} (hclean : Named clean) (now : ℤ)
    {expired live : Method α} (hexpired : Named expired) (hlive : Named live) :
    Named (expireClean clean now key >>= fun hasExpired =>
      if hasExpired then expired else live) := by
  refine named_expireClean hclean now fun hasExpired => ?_
  split_ifs
  · exact hexpired
  · exact hlive

/-! ### Strings -/

theorem named_redisAdd (step : ℤ) (hkey : key ≠ []) : Named (redisAdd step key) := by
  refine named_lsmGet fun found => ?_
  cases found with
  | none => exact named_lsmPut hkey (named_return _)
  | some originalValue => exact named_ofExcept fun _ => named_lsmPut hkey (named_return _)

theorem named_dropExpire (key : Bytes) : Named (dropExpire key) := by
  refine named_lsmGet fun expireQuery => ?_
  split_ifs
  · exact CallTree.Keeps.make (List.forall_mem_singleton.mpr (getExplireKey_ne_nil key))
  · exact named_return ()

theorem named_delRecord (hkey : key ≠ []) : Named (delRecord key) := by
  refine named_lsmGet fun found => ?_
  cases found with
  | none => exact named_return 0
  | some curValue =>
      dsimp only
      split_ifs
      · refine named_ofExcept fun fieldList => named_forM_lsmRemove ?_
          (named_lsmRemove hkey (named_return 1))
        exact List.forall_mem_map.mpr fun field _ => getHashFiledKey_ne_nil key field
      · exact named_lsmRemove hkey (named_return 1)

theorem named_delKeys {keys : List Bytes} (hkeys : ∀ key ∈ keys, key ≠ []) (delCount : ℕ) :
    Named (delKeys keys delCount) := by
  induction keys generalizing delCount with
  | nil => exact named_return _
  | cons curKey rest ih =>
      obtain ⟨hkey, hrest⟩ := List.forall_mem_cons.mp hkeys
      have hdel : Named (delKey curKey) :=
        (named_delRecord hkey).bind fun deleted =>
          (named_dropExpire curKey).bind fun _ => named_return deleted
      exact hdel.bind fun deleted => ih hrest _

theorem named_redisExpire (now : ℤ) (key secondsCount : Bytes) :
    Named (redisExpire now key secondsCount) :=
  named_ofExcept fun _ => named_lsmPut (getExplireKey_ne_nil key) (named_return _)

theorem named_redisSet (value : Bytes) (hkey : key ≠ []) : Named (redisSet key value) :=
  named_lsmPut hkey ((named_dropExpire key).bind fun _ => named_return okReply)

theorem named_redisGet (now : ℤ) (hkey : key ≠ []) : Named (redisGet now key) := by
  have hexpire := getExplireKey_ne_nil key
  refine named_lsmGet fun keyQuery => named_lsmGet fun expireQuery => ?_
  cases keyQuery with
  | none =>
      cases expireQuery with
      | none => exact named_return nilReply
      | some expireStr => exact named_lsmRemove hexpire (named_return nilReply)
  | some value =>
      cases expireQuery with
      | none => exact named_return (bulkReply value)
      | some expireStr =>
          refine named_ofExcept fun expired => ?_
          split_ifs
          · exact named_lsmRemove hkey (named_lsmRemove hexpire (named_return nilReply))
          · exact named_return (bulkReply value)

theorem named_redisTtl (now : ℤ) (key : Bytes) : Named (redisTtl now key) := by
  refine named_lsmGet fun keyQuery => named_lsmGet fun expireQuery => ?_
  cases keyQuery with
  | none => exact named_return _
  | some value =>
      cases expireQuery with
      | none => exact named_return _
      | some expireStr =>
          refine named_ofExcept fun expired => ?_
          split_ifs
          · exact named_return _
          · exact named_ofExcept fun _ => named_return _

/-! ### Hashes -/

theorem named_hsetFields (key : Bytes) (pairs : List (Bytes × Bytes)) (fieldList : List Bytes)
    (addedCount : ℕ) : Named (hsetFields key pairs fieldList addedCount) := by
  induction pairs generalizing fieldList addedCount with
  | nil => exact named_return _
  | cons pair rest ih =>
      refine named_lsmPut (getHashFiledKey_ne_nil key pair.1) ?_
      split_ifs
      · exact ih _ _
      · exact ih _ _

theorem named_redisHsetBatch (now : ℤ) (fieldValuePairs : List (Bytes × Bytes))
    (hkey : key ≠ []) : Named (redisHsetBatch now key fieldValuePairs) :=
  named_expireClean (named_hashClean hkey) now fun _ => named_lsmGet fun _ =>
    named_ofExcept fun fieldList => (named_hsetFields key fieldValuePairs fieldList 0).bind fun _ =>
      named_lsmPut hkey (named_return _)

theorem named_redisHget (now : ℤ) (field : Bytes) (hkey : key ≠ []) :
    Named (redisHget now key field) := by
  refine named_unlessExpired (named_hashClean hkey) now (named_return _)
    (named_lsmGet fun found => ?_)
  cases found with
  | none => exact named_return _
  | some value => exact named_return _

theorem named_dropField (field : Bytes) (hkey : key ≠ []) : Named (dropField key field) := by
  refine named_lsmGet fun _ => named_ofExcept fun fieldList => ?_
  dsimp only
  split_ifs
  · exact CallTree.Keeps.make (List.forall_mem_singleton.mpr hkey)
  · exact CallTree.Keeps.make (List.forall_mem_singleton.mpr hkey)
  · exact named_return ()

theorem named_redisHdel (now : ℤ) (field : Bytes) (hkey : key ≠ []) :
    Named (redisHdel now key field) := by
  have hdrop := fun count : ℤ => (named_dropField field hkey).bind fun _ =>
    named_return (intReply count)
  refine named_unlessExpired (named_hashClean hkey) now (named_return _)
    (named_lsmGet fun found => ?_)
  split_ifs
  · exact named_lsmRemove (getHashFiledKey_ne_nil key field) (hdrop 1)
  · exact hdrop 0

theorem named_redisHkeys (now : ℤ) (hkey : key ≠ []) : Named (redisHkeys now key) :=
  named_unlessExpired (named_hashClean hkey) now (named_return _)
    (named_lsmGet fun _ => named_ofExcept fun _ => named_return _)

/-! ### Lists -/

theorem named_redisPush (added : Bytes → Bytes → Bytes) (now : ℤ) (value : Bytes)
    (hkey : key ≠ []) : Named (redisPush added now key value) :=
  named_expireClean (named_listClean hkey) now fun _ => named_lsmGet fun _ =>
    named_lsmPut hkey (named_return _)

theorem named_redisPop (taken : List Bytes → Option (Bytes × List Bytes)) (now : ℤ)
    (hkey : key ≠ []) : Named (redisPop taken now key) := by
  refine named_unlessExpired (named_listClean hkey) now (named_return _)
    (named_lsmGet fun found => ?_)
  cases found with
  | none => exact named_return _
  | some list =>
      dsimp only
      cases taken (split list redisListSeparator) with
      | none => exact named_return _
      | some popped =>
          dsimp only
          split_ifs
          · exact named_lsmRemove hkey (named_return _)
          · exact named_lsmPut hkey (named_return _)

theorem named_redisLlen (now : ℤ) (hkey : key ≠ []) : Named (redisLlen now key) := by
  refine named_unlessExpired (named_listClean hkey) now (named_return _)
    (named_lsmGet fun found => ?_)
  cases found with
  | none => exact named_return _
  | some list => exact named_return _

theorem named_redisLrange (now start stop : ℤ) (hkey : key ≠ []) :
    Named (redisLrange now key start stop) := by
  refine named_unlessExpired (named_listClean hkey) now (named_return _)
    (named_lsmGet fun found => ?_)
  cases found with
  | none => exact named_return _
  | some list =>
      dsimp only
      split_ifs
      · exact named_return _
      · exact named_return _

/-! ### Sorted sets -/

/-- The batch of `redis_zadd` goes on with named keys. -/
theorem named_zaddPairs (pairs : List (Bytes × Bytes)) {putKvs : List (Bytes × Bytes)}
    (hkvs : ∀ kv ∈ putKvs, kv.1 ≠ []) (removeKeys : List Bytes) (addedCount : ℕ)
    {next : List (Bytes × Bytes) × List Bytes × ℕ → Method α}
    (hnext : ∀ result, (∀ kv ∈ result.1, kv.1 ≠ []) → Named (next result)) :
    Named (zaddPairs key pairs putKvs removeKeys addedCount >>= next) := by
  induction pairs generalizing putKvs removeKeys addedCount with
  | nil => exact hnext _ hkvs
  | cons pair rest ih =>
      have hadded : ∀ kv ∈ putKvs ++
          [(getZsetKeySocre key pair.1, pair.2), (getZsetKeyElem key pair.2, pair.1)],
          kv.1 ≠ [] := by
        refine List.forall_mem_append.mpr ⟨hkvs, List.forall_mem_cons.mpr
          ⟨getZsetKeySocre_ne_nil key pair.1, List.forall_mem_singleton.mpr ?_⟩⟩
        exact getZsetKeyElem_ne_nil key pair.2
      refine named_lsmGet fun found => ?_
      cases found with
      | none => exact ih hadded _ _
      | some originalScore =>
          change Named ((if originalScore = pair.1 then _ else _) >>= next)
          split_ifs
          · exact ih hkvs _ _
          · exact ih hadded _ _

theorem named_redisZadd (now : ℤ) {args : List Bytes} (hkey : ∀ key ∈ args[1]?, key ≠ []) :
    Named (redisZadd now args) := by
  match args with
  | [] => exact CallTree.Keeps.throw _
  | [_] => exact CallTree.Keeps.throw _
  | _ :: key :: args =>
      have hkey := hkey key rfl
      refine named_ofExcept fun pairs => named_expireClean (named_zsetClean hkey) now fun _ =>
        named_lsmGet fun found => named_zaddPairs pairs ?_ [] 0 fun result hresult =>
          named_lsmRemoveBatch (List.forall_mem_nil _) (named_lsmPutBatch hresult (named_return _))
      split_ifs
      · exact List.forall_mem_nil _
      · exact List.forall_mem_singleton.mpr hkey

theorem named_zremElems (key : Bytes) (elems : List Bytes) (removedCount : ℕ) :
    Named (zremElems key elems removedCount) := by
  induction elems generalizing removedCount with
  | nil => exact named_return _
  | cons elem rest ih =>
      refine named_lsmGet fun found => ?_
      cases found with
      | none => exact ih _
      | some score =>
          exact named_lsmRemove (getZsetKeyElem_ne_nil key elem)
            (named_lsmRemove (getZsetKeySocre_ne_nil key score) (ih _))

theorem named_redisZrem (now : ℤ) {args : List Bytes} (hkey : ∀ key ∈ args[1]?, key ≠ []) :
    Named (redisZrem now args) := by
  match args with
  | [] => exact named_return _
  | [_] => exact named_return _
  | [_, _] => exact named_return _
  | _ :: key :: elem :: rest =>
      exact named_unlessExpired (named_zsetClean (hkey key rfl)) now (named_return _)
        ((named_zremElems key (elem :: rest) 0).bind fun _ => named_return _)

theorem named_redisZrange (now : ℤ) {args : List Bytes} (hkey : ∀ key ∈ args[1]?, key ≠ []) :
    Named (redisZrange now args) := by
  match args with
  | [] => exact CallTree.Keeps.throw _
  | [_] => exact CallTree.Keeps.throw _
  | [_, _] => exact CallTree.Keeps.throw _
  | [_, _, _] => exact CallTree.Keeps.throw _
  | _ :: key :: startStr :: stopStr :: _ =>
      refine named_ofExcept fun start => named_ofExcept fun stop =>
        named_unlessExpired (named_zsetClean (hkey key rfl)) now (named_return _)
          (named_lsmScan fun records _ => ?_)
      dsimp only
      split_ifs
      · exact named_return _
      · exact named_return _

theorem named_redisZcard (now : ℤ) (hkey : key ≠ []) : Named (redisZcard now key) :=
  named_unlessExpired (named_zsetClean hkey) now (named_return _)
    (named_lsmScan fun _ _ => named_return _)

theorem named_redisZscore (now : ℤ) (elem : Bytes) (hkey : key ≠ []) :
    Named (redisZscore now key elem) := by
  refine named_unlessExpired (named_zsetClean hkey) now (named_return _)
    (named_lsmGet fun found => ?_)
  cases found with
  | none => exact named_return _
  | some score => exact named_return _

theorem named_incrScore (arith : DoubleArith) (key increment elem : Bytes) :
    Named (incrScore arith key increment elem) := by
  refine named_lsmGet fun found => ?_
  cases found with
  | none => exact named_ofExcept fun _ => named_return _
  | some originalScore =>
      exact named_ofExcept fun _ => named_ofExcept fun _ =>
        named_lsmRemove (getZsetKeySocre_ne_nil key originalScore) (named_return _)

theorem named_redisZincrby (arith : DoubleArith) (now : ℤ) (increment elem : Bytes)
    (hkey : key ≠ []) : Named (redisZincrby arith now key increment elem) :=
  named_expireClean (named_zsetClean hkey) now fun _ =>
    (named_incrScore arith key increment elem).bind fun _ =>
      named_lsmPut (getZsetKeyElem_ne_nil key elem)
        (named_lsmPut (getZsetKeySocre_ne_nil key _) (named_return _))

theorem named_redisZrank (now : ℤ) (elem : Bytes) (hkey : key ≠ []) :
    Named (redisZrank now key elem) := by
  refine named_unlessExpired (named_zsetClean hkey) now (named_return _)
    (named_lsmGet fun found => ?_)
  cases found with
  | none => exact named_return _
  | some score =>
      refine named_lsmScan fun records _ => ?_
      split
      · exact named_return _
      · exact named_return _

/-! ### Sets -/

/-- The batch of `redis_sadd` goes on with named keys. -/
theorem named_newMembers (members : List Bytes) {putKvs : List (Bytes × Bytes)}
    (hkvs : ∀ kv ∈ putKvs, kv.1 ≠ []) {next : List (Bytes × Bytes) → Method α}
    (hnext : ∀ putKvs, (∀ kv ∈ putKvs, kv.1 ≠ []) → Named (next putKvs)) :
    Named (newMembers key members putKvs >>= next) := by
  induction members generalizing putKvs with
  | nil => exact hnext _ hkvs
  | cons member rest ih =>
      refine named_lsmGet fun found => ?_
      change Named ((if found.isNone then _ else _) >>= next)
      split_ifs
      · exact ih (List.forall_mem_append.mpr
          ⟨hkvs, List.forall_mem_singleton.mpr (getSetMemberKey_ne_nil key member)⟩)
      · exact ih hkvs

/-- So does the batch of `redis_srem`. -/
theorem named_heldMembers (members : List Bytes) {delKvs : List Bytes}
    (hkeys : ∀ key ∈ delKvs, key ≠ []) {next : List Bytes → Method α}
    (hnext : ∀ delKvs, (∀ key ∈ delKvs, key ≠ []) → Named (next delKvs)) :
    Named (heldMembers key members delKvs >>= next) := by
  induction members generalizing delKvs with
  | nil => exact hnext _ hkeys
  | cons member rest ih =>
      refine named_lsmGet fun found => ?_
      change Named ((if found.isSome then _ else _) >>= next)
      split_ifs
      · exact ih (List.forall_mem_append.mpr
          ⟨hkeys, List.forall_mem_singleton.mpr (getSetMemberKey_ne_nil key member)⟩)
      · exact ih hkeys

theorem named_setSize (key : Bytes) : Named (setSize key) := by
  refine named_lsmGet fun found => ?_
  cases found with
  | none => exact named_return 0
  | some size => exact CallTree.Keeps.ofExcept _

theorem named_redisSadd (now : ℤ) {args : List Bytes} (hkey : ∀ key ∈ args[1]?, key ≠ []) :
    Named (redisSadd now args) := by
  match args with
  | [] => exact CallTree.Keeps.throw _
  | [_] => exact CallTree.Keeps.throw _
  | _ :: key :: members =>
      have hkey := hkey key rfl
      refine named_expireClean (named_setClean hkey) now fun _ =>
        named_newMembers members (List.forall_mem_nil _) fun putKvs hkvs =>
          (named_setSize key).bind fun prevSize => named_lsmPutBatch ?_ (named_return _)
      exact List.forall_mem_append.mpr ⟨hkvs, List.forall_mem_singleton.mpr hkey⟩

theorem named_redisSrem (now : ℤ) {args : List Bytes} (hkey : ∀ key ∈ args[1]?, key ≠ []) :
    Named (redisSrem now args) := by
  match args with
  | [] => exact CallTree.Keeps.throw _
  | [_] => exact CallTree.Keeps.throw _
  | _ :: key :: members =>
      have hkey := hkey key rfl
      exact named_unlessExpired (named_setClean hkey) now (named_return _)
        (named_heldMembers members (List.forall_mem_nil _) fun delKvs hkeys =>
          (named_setSize key).bind fun prevSize =>
            named_lsmPut hkey (named_lsmRemoveBatch hkeys (named_return _)))

theorem named_redisSismember (now : ℤ) (member : Bytes) (hkey : key ≠ []) :
    Named (redisSismember now key member) :=
  named_unlessExpired (named_setClean hkey) now (named_return _)
    (named_lsmGet fun _ => named_return _)

theorem named_redisScard (now : ℤ) (hkey : key ≠ []) : Named (redisScard now key) := by
  refine named_unlessExpired (named_setClean hkey) now (named_return _)
    (named_lsmGet fun found => ?_)
  cases found with
  | none => exact named_return _
  | some size => exact named_return _

theorem named_redisSmembers (now : ℤ) (hkey : key ≠ []) : Named (redisSmembers now key) :=
  named_unlessExpired (named_setClean hkey) now (named_return _)
    (named_lsmScan fun _ _ => named_return _)

end Named

/-! ## The interface of the wrapper -/

/-- `RedisWrapper::clear` -/
def clear : Method Unit := .make LsmCall.clear

/-- `RedisWrapper::flushall`, which only moves records to the files. -/
def flushall : Method Unit := .make LsmCall.flush

/-- What the handlers call, with the arguments of the method behind it. -/
inductive Request where
  | clear
  | flushall
  | set (key value : Bytes)
  | get (key : Bytes)
  | del (args : List Bytes)
  | incr (key : Bytes)
  | decr (key : Bytes)
  | expire (key secondsCount : Bytes)
  | ttl (key : Bytes)
  | hset (key : Bytes) (fieldValues : List (Bytes × Bytes))
  | hget (key field : Bytes)
  | hdel (key field : Bytes)
  | hkeys (key : Bytes)
  | lpush (key value : Bytes)
  | rpush (key value : Bytes)
  | lpop (key : Bytes)
  | rpop (key : Bytes)
  | llen (key : Bytes)
  | lrange (key : Bytes) (start stop : ℤ)
  | zadd (args : List Bytes)
  | zrem (args : List Bytes)
  | zrange (args : List Bytes)
  | zcard (key : Bytes)
  | zscore (key elem : Bytes)
  | zincrby (key increment elem : Bytes)
  | zrank (key elem : Bytes)
  | sadd (args : List Bytes)
  | srem (args : List Bytes)
  | sismember (key member : Bytes)
  | scard (key : Bytes)
  | smembers (key : Bytes)

namespace Request

/-- The keys of the user in the arguments. -/
def keys : Request → List Bytes
  | clear | flushall => []
  | del args => args.drop 1
  | zadd args | zrem args | zrange args | sadd args | srem args => args[1]?.toList
  | set key _ | get key | incr key | decr key | expire key _ | ttl key | hset key _
  | hget key _ | hdel key _ | hkeys key | lpush key _ | rpush key _ | lpop key | rpop key
  | llen key | lrange key _ _ | zcard key | zscore key _ | zincrby key _ _ | zrank key _
  | sismember key _ | scard key | smembers key => [key]

/-- The method, call by call.  The handlers of `clear` and `flushall` answer themselves. -/
def method (arith : DoubleArith) (now : ℤ) : Request → Method Bytes
  | clear => do
      RedisWrapper.clear
      return okReply
  | flushall => do
      RedisWrapper.flushall
      return okReply
  | set key value => redisSet key value
  | get key => redisGet now key
  | del args => redisDel args
  | incr key => redisIncr key
  | decr key => redisDecr key
  | expire key secondsCount => redisExpire now key secondsCount
  | ttl key => redisTtl now key
  | hset key fieldValues => redisHsetBatch now key fieldValues
  | hget key field => redisHget now key field
  | hdel key field => redisHdel now key field
  | hkeys key => redisHkeys now key
  | lpush key value => redisLpush now key value
  | rpush key value => redisRpush now key value
  | lpop key => redisLpop now key
  | rpop key => redisRpop now key
  | llen key => redisLlen now key
  | lrange key start stop => redisLrange now key start stop
  | zadd args => redisZadd now args
  | zrem args => redisZrem now args
  | zrange args => redisZrange now args
  | zcard key => redisZcard now key
  | zscore key elem => redisZscore now key elem
  | zincrby key increment elem => redisZincrby arith now key increment elem
  | zrank key elem => redisZrank now key elem
  | sadd args => redisSadd now args
  | srem args => redisSrem now args
  | sismember key member => redisSismember now key member
  | scard key => redisScard now key
  | smembers key => redisSmembers now key

/-- The command that the server runs for it. -/
def command (arith : DoubleArith) : Request → Command
  | clear => flushallHandler
  | flushall => saveHandler
  | set key value => Redis.redisSet key value
  | get key => Redis.redisGet key
  | del args => Redis.redisDel args
  | incr key => Redis.redisIncr key
  | decr key => Redis.redisDecr key
  | expire key secondsCount => Redis.redisExpire key secondsCount
  | ttl key => Redis.redisTtl key
  | hset key fieldValues => Redis.redisHsetBatch key fieldValues
  | hget key field => Redis.redisHget key field
  | hdel key field => Redis.redisHdel key field
  | hkeys key => Redis.redisHkeys key
  | lpush key value => Redis.redisLpush key value
  | rpush key value => Redis.redisRpush key value
  | lpop key => Redis.redisLpop key
  | rpop key => Redis.redisRpop key
  | llen key => Redis.redisLlen key
  | lrange key start stop => Redis.redisLrange key start stop
  | zadd args => Redis.redisZadd args
  | zrem args => Redis.redisZrem args
  | zrange args => Redis.redisZrange args
  | zcard key => Redis.redisZcard key
  | zscore key elem => Redis.redisZscore key elem
  | zincrby key increment elem => Redis.redisZincrby arith key increment elem
  | zrank key elem => Redis.redisZrank key elem
  | sadd args => Redis.redisSadd args
  | srem args => Redis.redisSrem args
  | sismember key member => Redis.redisSismember key member
  | scard key => Redis.redisScard key
  | smembers key => Redis.redisSmembers key

/-- On the one map, call by call is section by section. -/
theorem exec_method (arith : DoubleArith) (now : ℤ) (request : Request) (store : Store) :
    exec (request.method arith now) store = (request.command arith).run now store := by
  cases request with
  | clear => rfl
  | flushall => rfl
  | set key value => exact exec_redisSet now key store value
  | get key => exact exec_redisGet now key store
  | del args => exact exec_redisDel now store args
  | incr key => exact exec_redisAdd now key store 1
  | decr key => exact exec_redisAdd now key store (-1)
  | expire key secondsCount => exact exec_redisExpire now key store secondsCount
  | ttl key => exact exec_redisTtl now key store
  | hset key fieldValues => exact exec_redisHsetBatch now key store fieldValues
  | hget key field => exact exec_redisHget now key store field
  | hdel key field => exact exec_redisHdel now key store field
  | hkeys key => exact exec_redisHkeys now key store
  | lpush key value =>
      rw [method, redisLpush]
      exact exec_redisPush now key store _ value
  | rpush key value =>
      rw [method, redisRpush]
      exact exec_redisPush now key store _ value
  | lpop key => exact exec_redisPop now key store popFront
  | rpop key => exact exec_redisPop now key store popBack
  | llen key => exact exec_redisLlen now key store
  | lrange key start stop => exact exec_redisLrange now key store start stop
  | zadd args => exact exec_redisZadd now store args
  | zrem args => exact exec_redisZrem now store args
  | zrange args => exact exec_redisZrange now store args
  | zcard key => exact exec_redisZcard now key store
  | zscore key elem => exact exec_redisZscore now key store elem
  | zincrby key increment elem => exact exec_redisZincrby now key store arith increment elem
  | zrank key elem => exact exec_redisZrank now key store elem
  | sadd args => exact exec_redisSadd now store args
  | srem args => exact exec_redisSrem now store args
  | sismember key member => exact exec_redisSismember now key store member
  | scard key => exact exec_redisScard now key store
  | smembers key => exact exec_redisSmembers now key store

theorem named_method (arith : DoubleArith) (now : ℤ) {request : Request}
    (hkeys : ∀ key ∈ request.keys, key ≠ []) : Named (request.method arith now) := by
  have hargs : ∀ {args : List Bytes}, (∀ key ∈ args[1]?.toList, key ≠ []) →
      ∀ key ∈ args[1]?, key ≠ [] := fun hkeys key hmem => hkeys key (Option.mem_toList.mpr hmem)
  cases request with
  | clear => exact CallTree.Keeps.make_bind (List.forall_mem_nil _) fun _ _ => named_return _
  | flushall => exact CallTree.Keeps.make_bind (List.forall_mem_nil _) fun _ _ => named_return _
  | set key value => exact named_redisSet value (hkeys key List.mem_cons_self)
  | get key => exact named_redisGet now (hkeys key List.mem_cons_self)
  | del args => exact named_delKeys hkeys 0
  | incr key => exact named_redisAdd 1 (hkeys key List.mem_cons_self)
  | decr key => exact named_redisAdd (-1) (hkeys key List.mem_cons_self)
  | expire key secondsCount => exact named_redisExpire now key secondsCount
  | ttl key => exact named_redisTtl now key
  | hset key fieldValues =>
      exact named_redisHsetBatch now fieldValues (hkeys key List.mem_cons_self)
  | hget key field => exact named_redisHget now field (hkeys key List.mem_cons_self)
  | hdel key field => exact named_redisHdel now field (hkeys key List.mem_cons_self)
  | hkeys key => exact named_redisHkeys now (hkeys key List.mem_cons_self)
  | lpush key value =>
      rw [method, redisLpush]
      exact named_redisPush _ now value (hkeys key List.mem_cons_self)
  | rpush key value =>
      rw [method, redisRpush]
      exact named_redisPush _ now value (hkeys key List.mem_cons_self)
  | lpop key => exact named_redisPop popFront now (hkeys key List.mem_cons_self)
  | rpop key => exact named_redisPop popBack now (hkeys key List.mem_cons_self)
  | llen key => exact named_redisLlen now (hkeys key List.mem_cons_self)
  | lrange key start stop =>
      exact named_redisLrange now start stop (hkeys key List.mem_cons_self)
  | zadd args => exact named_redisZadd now (hargs hkeys)
  | zrem args => exact named_redisZrem now (hargs hkeys)
  | zrange args => exact named_redisZrange now (hargs hkeys)
  | zcard key => exact named_redisZcard now (hkeys key List.mem_cons_self)
  | zscore key elem => exact named_redisZscore now elem (hkeys key List.mem_cons_self)
  | zincrby key increment elem =>
      exact named_redisZincrby arith now increment elem (hkeys key List.mem_cons_self)
  | zrank key elem => exact named_redisZrank now elem (hkeys key List.mem_cons_self)
  | sadd args => exact named_redisSadd now (hargs hkeys)
  | srem args => exact named_redisSrem now (hargs hkeys)
  | sismember key member =>
      exact named_redisSismember now member (hkeys key List.mem_cons_self)
  | scard key => exact named_redisScard now (hkeys key List.mem_cons_self)
  | smembers key => exact named_redisSmembers now (hkeys key List.mem_cons_self)

end Request

/-! ## Runs -/

/-- The answers of requests one after the other, each at its own time, up to the first call on
the `LSM` that throws. -/
def runRequests (config : Config) (sameBlock : SstIterator → Bool) (reads : LsmCall.Reads)
    (arith : DoubleArith) :
    List (ℤ × Request) → LSM → List (Except Err Bytes)
  | [], _ => []
  | (now, request) :: rest, lsm =>
      match (request.method arith now).attempt (LsmCall.onLsm config sameBlock reads) lsm with
      | .error _ => []
      | .ok (lsm, reply) => reply :: runRequests config sameBlock reads arith rest lsm

section Runs

variable {config : Config} {sameBlock : SstIterator → Bool} {reads : LsmCall.Reads}
  {arith : DoubleArith} {lsm : LSM} {history : List Entry} {store : Store}

/-- A request none of whose calls throws answers as its command, and the `LSM` goes on as the
map. -/
theorem attempt_request (hbacks : Backs lsm history store) {now : ℤ} {request : Request}
    (hkeys : ∀ key ∈ request.keys, key ≠ []) {final : LSM} {reply : Except Err Bytes}
    (hrun : (request.method arith now).attempt (LsmCall.onLsm config sameBlock reads) lsm =
      .ok (final, reply)) :
    reply = ((request.command arith).run now store).2 ∧
      ∃ history', Backs final history' ((request.command arith).run now store).1 := by
  rw [← request.exec_method]
  exact (LsmCall.onLsm_refines config sameBlock reads).attempt (Request.named_method arith now hkeys)
    ⟨history, hbacks⟩ hrun

/-- From one request to all. -/
theorem runRequests_prefix (hbacks : Backs lsm history store) {requests : List (ℤ × Request)}
    (hkeys : ∀ request ∈ requests, ∀ key ∈ request.2.keys, key ≠ []) :
    runRequests config sameBlock reads arith requests lsm <+:
      (runCommands (requests.map fun request => (request.1, request.2.command arith)) store).2 := by
  induction requests generalizing lsm history store with
  | nil => exact List.prefix_rfl
  | cons request rest ih =>
      obtain ⟨hfirst, hrest⟩ := List.forall_mem_cons.mp hkeys
      obtain ⟨now, request⟩ := request
      rw [runRequests]
      cases hrun : (request.method arith now).attempt (LsmCall.onLsm config sameBlock reads) lsm with
      | error err => exact List.nil_prefix
      | ok after =>
          obtain ⟨final, reply⟩ := after
          obtain ⟨rfl, history', hnext⟩ := attempt_request hbacks hfirst hrun
          exact List.cons_prefix_cons.mpr ⟨rfl, ih hnext hrest⟩

end Runs

/-- Up to the first call on the `LSM` that throws, the requests are answered as by their commands
on one map that is empty at the start. -/
theorem requests_refine_commands (config : Config) (sameBlock : SstIterator → Bool)
    (reads : LsmCall.Reads) (arith : DoubleArith) {requests : List (ℤ × Request)}
    (hkeys : ∀ request ∈ requests, ∀ key ∈ request.2.keys, key ≠ []) :
    runRequests config sameBlock reads arith requests LSM.new <+:
      (runCommands (requests.map fun request => (request.1, request.2.command arith)) ∅).2 :=
  runRequests_prefix backs_new hkeys

/-- Members with a time to live, before and after it has passed, and a record of the size that
was cleaned up before the flush. -/
example : runRequests smallConfig (fun _ => false) (fun _ _ => none) wholeArith
    [(0, .sadd [ascii "SADD", [1], [2], [3]]), (0, .expire [1] (ascii "5")), (4, .smembers [1]),
      (9, .smembers [1]), (9, .flushall), (9, .scard [1])] LSM.new =
    [.ok (intReply 2), .ok (intReply 1), .ok (arrayReply [[2], [3]]), .ok (arrayReply []),
      .ok okReply, .ok (intReply 0)] := by
  decide +kernel

end RedisWrapper

end KopiDb.Redis

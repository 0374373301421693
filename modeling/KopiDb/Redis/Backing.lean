import KopiDb.BlockRange
import KopiDb.Redis.Store
import KopiDb.Refine
import KopiDb.Scan

/-!
# The engine behind the store

The commands reach their records through an `LSM` of their own.  Its plain calls, with
flushes, freezes and compactions between them, answer like the one map that the commands
are written for.
-/

namespace KopiDb

namespace LSM

/-! ## The rest of the plain interface -/

/-- `LSM::get`, with what reading a block may throw. -/
def tryGet (lsm : LSM) (key : Bytes) : LSM × Except Err (Option Bytes) :=
  let taken := lsm.takeTrancId
  (taken.1, (taken.1.engine.tryGet (some taken.1.tranManager.policy) key taken.2 false).map
    fun found => found.map Prod.fst)

/-- `LSM::get_batch` -/
def tryGetBatch (lsm : LSM) (keys : List Bytes) :
    LSM × Except Err (List (Bytes × Option Bytes)) :=
  let taken := lsm.takeTrancId
  (taken.1, (taken.1.engine.tryGetBatch (some taken.1.tranManager.policy) keys taken.2).map
    fun results => results.map fun result => (result.1, result.2.map Prod.fst))

theorem tryGet_eq {lsm : LSM} (hsmall : lsm.engine.Addressable) (key : Bytes) :
    lsm.tryGet key = lsm.get key := by
  have htaken : lsm.takeTrancId.1.engine.Addressable := hsmall
  rw [tryGet, Engine.tryGet_eq htaken, get]

theorem tryGetBatch_eq {lsm : LSM} (hsmall : lsm.engine.Addressable) (keys : List Bytes) :
    lsm.tryGetBatch keys = lsm.getBatch keys := by
  have htaken : lsm.takeTrancId.1.engine.Addressable := hsmall
  rw [tryGetBatch, Engine.tryGetBatch_eq htaken, getBatch]

/-- `LSM::clear` -/
def clear (lsm : LSM) : LSM := { lsm with engine := lsm.engine.clear }

/-- `LSM::begin`, walked to its end. -/
def scanAll (lsm : LSM) (trancId : ℕ) : Except Err (List Entry) :=
  (lsm.engine.begin (some lsm.tranManager.policy) trancId).map Cursor.toList

/-- `LSM::lsm_iters_monotony_predicate`, walked to its end. -/
def scanRange (lsm : LSM) (trancId : ℕ) (predicate : Bytes → ℤ)
    (sameBlock : SstIterator → Bool) : Except Err (List Entry) :=
  (lsm.engine.lsmItersMonotonyPredicate (some lsm.tranManager.policy) trancId predicate
    sameBlock).map fun result => (result.map Cursor.toList).getD []

end LSM

namespace Redis

/-- A call of the commands on their `LSM`, or maintenance between two of them.  What
`sameBlock` tells of a place in a file must not matter. -/
inductive StoreCall where
  | put (key value : Bytes)
  | putBatch (kvs : List (Bytes × Bytes))
  | remove (key : Bytes)
  | removeBatch (keys : List Bytes)
  | get (key : Bytes)
  | getBatch (keys : List Bytes)
  | scan (preffix : Bytes) (sameBlock : SstIterator → Bool)
  | scanAll
  | clear
  | flush
  | freeze
  | compact (srcLevel : ℕ)

inductive Answer where
  | done
  | value (found : Option Bytes)
  | values (found : List (Bytes × Option Bytes))
  | records (found : List (Bytes × Bytes))
  deriving DecidableEq

/-- The keys and the values of records. -/
def keyValues (entries : List Entry) : List (Bytes × Bytes) :=
  entries.map fun entry => (entry.key, entry.value)

namespace StoreCall

/-- The keys that a call writes to. -/
def keys : StoreCall → List Bytes
  | put key _ => [key]
  | putBatch kvs => kvs.map Prod.fst
  | remove key => [key]
  | removeBatch keys => keys
  | _ => []

/-- The call on the `LSM`. -/
def runOn (config : Config) (lsm : LSM) : StoreCall → LSM × Except Err Answer
  | put key value => ((lsm.put config key value).1,
      (lsm.put config key value).2.map fun _ => .done)
  | putBatch kvs => ((lsm.putBatch config kvs).1, (lsm.putBatch config kvs).2.map fun _ => .done)
  | remove key => ((lsm.remove config key).1, (lsm.remove config key).2.map fun _ => .done)
  | removeBatch keys => ((lsm.removeBatch config keys).1,
      (lsm.removeBatch config keys).2.map fun _ => .done)
  | get key => ((lsm.tryGet key).1, (lsm.tryGet key).2.map .value)
  | getBatch keys => ((lsm.tryGetBatch keys).1, (lsm.tryGetBatch keys).2.map .values)
  | scan preffix sameBlock => (lsm, (lsm.scanRange 0 (preffixPredicate preffix) sameBlock).map
      fun entries => .records (keyValues entries))
  | scanAll => (lsm, (lsm.scanAll 0).map fun entries => .records (keyValues entries))
  | clear => (lsm.clear, .ok .done)
  | flush => ((lsm.flush config).1, (lsm.flush config).2.map fun _ => .done)
  | freeze =>
      ({ lsm with engine := { lsm.engine with
          memtable := lsm.engine.memtable.frozenCurTable_ } }, .ok .done)
  | compact srcLevel =>
      ({ lsm with engine := (lsm.engine.compact config srcLevel).1 },
        (lsm.engine.compact config srcLevel).2.map fun _ => .done)

/-- The call on the one map. -/
def apply (store : Store) : StoreCall → Store × Answer
  | put key value => (store.put key value, .done)
  | putBatch kvs => (store.putBatch kvs, .done)
  | remove key => (store.remove key, .done)
  | removeBatch keys => (store.removeBatch keys, .done)
  | get key => (store, .value (store.get key))
  | getBatch keys => (store, .values (keys.map fun key => (key, store.get key)))
  | scan preffix _ => (store, .records (store.scan preffix))
  | scanAll => (store, .records (store.scan []))
  | clear => (∅, .done)
  | _ => (store, .done)

end StoreCall

/-- A write that throws, in a flush that it started, has taken effect; a read answers. -/
def Agrees (outcome : Except Err Answer) (answer : Answer) : Prop :=
  outcome = .ok answer ∨ answer = .done ∧ ∃ err, outcome = .error err

/-- Run the calls on the `LSM`, also behind calls that throw. -/
def runBacked (config : Config) : LSM → List StoreCall → LSM × List (Except Err Answer)
  | lsm, [] => (lsm, [])
  | lsm, call :: rest =>
      let after := call.runOn config lsm
      let run := runBacked config after.1 rest
      (run.1, after.2 :: run.2)

/-- Before every call no table of the `LSM` has outgrown 32-bit offsets. -/
def AddressableRun (config : Config) : LSM → List StoreCall → Prop
  | _, [] => True
  | lsm, call :: rest =>
      lsm.engine.Addressable ∧ AddressableRun config (call.runOn config lsm).1 rest

instance decidableAddressableRun (config : Config) :
    (lsm : LSM) → (calls : List StoreCall) → Decidable (AddressableRun config lsm calls)
  | _, [] => isTrue trivial
  | lsm, call :: rest =>
      @instDecidableAnd _ _ inferInstance
        (decidableAddressableRun config (call.runOn config lsm).1 rest)

/-- Run the calls on the map. -/
def runStore : Store → List StoreCall → Store × List Answer
  | store, [] => (store, [])
  | store, call :: rest =>
      let after := call.apply store
      let run := runStore after.1 rest
      (run.1, after.2 :: run.2)

/-! ## Histories and maps -/

/-- The latest writes of a history are the records of the map. -/
def Shows (history : List Entry) (store : Store) : Prop :=
  ∀ key, (reference history key 0 fun _ => false).map Prod.fst = store.get key

section Shows

variable {history : List Entry} {store : Store}

/-- A bound that no write exceeds is no bound. -/
theorem reference_of_le {bound : ℕ} (hbound : ∀ entry ∈ history, entry.txid ≤ bound)
    (key : Bytes) :
    reference history key bound (fun _ => false) = reference history key 0 fun _ => false := by
  have hcandidates : Versions.candidates history key bound (fun _ => false) =
      Versions.candidates history key 0 fun _ => false := by
    apply List.filter_congr
    intro entry hmem
    have hle := hbound entry hmem
    simp [Versions.visible, hle]
  rw [reference, reference, Versions.read, Versions.read, hcandidates]

/-- A write whose number is not below the others hides them. -/
theorem reference_cons {entry : Entry} (hlatest : ∀ other ∈ history, other.txid ≤ entry.txid)
    (key : Bytes) :
    (reference (entry :: history) key 0 fun _ => false).map Prod.fst =
      if entry.key = key then (if entry.value = [] then none else some entry.value)
      else (reference history key 0 fun _ => false).map Prod.fst := by
  rw [reference, Versions.read_cons]
  by_cases hkey : entry.key = key
  · have hprefer : Versions.prefer (some entry) (Versions.read history key 0 fun _ => false) =
        some entry := by
      cases hread : Versions.read history key 0 fun _ => false with
      | none => rfl
      | some other =>
          have hle := hlatest other (Versions.read_eq_some hread).1
          rw [Versions.prefer_some_some, if_neg (not_lt.mpr hle)]
    rw [if_pos ⟨hkey, rfl⟩, if_pos hkey, hprefer, answer_some, live]
    by_cases hvalue : entry.value = [] <;> simp [Option.filter, hvalue]
  · rw [if_neg fun hboth => hkey hboth.1, if_neg hkey, reference]

theorem Shows.put (hshows : Shows history store) {entry : Entry}
    (hlatest : ∀ other ∈ history, other.txid ≤ entry.txid) :
    Shows (entry :: history) (store.put entry.key entry.value) := by
  intro key
  rw [reference_cons hlatest, hshows key, Store.get_put]
  simp only [eq_comm]

/-- A batch writes all its pairs with one number. -/
theorem Shows.putBatch (hshows : Shows history store) {trancId : ℕ}
    (hlatest : ∀ other ∈ history, other.txid ≤ trancId) (kvs : List (Bytes × Bytes)) :
    Shows ((kvs.map fun kv => (⟨kv.1, kv.2, trancId⟩ : Entry)).reverse ++ history)
      (store.putBatch kvs) := by
  induction kvs generalizing history store with
  | nil => exact hshows
  | cons kv rest ih =>
      rw [List.map_cons, List.reverse_cons, List.append_assoc]
      refine ih (@Shows.put _ _ hshows ⟨kv.1, kv.2, trancId⟩ hlatest) fun other hother => ?_
      rcases List.mem_cons.mp hother with rfl | hother
      · exact le_rfl
      · exact hlatest other hother

theorem putBatch_deletions (keys : List Bytes) :
    store.putBatch (keys.map fun key => (key, [])) = store.removeBatch keys := by
  rw [Store.putBatch, Store.removeBatch, List.foldl_map]
  rfl

end Shows

/-! ## Runs -/

/-- The `LSM` holds the records of the map, and nobody has rolled back. -/
structure Backs (lsm : LSM) (history : List Entry) (store : Store) : Prop where
  follows : Engine.Follows lsm.engine history
  unaborted : (lsm.view history).aborted = ∅
  named : ∀ entry ∈ history, entry.key ≠ []
  below : ∀ entry ∈ history, entry.txid < (lsm.view history).nextTrancId
  shows : Shows history store

theorem backs_new : Backs LSM.new [] ∅ where
  follows := Engine.follows_new
  unaborted := rfl
  named _ hmem := by cases hmem
  below _ hmem := by cases hmem
  shows _ := rfl

namespace Backs

variable {lsm : LSM} {history : List Entry} {store : Store}

theorem agrees_done {α : Type} (outcome : Except Err α) :
    Agrees (outcome.map fun _ => .done) .done := by
  cases outcome with
  | error err => exact Or.inr ⟨rfl, err, rfl⟩
  | ok _ => exact Or.inl rfl

/-- Maintenance moves records and changes nothing that is seen. -/
theorem maintained (hbacks : Backs lsm history store) {lsm' : LSM}
    (hview : lsm'.view history = lsm.view history)
    (hfollows : Engine.Follows lsm'.engine history) : Backs lsm' history store where
  follows := hfollows
  unaborted := hview ▸ hbacks.unaborted
  named := hbacks.named
  below := hview ▸ hbacks.below
  shows := hbacks.shows

theorem taken (hbacks : Backs lsm history store) : Backs lsm.takeTrancId.1 history store where
  follows := hbacks.follows
  unaborted := hbacks.unaborted
  named := hbacks.named
  below entry hmem := Nat.lt_succ_of_lt (hbacks.below entry hmem)
  shows := hbacks.shows

/-- A write puts its pairs on top of the history, also when the flush behind it throws. -/
theorem written (hbacks : Backs lsm history store) (config : Config) (op : EngineOp)
    (kvs : List (Bytes × Bytes)) (hkeys : ∀ kv ∈ kvs, kv.1 ≠ [])
    (hrecord : op.record history = (kvs.map fun kv =>
      (⟨kv.1, kv.2, lsm.takeTrancId.2⟩ : Entry)).reverse ++ history) :
    Backs (lsm.takeTrancId.1.notify (op.run config lsm.engine)).1 (op.record history)
      (store.putBatch kvs) where
  follows := by
    rw [LSM.engine_notify]
    exact hbacks.follows.run config op
  unaborted := by
    rw [LSM.view_notify]
    exact hbacks.unaborted
  named entry hmem := by
    rw [hrecord] at hmem
    rcases List.mem_append.mp hmem with hmem | hmem
    · obtain ⟨kv, hkv, rfl⟩ := List.mem_map.mp (List.mem_reverse.mp hmem)
      exact hkeys kv hkv
    · exact hbacks.named entry hmem
  below entry hmem := by
    rw [LSM.view_notify]
    rw [hrecord] at hmem
    rcases List.mem_append.mp hmem with hmem | hmem
    · obtain ⟨kv, -, rfl⟩ := List.mem_map.mp (List.mem_reverse.mp hmem)
      exact Nat.lt_succ_self _
    · exact Nat.lt_succ_of_lt (hbacks.below entry hmem)
  shows := by
    rw [hrecord]
    exact hbacks.shows.putBatch (fun other hother => (hbacks.below other hother).le) kvs

/-- A read under a fresh number finds the record of the map. -/
theorem get_eq (hbacks : Backs lsm history store) (key : Bytes) {bound : ℕ}
    (hbound : ∀ entry ∈ history, entry.txid ≤ bound) :
    (lsm.engine.get (some lsm.tranManager.policy) key bound false).map
      (fun found => found.map Prod.fst) = .ok (store.get key) := by
  obtain ⟨found, hget, hfound⟩ := LSM.get_found hbacks.follows key bound false
  have hskip : (lsm.view history).skip false = fun _ => false := by
    funext id
    rw [View.skip, hbacks.unaborted]
    simp
  have hanswer : found = reference history key bound fun _ => false := by
    by_cases hkey : key = []
    · have hnone : reference history key bound (fun _ => false) = none := by
        rw [reference, Versions.read_eq_none_of_absent fun entry hmem heq =>
          hbacks.named entry hmem (heq.trans hkey)]
        rfl
      rw [hnone]
      cases found with
      | none => rfl
      | some pair =>
          obtain ⟨entry, hmem, hnil, -⟩ := hfound.reserved hkey pair rfl
          exact absurd hnil (hbacks.named entry hmem)
    · rw [hfound.user hkey, hskip]
  rw [hget, hanswer, reference_of_le hbound, ← hbacks.shows key]
  rfl

theorem getBatch_eq (hbacks : Backs lsm history store) (keys : List Bytes) {bound : ℕ}
    (hbound : ∀ entry ∈ history, entry.txid ≤ bound) :
    (lsm.engine.getBatch (some lsm.tranManager.policy) keys bound).map
      (fun results => results.map fun result => (result.1, result.2.map Prod.fst)) =
        .ok (keys.map fun key => (key, store.get key)) := by
  have hpolicy : ∀ key, lsm.engine.get (some (policyOf lsm.tranManager.policy.isAborted)) key
      bound false = lsm.engine.get (some lsm.tranManager.policy) key bound false := by
    intro key
    have hskip : lsm.tranManager.policy.isAborted =
        fun id => lsm.tranManager.policy.shouldSkipRead id false := by
      funext id
      exact (Bool.or_false _).symm
    rw [Engine.get_some, Engine.get_some, ← hskip]
    rfl
  rw [Engine.getBatch_eq_mapM _ _ _ _ false]
  simp only [hpolicy]
  induction keys with
  | nil => rfl
  | cons key rest ih =>
      have hfirst := hbacks.get_eq key hbound
      rw [List.mapM_cons, List.map_cons]
      cases hget : lsm.engine.get (some lsm.tranManager.policy) key bound false with
      | error err =>
          rw [hget] at hfirst
          cases hfirst
      | ok found =>
          rw [hget] at hfirst
          have hvalue := Except.ok.inj hfirst
          cases hrest : rest.mapM fun key => (lsm.engine.get (some lsm.tranManager.policy) key
              bound false).map fun found => (key, found) with
          | error err =>
              rw [hrest] at ih
              cases ih
          | ok results =>
              rw [hrest] at ih
              have hresults := Except.ok.inj ih
              rw [← hvalue, ← hresults]
              rfl

/-- Entries that show what point reads find of a prefix are the records with the prefix. -/
theorem keyValues_eq (hbacks : Backs lsm history store) {entries : List Entry} {preffix : Bytes}
    (hstrict : Versions.StrictKeys entries)
    (hwanted : ∀ entry ∈ entries, entry.key ≠ [] ∧ preffix <+: entry.key)
    (hfind : ∀ key, key ≠ [] → preffix <+: key → entries.find? (fun entry => entry.key = key) =
      (Versions.read lsm.engine.records key 0 lsm.tranManager.policy.isAborted).filter
        fun entry => decide (entry.value ≠ [])) :
    keyValues entries = store.scan preffix := by
  have hskip : lsm.tranManager.policy.isAborted = fun _ => false := by
    funext id
    have haborted : lsm.tranManager.abortedTrancIds = ∅ := hbacks.unaborted
    simp [TranManager.policy, TranManager.isAborted, haborted]
  have hget : ∀ key, key ≠ [] → preffix <+: key →
      (entries.find? fun entry => entry.key = key).map (·.value) = store.get key := by
    intro key hkey hpreffix
    rw [hfind key hkey hpreffix, hskip, Versions.read_congr (hbacks.follows.reflects.latest key),
      ← hbacks.shows key, reference, live_answer, answer, Option.map_map]
    rfl
  have hmem : ∀ record, record ∈ keyValues entries ↔ record ∈ store.scan preffix := by
    rintro ⟨key, value⟩
    rw [Store.mem_scan, keyValues, List.mem_map]
    constructor
    · rintro ⟨entry, hentry, heq⟩
      obtain ⟨hkey, hpreffix⟩ := hwanted entry hentry
      obtain ⟨rfl, rfl⟩ := Prod.mk.inj heq
      refine ⟨hpreffix, ?_⟩
      rw [← hget entry.key hkey hpreffix, (hstrict.mem_iff_find? entry).mp hentry]
      rfl
    · rintro ⟨hpreffix, hvalue⟩
      have hkey : key ≠ [] := by
        rintro rfl
        rw [← hbacks.shows [], reference, Versions.read_eq_none_of_absent hbacks.named] at hvalue
        cases hvalue
      rw [← hget key hkey hpreffix, Option.map_eq_some_iff] at hvalue
      obtain ⟨entry, hentry, rfl⟩ := hvalue
      have hfound := List.find?_some hentry
      exact ⟨entry, List.mem_of_find?_eq_some hentry, by simpa using hfound⟩
  have hleft : (keyValues entries).Pairwise fun left right => left.1 < right.1 :=
    List.pairwise_map.mpr hstrict
  have hright := store.scan_ascending preffix
  have hnodup : ∀ {records : List (Bytes × Bytes)},
      (records.Pairwise fun left right => left.1 < right.1) → records.Nodup :=
    fun hsorted => hsorted.imp fun hlt heq => (heq ▸ hlt).false
  exact ((List.perm_ext_iff_of_nodup (hnodup hleft) (hnodup hright)).mpr hmem).eq_of_pairwise
    (fun left right _ _ hlt hgt => absurd hgt hlt.not_gt) hleft hright

theorem scanRange_eq (hbacks : Backs lsm history store) (preffix : Bytes)
    (sameBlock : SstIterator → Bool) :
    ∃ entries, lsm.scanRange 0 (preffixPredicate preffix) sameBlock = .ok entries ∧
      keyValues entries = store.scan preffix := by
  have hmono : Engine.MonotoneOnKeys (preffixPredicate preffix) :=
    ⟨fun _ hle hneg => (preffixPredicate_monotone preffix).neg_of_le hle hneg,
      fun _ hle hpos => (preffixPredicate_monotone preffix).pos_of_le hle hpos⟩
  obtain ⟨result, entries, hquery, hnone, hlist, hstrict, hmem, hfind⟩ :=
    Engine.lsmItersMonotonyPredicate_spec 0 sameBlock hbacks.follows.invariant hmono
      lsm.tranManager.policy
  have hentries : (result.map Cursor.toList).getD [] = entries := by
    cases result with
    | none => exact (hnone.mp rfl).symm
    | some it => exact hlist it rfl
  refine ⟨entries, ?_, hbacks.keyValues_eq hstrict
    (fun entry hentry => ⟨(hmem entry hentry).1,
      (preffixPredicate_eq_zero _ _).mp (hmem entry hentry).2.2⟩)
    fun key hkey hpreffix => hfind key hkey ((preffixPredicate_eq_zero _ _).mpr hpreffix)⟩
  rw [LSM.scanRange, hquery, Except.map, hentries]

theorem scanAll_eq (hbacks : Backs lsm history store) :
    ∃ entries, lsm.scanAll 0 = .ok entries ∧ keyValues entries = store.scan [] := by
  obtain ⟨it, hbegin, hstrict, hlive, hfind⟩ := Engine.levelIterator_spec 0
    lsm.tranManager.policy.isAborted hbacks.follows.invariant
  refine ⟨Cursor.toList it, ?_, hbacks.keyValues_eq hstrict
    (fun entry hentry => ⟨(hlive entry hentry).1, List.nil_prefix⟩)
    fun key hkey _ => hfind key hkey⟩
  rw [LSM.scanAll, Engine.begin, hbegin, Except.map]

/-- After every call, also one that throws, the `LSM` holds the records of the map. -/
theorem kept (hbacks : Backs lsm history store) (config : Config) (call : StoreCall)
    (hkeys : ∀ key ∈ call.keys, key ≠ []) :
    ∃ history', Backs (call.runOn config lsm).1 history' (call.apply store).1 := by
  cases call with
  | put key value =>
      exact ⟨_, hbacks.written config (.put key value lsm.takeTrancId.2) [(key, value)]
        (by simpa [StoreCall.keys] using hkeys) rfl⟩
  | putBatch kvs =>
      exact ⟨_, hbacks.written config (.putBatch kvs lsm.takeTrancId.2) kvs
        (fun kv hkv => hkeys kv.1 (List.mem_map_of_mem hkv)) rfl⟩
  | remove key =>
      exact ⟨_, hbacks.written config (.remove key lsm.takeTrancId.2) [(key, [])]
        (by simpa [StoreCall.keys] using hkeys) rfl⟩
  | removeBatch keys =>
      have hwritten := hbacks.written config (.removeBatch keys lsm.takeTrancId.2)
        (keys.map fun key => (key, [])) (by simpa [StoreCall.keys] using hkeys)
        (by rw [List.map_map]; rfl)
      rw [putBatch_deletions] at hwritten
      exact ⟨_, hwritten⟩
  | get key => exact ⟨history, hbacks.taken⟩
  | getBatch keys => exact ⟨history, hbacks.taken⟩
  | scan preffix sameBlock => exact ⟨history, hbacks⟩
  | scanAll => exact ⟨history, hbacks⟩
  | clear =>
      exact ⟨[],
        { follows := hbacks.follows.run config .clear
          unaborted := hbacks.unaborted
          named := fun _ hmem => by cases hmem
          below := fun _ hmem => by cases hmem
          shows := fun _ => rfl }⟩
  | flush =>
      refine ⟨history, hbacks.maintained (LSM.view_notify _ _) ?_⟩
      rw [StoreCall.runOn, LSM.flush, LSM.engine_notify]
      exact hbacks.follows.run config .flush
  | freeze => exact ⟨history, hbacks.maintained rfl (hbacks.follows.run config .freeze)⟩
  | compact srcLevel =>
      exact ⟨history, hbacks.maintained rfl (hbacks.follows.compact config srcLevel)⟩

/-- Every call answers as on the map. -/
theorem agrees (hbacks : Backs lsm history store) (hsmall : lsm.engine.Addressable)
    (config : Config) (call : StoreCall) :
    Agrees (call.runOn config lsm).2 (call.apply store).2 := by
  have hbound : ∀ entry ∈ history, entry.txid ≤ lsm.takeTrancId.2 :=
    fun entry hmem => (hbacks.below entry hmem).le
  cases call with
  | get key =>
      rw [StoreCall.runOn, LSM.tryGet_eq hsmall]
      exact Or.inl (congrArg (Except.map Answer.value) (hbacks.taken.get_eq key hbound))
  | getBatch keys =>
      rw [StoreCall.runOn, LSM.tryGetBatch_eq hsmall]
      exact Or.inl (congrArg (Except.map Answer.values) (hbacks.taken.getBatch_eq keys hbound))
  | scan preffix sameBlock =>
      obtain ⟨entries, hscan, hrecords⟩ := hbacks.scanRange_eq preffix sameBlock
      refine Or.inl ?_
      rw [StoreCall.runOn, StoreCall.apply, hscan, Except.map, hrecords]
  | scanAll =>
      obtain ⟨entries, hscan, hrecords⟩ := hbacks.scanAll_eq
      refine Or.inl ?_
      rw [StoreCall.runOn, StoreCall.apply, hscan, Except.map, hrecords]
  | clear => exact Or.inl rfl
  | freeze => exact Or.inl rfl
  | put _ _ | putBatch _ | remove _ | removeBatch _ | flush | compact _ => exact agrees_done _

/-- One call on the `LSM` and on the map. -/
theorem step (hbacks : Backs lsm history store) (hsmall : lsm.engine.Addressable)
    (config : Config) (call : StoreCall) (hkeys : ∀ key ∈ call.keys, key ≠ []) :
    ∃ history', Backs (call.runOn config lsm).1 history' (call.apply store).1 ∧
      Agrees (call.runOn config lsm).2 (call.apply store).2 := by
  obtain ⟨history', hkept⟩ := hbacks.kept config call hkeys
  exact ⟨history', hkept, hbacks.agrees hsmall config call⟩

theorem run (hbacks : Backs lsm history store) (config : Config) {calls : List StoreCall}
    (hkeys : ∀ call ∈ calls, ∀ key ∈ call.keys, key ≠ [])
    (hsmall : AddressableRun config lsm calls) :
    List.Forall₂ Agrees (runBacked config lsm calls).2 (runStore store calls).2 := by
  induction calls generalizing lsm history store with
  | nil => exact List.Forall₂.nil
  | cons call rest ih =>
      obtain ⟨history', hbacks', hagrees⟩ :=
        hbacks.step hsmall.1 config call (hkeys call List.mem_cons_self)
      exact List.Forall₂.cons hagrees
        (ih hbacks' (fun other hother => hkeys other (List.mem_cons_of_mem _ hother)) hsmall.2)

end Backs

/-- A deletion in the memory tables hides a record in a file, and the first pair of a batch
gives way to the second. -/
def sampleCalls : List StoreCall :=
  [.put [1, 2] [7], .put [1, 3] [8], .flush, .remove [1, 2], .putBatch [([1], [4]), ([1], [5])],
    .get [1, 2], .scan [1] fun _ => false]

end Redis

end KopiDb

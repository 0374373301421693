import KopiDb.Redis.Runs

/-!
# Hashes as finite maps

A hash is one record with the list of its fields and one record for each value.  The
commands answer as a finite map does, as long as no field contains the separator and no
command leaves the empty field at the end of the list.
-/

namespace KopiDb.Redis

/-- A finite map with its keys in the order in which they were added. -/
structure FieldMap where
  fields : List Bytes
  value : Bytes → Option Bytes
  nodup : fields.Nodup
  present : ∀ field, field ∈ fields ↔ (value field).isSome

namespace FieldMap

def empty : FieldMap := ⟨[], fun _ => none, List.nodup_nil, by simp⟩

def set (map : FieldMap) (field value : Bytes) : FieldMap where
  fields := if field ∈ map.fields then map.fields else map.fields ++ [field]
  value := Function.update map.value field (some value)
  nodup := by
    split_ifs with hmem
    · exact map.nodup
    · exact List.nodup_append.mpr ⟨map.nodup, List.nodup_singleton _,
        fun _ hleft _ hright heq => hmem (List.mem_singleton.mp hright ▸ heq ▸ hleft)⟩
  present := by
    intro other
    by_cases hother : other = field
    · subst hother
      split_ifs with hmem <;> simp [hmem]
    · rw [Function.update_of_ne hother, ← map.present]
      split_ifs <;> simp [hother]

def setAll (map : FieldMap) (pairs : List (Bytes × Bytes)) : FieldMap :=
  pairs.foldl (fun map pair => map.set pair.1 pair.2) map

def erase (map : FieldMap) (field : Bytes) : FieldMap where
  fields := map.fields.erase field
  value := Function.update map.value field none
  nodup := map.nodup.erase field
  present := by
    intro other
    rw [map.nodup.mem_erase_iff]
    by_cases hother : other = field
    · simp [hother]
    · rw [Function.update_of_ne hother, ← map.present, and_iff_right hother]

end FieldMap

inductive HashOp where
  | hset (field value : Bytes)
  | hsetBatch (pairs : List (Bytes × Bytes))
  | hget (field : Bytes)
  | hdel (field : Bytes)
  | hkeys
  deriving DecidableEq, Repr

namespace HashOp

def command (key : Bytes) : HashOp → Command
  | .hset field value => redisHset key field value
  | .hsetBatch pairs => redisHsetBatch key pairs
  | .hget field => redisHget key field
  | .hdel field => redisHdel key field
  | .hkeys => redisHkeys key

/-- The finite map after the operation, and the answer. -/
def apply : HashOp → FieldMap → FieldMap × Bytes
  | .hset field value, map => (map.set field value, okReply)
  | .hsetBatch pairs, map =>
      (map.setAll pairs,
        intReply ((map.setAll pairs).fields.length - map.fields.length : ℕ))
  | .hget field, map => (map, (map.value field).elim nilReply bulkReply)
  | .hdel field, map =>
      (map.erase field, intReply (if (map.value field).isSome then 1 else 0))
  | .hkeys, map => (map, arrayReply map.fields)

/-- The fields that an operation writes, with their values. -/
def written : HashOp → List (Bytes × Bytes)
  | .hset field value => [(field, value)]
  | .hsetBatch pairs => pairs
  | _ => []

/-- The values that are written are not empty; the fields have no separator, and the empty
field is not left at the end of the list. -/
def Storable (op : HashOp) (map : FieldMap) : Prop :=
  (∀ pair ∈ op.written, pair.2 ≠ []) ∧
    (∀ pair ∈ op.written, redisFieldSeparator ∉ pair.1) ∧
    (op.apply map).1.fields.getLast? ≠ some []

instance (op : HashOp) (map : FieldMap) : Decidable (op.Storable map) :=
  inferInstanceAs (Decidable (_ ∧ _ ∧ _))

end HashOp

/-! ## The keys of a hash -/

theorem getHashFiledKey_inj {key field field' : Bytes} :
    getHashFiledKey key field = getHashFiledKey key field' ↔ field = field' :=
  List.append_right_inj _

theorem getHashFiledKey_ne_key (key field : Bytes) : getHashFiledKey key field ≠ key := by
  intro heq
  have hlength := congrArg List.length heq
  have hprefix : redisFieldPrefix.length = 12 := rfl
  rw [getHashFiledKey, List.length_append, List.length_append, List.length_append,
    hprefix] at hlength
  omega

theorem getHashFiledKey_ne_expire (key field : Bytes) :
    getHashFiledKey key field ≠ getExplireKey key := by
  intro heq
  have htag : ascii "REDIS_F" = ascii "REDIS_E" := congrArg (List.take 7) heq
  revert htag
  decide

theorem getHashValueFromFields_ne_nil (fields : List Bytes) :
    getHashValueFromFields fields ≠ [] :=
  List.append_ne_nil_of_left_ne_nil (by decide) _

/-- Reading the list of fields back. -/
theorem getFiledsFromHashValue_of_fields {fields : List Bytes}
    (hfree : ∀ field ∈ fields, redisFieldSeparator ∉ field)
    (hlast : fields.getLast? ≠ some []) :
    getFiledsFromHashValue (some (getHashValueFromFields fields)) = .ok fields := by
  have hne := getHashValueFromFields_ne_nil fields
  have hlength : ¬(getHashValueFromFields fields).length < redisHashValuePreffix.length := by
    rw [getHashValueFromFields, List.length_append]
    omega
  rw [getFiledsFromHashValue, Option.getD_some, if_neg hne, if_neg hlength,
    getHashValueFromFields, List.drop_left, split_join hfree, if_neg hlast]

/-- The records of a hash under a key without an expiry time. -/
structure HoldsHash (key : Bytes) (store : Store) (map : FieldMap) : Prop where
  expire : store.get (getExplireKey key) = none
  fields : getFiledsFromHashValue (store.get key) = .ok map.fields
  values : ∀ field, store.get (getHashFiledKey key field) = map.value field
  free : ∀ field ∈ map.fields, redisFieldSeparator ∉ field

namespace HoldsHash

variable {key : Bytes} {store : Store} {map : FieldMap}

theorem get_put_value {field other value : Bytes} (hvalue : value ≠ [])
    (hvalues : ∀ field, store.get (getHashFiledKey key field) = map.value field) :
    (store.put (getHashFiledKey key field) value).get (getHashFiledKey key other) =
      (map.set field value).value other := by
  change _ = Function.update map.value field (some value) other
  by_cases hother : other = field
  · rw [hother, Store.get_put_self _ _ _ hvalue, Function.update_self]
  · rw [Store.get_put_of_ne _ _ (getHashFiledKey_inj.not.mpr hother), hvalues,
      Function.update_of_ne hother]

/-- The loop of a batch: it sets the fields, and nothing but records of values changes. -/
theorem hsetFields_spec {pairs : List (Bytes × Bytes)} (hpairs : ∀ pair ∈ pairs, pair.2 ≠ [])
    (hvalues : ∀ field, store.get (getHashFiledKey key field) = map.value field)
    (addedCount : ℕ) :
    let result := hsetFields key pairs store map.fields addedCount
    (∀ field, result.1.get (getHashFiledKey key field) = (map.setAll pairs).value field) ∧
      (∀ other, (∀ field, other ≠ getHashFiledKey key field) →
        result.1.get other = store.get other) ∧
      result.2.1 = (map.setAll pairs).fields ∧
      result.2.2 + map.fields.length = addedCount + (map.setAll pairs).fields.length := by
  induction pairs generalizing store map addedCount with
  | nil => exact ⟨hvalues, fun _ _ => rfl, rfl, rfl⟩
  | cons pair rest ih =>
      obtain ⟨field, value⟩ := pair
      have hvalue := hpairs _ List.mem_cons_self
      have hnext := fun other => @get_put_value key store map field other value hvalue hvalues
      have hrest := fun added => ih (fun pair hmem => hpairs pair (List.mem_cons_of_mem _ hmem))
        hnext added
      have hother : ∀ other, (∀ field, other ≠ getHashFiledKey key field) →
          (store.put (getHashFiledKey key field) value).get other = store.get other :=
        fun other hne => Store.get_put_of_ne _ _ (hne field)
      have hcons : map.setAll ((field, value) :: rest) = (map.set field value).setAll rest :=
        rfl
      rw [hsetFields, hcons]
      dsimp only
      by_cases hmem : field ∈ map.fields
      · have hfields : (map.set field value).fields = map.fields := if_pos hmem
        obtain ⟨hget, hframe, hlist, hcount⟩ := hrest addedCount
        rw [hfields] at hget hframe hlist hcount
        rw [if_pos hmem]
        exact ⟨hget, fun other hne => (hframe other hne).trans (hother other hne), hlist,
          hcount⟩
      · have hfields : (map.set field value).fields = map.fields ++ [field] := if_neg hmem
        obtain ⟨hget, hframe, hlist, hcount⟩ := hrest (addedCount + 1)
        rw [hfields] at hget hframe hlist hcount
        rw [List.length_append, List.length_singleton] at hcount
        rw [if_neg hmem]
        exact ⟨hget, fun other hne => (hframe other hne).trans (hother other hne), hlist,
          by omega⟩

/-- The record of the hash is written last. -/
private theorem put_fields (hexpire : store.get (getExplireKey key) = none)
    (hvalues : ∀ field, store.get (getHashFiledKey key field) = map.value field)
    (hfree : ∀ field ∈ map.fields, redisFieldSeparator ∉ field)
    (hlast : map.fields.getLast? ≠ some []) :
    HoldsHash key (store.put key (getHashValueFromFields map.fields)) map where
  expire := by
    rw [Store.get_put_of_ne _ _ (getExplireKey_ne key)]
    exact hexpire
  fields := by
    rw [Store.get_put_self _ _ _ (getHashValueFromFields_ne_nil _)]
    exact getFiledsFromHashValue_of_fields hfree hlast
  values := by
    intro field
    rw [Store.get_put_of_ne _ _ (getHashFiledKey_ne_key key field)]
    exact hvalues field
  free := hfree

/-- A hash without fields has no record. -/
private theorem remove_fields (hexpire : store.get (getExplireKey key) = none)
    (hvalues : ∀ field, store.get (getHashFiledKey key field) = map.value field)
    (hempty : map.fields = []) : HoldsHash key (store.remove key) map where
  expire := by
    rw [Store.get_remove_of_ne _ (getExplireKey_ne key)]
    exact hexpire
  fields := by
    rw [Store.get_remove, if_pos rfl, hempty]
    rfl
  values := by
    intro field
    rw [Store.get_remove_of_ne _ (getHashFiledKey_ne_key key field)]
    exact hvalues field
  free := by
    rw [hempty]
    exact List.forall_mem_nil _

private theorem free_set {field value : Bytes}
    (hfree : ∀ field ∈ map.fields, redisFieldSeparator ∉ field)
    (hfield : redisFieldSeparator ∉ field) :
    ∀ other ∈ (map.set field value).fields, redisFieldSeparator ∉ other := by
  intro other hmem
  change other ∈ (if field ∈ map.fields then map.fields else map.fields ++ [field]) at hmem
  split_ifs at hmem
  · exact hfree other hmem
  · rcases List.mem_append.mp hmem with hmem | hmem
    · exact hfree other hmem
    · rw [List.mem_singleton.mp hmem]
      exact hfield

private theorem free_setAll {pairs : List (Bytes × Bytes)}
    (hfree : ∀ field ∈ map.fields, redisFieldSeparator ∉ field)
    (hpairs : ∀ pair ∈ pairs, redisFieldSeparator ∉ pair.1) :
    ∀ field ∈ (map.setAll pairs).fields, redisFieldSeparator ∉ field := by
  induction pairs generalizing map with
  | nil => exact hfree
  | cons pair rest ih =>
      exact ih (free_set hfree (hpairs pair List.mem_cons_self))
        fun other hmem => hpairs other (List.mem_cons_of_mem _ hmem)

/-- One operation. -/
theorem step (hhash : HoldsHash key store map) {op : HashOp} (hstorable : op.Storable map)
    (now : ℤ) :
    HoldsHash key ((op.command key).run now store).1 (op.apply map).1 ∧
      ((op.command key).run now store).2 = .ok (op.apply map).2 := by
  obtain ⟨hvalue, hfree, hlast⟩ := hstorable
  cases op with
  | hset field value =>
      have hvalue := hvalue (field, value) List.mem_cons_self
      have hfield := hfree (field, value) List.mem_cons_self
      have hvalues := fun other =>
        @get_put_value key store map field other value hvalue hhash.values
      have hframe : ∀ other, (∀ field, other ≠ getHashFiledKey key field) →
          (store.put (getHashFiledKey key field) value).get other = store.get other :=
        fun other hne => Store.get_put_of_ne _ _ (hne field)
      have hkey := hframe key fun other => (getHashFiledKey_ne_key key other).symm
      have hexpire := (hframe (getExplireKey key) fun other =>
        (getHashFiledKey_ne_expire key other).symm).trans hhash.expire
      change HoldsHash key ((redisHset key field value).run now store).1 (map.set field value) ∧
        ((redisHset key field value).run now store).2 = .ok okReply
      rw [redisHset, run_writeCommand hhash.expire]
      dsimp only
      rw [hkey, hhash.fields]
      refine ⟨?_, rfl⟩
      dsimp only
      by_cases hmem : field ∈ map.fields
      · have hfields : (map.set field value).fields = map.fields := if_pos hmem
        rw [if_pos hmem]
        exact
          { expire := hexpire
            fields := by
              rw [hkey, hfields]
              exact hhash.fields
            values := hvalues
            free := free_set hhash.free hfield }
      · have hfields : (map.set field value).fields = map.fields ++ [field] := if_neg hmem
        rw [if_neg hmem, ← hfields]
        exact put_fields hexpire hvalues (free_set hhash.free hfield) hlast
  | hsetBatch pairs =>
      obtain ⟨hvalues, hframe, hfields, hcount⟩ :=
        @hsetFields_spec key store map pairs hvalue hhash.values 0
      have hexpire := (hframe (getExplireKey key) fun other =>
        (getHashFiledKey_ne_expire key other).symm).trans hhash.expire
      change HoldsHash key ((redisHsetBatch key pairs).run now store).1 (map.setAll pairs) ∧
        ((redisHsetBatch key pairs).run now store).2 =
          .ok (intReply ((map.setAll pairs).fields.length - map.fields.length : ℕ))
      rw [redisHsetBatch, run_writeCommand hhash.expire, hhash.fields]
      dsimp only
      constructor
      · rw [hfields]
        exact put_fields hexpire hvalues (free_setAll hhash.free hfree) hlast
      · have hadded : (hsetFields key pairs store map.fields 0).2.2 =
            (map.setAll pairs).fields.length - map.fields.length := by
          omega
        rw [hadded]
  | hget field =>
      change HoldsHash key ((redisHget key field).run now store).1 map ∧
        ((redisHget key field).run now store).2 =
          .ok ((map.value field).elim nilReply bulkReply)
      rw [redisHget, run_readCommand hhash.expire, hhash.values]
      refine ⟨hhash, ?_⟩
      cases map.value field <;> rfl
  | hdel field =>
      have hremoved : ∀ other,
          (if (map.value field).isSome then store.remove (getHashFiledKey key field)
            else store).get other =
          if other = getHashFiledKey key field then none else store.get other := by
        intro other
        by_cases hsome : (map.value field).isSome
        · rw [if_pos hsome, Store.get_remove]
        · rw [if_neg hsome]
          by_cases hother : other = getHashFiledKey key field
          · rw [if_pos hother, hother, hhash.values]
            simpa using hsome
          · rw [if_neg hother]
      have hkey := hremoved key
      rw [if_neg (getHashFiledKey_ne_key key field).symm] at hkey
      have hexpire := hremoved (getExplireKey key)
      rw [if_neg (getHashFiledKey_ne_expire key field).symm, hhash.expire] at hexpire
      have hvalues : ∀ other,
          (if (map.value field).isSome then store.remove (getHashFiledKey key field)
            else store).get (getHashFiledKey key other) = (map.erase field).value other := by
        intro other
        change _ = Function.update map.value field none other
        rw [hremoved]
        by_cases hother : other = field
        · rw [hother, if_pos rfl, Function.update_self]
        · rw [if_neg (getHashFiledKey_inj.not.mpr hother), Function.update_of_ne hother,
            hhash.values]
      have hfree : ∀ other ∈ (map.erase field).fields, redisFieldSeparator ∉ other :=
        fun other hmem => hhash.free other (List.mem_of_mem_erase hmem)
      change HoldsHash key ((redisHdel key field).run now store).1 (map.erase field) ∧
        ((redisHdel key field).run now store).2 =
          .ok (intReply (if (map.value field).isSome then 1 else 0))
      rw [redisHdel, run_takeCommand hhash.expire]
      dsimp only
      rw [hhash.values, hkey, hhash.fields]
      refine ⟨?_, rfl⟩
      dsimp only
      generalize (if (map.value field).isSome then store.remove (getHashFiledKey key field)
        else store) = store' at hremoved hkey hexpire hvalues ⊢
      by_cases hmem : field ∈ map.fields
      · rw [if_pos hmem]
        split_ifs with hempty
        · exact remove_fields hexpire hvalues hempty
        · exact put_fields hexpire hvalues hfree hlast
      · rw [if_neg hmem]
        exact
          { expire := hexpire
            fields := by
              rw [hkey, hhash.fields]
              exact congrArg Except.ok (List.erase_of_not_mem hmem).symm
            values := hvalues
            free := hfree }
  | hkeys =>
      change HoldsHash key ((redisHkeys key).run now store).1 map ∧
        ((redisHkeys key).run now store).2 = .ok (arrayReply map.fields)
      rw [redisHkeys, run_readCommand hhash.expire, hhash.fields]
      exact ⟨hhash, rfl⟩

end HoldsHash

/-- A sequence of hash commands on a key that is not there answers as a finite map does,
as long as every command keeps the list of fields storable. -/
theorem hashes_refine_map {key : Bytes} {store : Store} {ops : List (ℤ × HashOp)}
    (habsent : store.get key = none) (hexpire : store.get (getExplireKey key) = none)
    (hfields : ∀ field, store.get (getHashFiledKey key field) = none)
    (hstorable : AllowedRun HashOp.apply HashOp.Storable ops .empty) :
    (runCommands (ops.map fun op => (op.1, op.2.command key)) store).2 =
      (runSpec HashOp.apply ops .empty).2.map .ok := by
  have hstart : HoldsHash key store .empty :=
    { expire := hexpire
      fields := by
        rw [habsent]
        rfl
      values := hfields
      free := List.forall_mem_nil _ }
  have hstep : ∀ op store map now, HoldsHash key store map → HashOp.Storable op map →
      HoldsHash key ((op.command key).run now store).1 (op.apply map).1 ∧
        ((op.command key).run now store).2 = .ok (op.apply map).2 :=
    fun op store map now hhash hallowed => hhash.step hallowed now
  exact (runCommands_refines _ _ _ hstep hstart hstorable).2

theorem hashes_refine_map_sample :
    (runCommands ([(0, HashOp.hsetBatch [([], ascii "1"), (ascii "f", ascii "2")]),
        (0, .hset [] (ascii "3")), (1, .hget []), (1, .hkeys), (2, .hdel []),
        (3, .hkeys)].map fun op => (op.1, op.2.command (ascii "k"))) ∅).2 =
      [.ok (ascii ":2\r\n"), .ok (ascii "+OK\r\n"), .ok (ascii "$1\r\n3\r\n"),
        .ok (ascii "*2\r\n$0\r\n\r\n$1\r\nf\r\n"), .ok (ascii ":1\r\n"),
        .ok (ascii "*1\r\n$1\r\nf\r\n")] := by
  have hreplies := @hashes_refine_map (ascii "k") ∅
    [(0, .hsetBatch [([], ascii "1"), (ascii "f", ascii "2")]), (0, .hset [] (ascii "3")),
      (1, .hget []), (1, .hkeys), (2, .hdel []), (3, .hkeys)] rfl rfl (fun _ => rfl)
    ⟨by decide, by decide, by decide, by decide, by decide, by decide, trivial⟩
  rw [hreplies]
  decide

/-- A field with the separator is listed as two, and the deleted field stays listed. -/
theorem hashes_split_field :
    (runCommands ([(0, HashOp.hset (ascii "a$b") (ascii "1")), (0, .hkeys),
        (0, .hdel (ascii "a$b")), (0, .hkeys)].map fun op =>
          (op.1, op.2.command (ascii "k"))) ∅).2 =
      [.ok okReply, .ok (ascii "*2\r\n$1\r\na\r\n$1\r\nb\r\n"), .ok (ascii ":1\r\n"),
        .ok (ascii "*2\r\n$1\r\na\r\n$1\r\nb\r\n")] ∧
    (runSpec HashOp.apply [(0, .hset (ascii "a$b") (ascii "1")), (0, .hkeys),
        (0, .hdel (ascii "a$b")), (0, .hkeys)] .empty).2 =
      [okReply, ascii "*1\r\n$3\r\na$b\r\n", ascii ":1\r\n", ascii "*0\r\n"] := by
  decide +kernel

end KopiDb.Redis

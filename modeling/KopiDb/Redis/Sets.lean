import Mathlib.Data.Finset.Sort
import KopiDb.Lib.Prefixes
import KopiDb.Redis.Ranges

/-!
# Sets and their counters

A set has one record for each member and one with the number of members.  Both commands that
change a set count their changes before they make them, and a member that is named twice is
counted twice.
-/

namespace KopiDb.Redis

inductive SetOp where
  | sadd (members : List Bytes)
  | srem (members : List Bytes)
  deriving DecidableEq, Repr

namespace SetOp

def command (key : Bytes) : SetOp → Command
  | .sadd members => redisSadd (ascii "SADD" :: key :: members)
  | .srem members => redisSrem (ascii "SREM" :: key :: members)

/-- The set after the operation, and the number of members that were added or removed. -/
def apply : SetOp → Finset Bytes → Finset Bytes × Bytes
  | .sadd added, members =>
      (members ∪ added.toFinset, intReply (added.toFinset \ members).card)
  | .srem removed, members =>
      (members \ removed.toFinset, intReply (removed.toFinset ∩ members).card)

/-- No member is named twice that the operation adds or removes, and the number of members
stays in the range of `int`. -/
def Counts : SetOp → Finset Bytes → Prop
  | .sadd added, members =>
      (added.filter fun member => member ∉ members).Nodup ∧
        (members ∪ added.toFinset).card < 2 ^ 31
  | .srem removed, members => (removed.filter fun member => member ∈ members).Nodup

instance (op : SetOp) (members : Finset Bytes) : Decidable (op.Counts members) :=
  match op with
  | .sadd _ => inferInstanceAs (Decidable (_ ∧ _))
  | .srem _ => inferInstanceAs (Decidable (List.Nodup _))

end SetOp

/-! ## The records of a set -/

theorem getSetMemberKey_inj {key member member' : Bytes} :
    getSetMemberKey key member = getSetMemberKey key member' ↔ member = member' :=
  List.append_right_inj _

theorem getSetMemberKey_ne_key (key member : Bytes) : getSetMemberKey key member ≠ key := by
  intro heq
  have hlength := congrArg List.length heq
  have hprefix : redisSetPrefix.length = 10 := rfl
  rw [getSetMemberKey, List.length_append, List.length_append, List.length_append,
    hprefix] at hlength
  omega

theorem getSetMemberKey_ne_expire (key member : Bytes) :
    getSetMemberKey key member ≠ getExplireKey key := by
  intro heq
  have htag : ascii "REDIS_S" = ascii "REDIS_E" := congrArg (List.take 7) heq
  revert htag
  decide

/-- The records of a set under a key without an expiry time. -/
structure HoldsSet (key : Bytes) (store : Store) (members : Finset Bytes) : Prop where
  expire : store.get (getExplireKey key) = none
  size : store.get key = some (toDecimal members.card) ∨ store.get key = none ∧ members = ∅
  range : members.card < 2 ^ 31
  records : ∀ member, store.get (getSetMemberKey key member) =
    if member ∈ members then some getSetMemberValue else none

/-- What the read commands say of a set. -/
structure SetAnswers (key : Bytes) (store : Store) (members : Finset Bytes) : Prop where
  scard : ∀ now, (redisScard key).run now store = (store, .ok (intReply members.card))
  smembers : ∀ now, (redisSmembers key).run now store =
    (store, .ok (arrayReply (members.sort (· ≤ ·))))
  sismember : ∀ now member, (redisSismember key member).run now store =
    (store, .ok (intReply (if member ∈ members then 1 else 0)))

namespace HoldsSet

variable {key : Bytes} {store : Store} {members : Finset Bytes}

/-- The counter as both commands read it. -/
theorem prevSize (hholds : HoldsSet key store members) :
    (store.get key).elim (.ok 0) stoi = .ok (members.card : ℤ) := by
  rcases hholds.size with hsize | ⟨hsize, rfl⟩
  · rw [hsize]
    exact stoi_toDecimal hholds.range
  · rw [hsize]
    rfl

theorem isSome_record (hholds : HoldsSet key store members) (member : Bytes) :
    (store.get (getSetMemberKey key member)).isSome = decide (member ∈ members) := by
  rw [hholds.records]
  split_ifs with hmem <;> simp [hmem]

theorem answers (hholds : HoldsSet key store members) : SetAnswers key store members where
  scard now := by
    rw [redisScard, run_readCommand hholds.expire]
    rcases hholds.size with hsize | ⟨hsize, rfl⟩
    · rw [hsize]
      rfl
    · rw [hsize]
      rfl
  smembers now := by
    rw [redisSmembers, run_readCommand hholds.expire]
    have hrecord : ∀ record ∈ store.scan (getSetMemberPrefix key), ∃ member ∈ members,
        record.1 = getSetMemberPrefix key ++ member := by
      rintro ⟨name, value⟩ hmem
      obtain ⟨⟨member, rfl⟩, hget⟩ := Store.mem_scan.mp hmem
      refine ⟨member, ?_, rfl⟩
      by_contra hnot
      have hnone := hholds.records member
      rw [if_neg hnot] at hnone
      exact Option.some_ne_none _ (hget.symm.trans hnone)
    have hlisted : (store.scan (getSetMemberPrefix key)).map
        (fun record => record.1.drop (getSetMemberPrefix key).length) = members.sort (· ≤ ·) := by
      apply List.Pairwise.eq_of_mem_iff (r := (· < ·))
      · rw [List.pairwise_map]
        refine (store.scan_ascending _).imp_of_mem ?_
        intro left right hleft hright hlt
        obtain ⟨member, -, hname⟩ := hrecord left hleft
        obtain ⟨member', -, hname'⟩ := hrecord right hright
        rw [hname, hname', Prefixes.append_lt_append_left] at hlt
        rwa [hname, hname', List.drop_left, List.drop_left]
      · exact (members.sortedLT_sort).pairwise
      · intro member
        rw [Finset.mem_sort, List.mem_map]
        constructor
        · rintro ⟨record, hmem, rfl⟩
          obtain ⟨member, hmember, hname⟩ := hrecord record hmem
          rwa [hname, List.drop_left]
        · intro hmem
          refine ⟨(getSetMemberPrefix key ++ member, getSetMemberValue), ?_, List.drop_left⟩
          have hget := hholds.records member
          rw [if_pos hmem] at hget
          exact Store.mem_scan.mpr ⟨List.prefix_append _ _, hget⟩
    dsimp only
    rw [hlisted]
  sismember now member := by
    rw [redisSismember, run_readCommand hholds.expire, hholds.isSome_record]
    simp

/-- The changes are counted right if no member is named twice. -/
theorem card_filter_eq_iff (named : List Bytes) (changes : Bytes → Prop)
    [DecidablePred changes] :
    (named.filter fun member => changes member).length =
        (named.toFinset.filter changes).card ↔
      (named.filter fun member => changes member).Nodup := by
  have hfilter : named.toFinset.filter changes =
      (named.filter fun member => changes member).toFinset := by
    ext member
    simp
  rw [hfilter, ← Multiset.coe_nodup, ← Multiset.toFinset_card_eq_card_iff_nodup]
  exact eq_comm

section Sadd

variable {added : List Bytes}

/-- What `sadd` writes and answers. -/
theorem run_sadd (hholds : HoldsSet key store members) (now : ℤ) :
    let fresh := added.filter fun member => member ∉ members
    ((SetOp.sadd added).command key).run now store =
      (store.putBatch ((fresh.map fun member => (getSetMemberKey key member, getSetMemberValue)) ++
          [(key, toDecimal (wrapInt 32 (fresh.length + members.card)))]),
        .ok (intReply fresh.length)) := by
  intro fresh
  have hnew : newMembers key added store =
      fresh.map fun member => (getSetMemberKey key member, getSetMemberValue) := by
    rw [newMembers]
    congr 1
    apply List.filter_congr
    intro member _
    rw [← Option.not_isSome, hholds.isSome_record]
    simp
  rw [SetOp.command, redisSadd, run_writeCommand hholds.expire]
  dsimp only
  rw [hholds.prevSize, hnew, List.length_map]

private theorem written_sadd (hholds : HoldsSet key store members) (size : Bytes)
    (hsize : size ≠ []) :
    let fresh := added.filter fun member => member ∉ members
    let written := store.putBatch ((fresh.map fun member =>
      (getSetMemberKey key member, getSetMemberValue)) ++ [(key, size)])
    written.get (getExplireKey key) = none ∧ written.get key = some size ∧
      ∀ member, written.get (getSetMemberKey key member) =
        if member ∈ members ∪ added.toFinset then some getSetMemberValue else none := by
  intro fresh written
  have hkeys : ∀ other, other ∈ ((fresh.map fun member =>
      (getSetMemberKey key member, getSetMemberValue)) ++ [(key, size)]).map Prod.fst ↔
      (∃ member ∈ fresh, getSetMemberKey key member = other) ∨ other = key := by
    intro other
    simp
  refine ⟨?_, ?_, fun member => ?_⟩
  · rw [Store.get_putBatch_of_not_mem, hholds.expire]
    rw [hkeys, not_or]
    exact ⟨fun ⟨member, _, heq⟩ => getSetMemberKey_ne_expire key member heq,
      getExplireKey_ne key⟩
  · apply Store.get_putBatch_of_mem store hsize (List.mem_append_right _ List.mem_cons_self)
    intro kv hmem hkey
    rcases List.mem_append.mp hmem with hmem | hmem
    · obtain ⟨member, -, rfl⟩ := List.mem_map.mp hmem
      exact absurd hkey (getSetMemberKey_ne_key key member)
    · rw [List.mem_singleton.mp hmem]
  · by_cases hfresh : member ∈ fresh
    · have hadded : member ∈ members ∪ added.toFinset :=
        Finset.mem_union_right _ (List.mem_toFinset.mpr (List.mem_filter.mp hfresh).1)
      rw [if_pos hadded]
      have hrecord : (getSetMemberKey key member, getSetMemberValue) ∈ (fresh.map fun member =>
          (getSetMemberKey key member, getSetMemberValue)) ++ [(key, size)] :=
        List.mem_append_left _ (List.mem_map.mpr ⟨member, hfresh, rfl⟩)
      apply Store.get_putBatch_of_mem store (by decide) hrecord
      intro kv hmem hkey
      rcases List.mem_append.mp hmem with hmem | hmem
      · obtain ⟨other, -, rfl⟩ := List.mem_map.mp hmem
        rfl
      · rw [List.mem_singleton.mp hmem] at hkey
        exact absurd hkey.symm (getSetMemberKey_ne_key key member)
    · have hold : member ∈ members ∪ added.toFinset ↔ member ∈ members := by
        rw [Finset.mem_union, List.mem_toFinset]
        refine ⟨fun hmem => hmem.elim id fun hadded => ?_, Or.inl⟩
        by_contra hnot
        exact hfresh (List.mem_filter.mpr ⟨hadded, decide_eq_true hnot⟩)
      rw [Store.get_putBatch_of_not_mem, hholds.records, if_congr hold rfl rfl]
      rw [hkeys, not_or]
      refine ⟨fun ⟨other, hother, heq⟩ => ?_, getSetMemberKey_ne_key key member⟩
      rw [getSetMemberKey_inj] at heq
      exact hfresh (heq ▸ hother)

/-- The members that `sadd` adds. -/
private theorem fresh_eq : added.toFinset \ members =
    added.toFinset.filter fun member => member ∉ members := by
  ext member
  simp

theorem sadd_counts_iff (hholds : HoldsSet key store members) (now : ℤ) :
    (((SetOp.sadd added).command key).run now store).2 =
        .ok ((SetOp.sadd added).apply members).2 ↔
      (added.filter fun member => member ∉ members).Nodup := by
  rw [hholds.run_sadd, ← card_filter_eq_iff added fun member => member ∉ members, SetOp.apply,
    fresh_eq]
  dsimp only
  rw [Except.ok.injEq]
  constructor
  · exact fun heq => Int.ofNat_inj.mp (intReply_inj heq)
  · intro heq
    rw [heq]

theorem sadd (hholds : HoldsSet key store members) (now : ℤ)
    (hnodup : (added.filter fun member => member ∉ members).Nodup) :
    let after := (((SetOp.sadd added).command key).run now store).1
    ((members ∪ added.toFinset).card < 2 ^ 31 → HoldsSet key after (members ∪ added.toFinset)) ∧
      (SetAnswers key after (members ∪ added.toFinset) →
        (members ∪ added.toFinset).card < 2 ^ 31) := by
  have hcount := (card_filter_eq_iff added fun member => member ∉ members).mpr hnodup
  have hcard : (added.filter fun member => member ∉ members).length + members.card =
      (members ∪ added.toFinset).card := by
    rw [hcount, ← fresh_eq, Finset.card_sdiff_add_card, Finset.union_comm]
  have hne : ∀ number, toDecimal number ≠ [] := by
    intro number
    rw [toDecimal]
    split_ifs
    · exact List.cons_ne_nil _ _
    · exact (isDigit_decimal _).1
  intro after
  have hafter : after = store.putBatch (((added.filter fun member => member ∉ members).map
      fun member => (getSetMemberKey key member, getSetMemberValue)) ++
        [(key, toDecimal (wrapInt 32 ((members ∪ added.toFinset).card : ℕ)))]) := by
    rw [← hcard, Nat.cast_add]
    exact congrArg Prod.fst (hholds.run_sadd now)
  obtain ⟨hexpire, hsize, hrecords⟩ := @written_sadd key store members added hholds _
    (hne (wrapInt 32 ((members ∪ added.toFinset).card : ℕ)))
  rw [← hafter] at hexpire hsize hrecords
  constructor
  · intro hrange
    have hwrap : wrapInt 32 ((members ∪ added.toFinset).card : ℕ) =
        ((members ∪ added.toFinset).card : ℕ) := Int.bmod_eq_of_le (by omega) (by omega)
    rw [hwrap] at hsize
    exact ⟨hexpire, Or.inl hsize, hrange, hrecords⟩
  · intro hanswers
    have hscard := hanswers.scard 0
    rw [redisScard, run_readCommand hexpire, hsize] at hscard
    have hreply : intReply (wrapInt 32 ((members ∪ added.toFinset).card : ℕ)) =
        intReply ((members ∪ added.toFinset).card : ℕ) :=
      Except.ok.inj (congrArg Prod.snd hscard)
    have hwrap := intReply_inj hreply
    have hlt : wrapInt 32 ((members ∪ added.toFinset).card : ℕ) < 2 ^ 31 :=
      Int.bmod_lt (by decide)
    rw [hwrap] at hlt
    omega

end Sadd

section Srem

variable {removed : List Bytes}

/-- What `srem` writes and answers. -/
theorem run_srem (hholds : HoldsSet key store members) (now : ℤ) :
    let present := removed.filter fun member => member ∈ members
    ((SetOp.srem removed).command key).run now store =
      ((store.put key (toDecimal (wrapInt 32 (-present.length + members.card)))).removeBatch
          (present.map (getSetMemberKey key)), .ok (intReply present.length)) := by
  intro present
  have hdel : (removed.map (getSetMemberKey key)).filter
      (fun memberKey => (store.get memberKey).isSome) = present.map (getSetMemberKey key) := by
    rw [List.filter_map]
    congr 1
    exact List.filter_congr fun member _ => hholds.isSome_record member
  rw [SetOp.command, redisSrem, run_takeCommand hholds.expire]
  dsimp only
  rw [hholds.prevSize, hdel, List.length_map]

/-- The members that `srem` removes. -/
private theorem present_eq : removed.toFinset ∩ members =
    removed.toFinset.filter fun member => member ∈ members := by
  ext member
  simp

theorem srem_counts_iff (hholds : HoldsSet key store members) (now : ℤ) :
    (((SetOp.srem removed).command key).run now store).2 =
        .ok ((SetOp.srem removed).apply members).2 ↔
      (removed.filter fun member => member ∈ members).Nodup := by
  rw [hholds.run_srem, ← card_filter_eq_iff removed fun member => member ∈ members, SetOp.apply,
    present_eq]
  dsimp only
  rw [Except.ok.injEq]
  constructor
  · exact fun heq => Int.ofNat_inj.mp (intReply_inj heq)
  · intro heq
    rw [heq]

theorem srem (hholds : HoldsSet key store members) (now : ℤ)
    (hnodup : (removed.filter fun member => member ∈ members).Nodup) :
    HoldsSet key (((SetOp.srem removed).command key).run now store).1
      (members \ removed.toFinset) := by
  have hcount := (card_filter_eq_iff removed fun member => member ∈ members).mpr hnodup
  have hcard : (members \ removed.toFinset).card +
      (removed.filter fun member => member ∈ members).length = members.card := by
    rw [hcount, ← present_eq, Finset.inter_comm, Finset.card_sdiff_add_card_inter]
  have hrange := hholds.range
  have hwrap : wrapInt 32 (-((removed.filter fun member => member ∈ members).length : ℤ) +
      members.card) = ((members \ removed.toFinset).card : ℕ) := by
    rw [← hcard, Nat.cast_add, neg_add_cancel_comm_assoc]
    exact Int.bmod_eq_of_le (by omega) (by omega)
  have hne : toDecimal ((members \ removed.toFinset).card : ℕ) ≠ [] := (isDigit_decimal _).1
  rw [hholds.run_srem now, hwrap]
  constructor
  · rw [Store.get_removeBatch, if_neg, Store.get_put_of_ne _ _ (getExplireKey_ne key),
      hholds.expire]
    intro hmem
    obtain ⟨member, -, heq⟩ := List.mem_map.mp hmem
    exact getSetMemberKey_ne_expire key member heq
  · left
    rw [Store.get_removeBatch, if_neg, Store.get_put_self _ _ _ hne]
    intro hmem
    obtain ⟨member, -, heq⟩ := List.mem_map.mp hmem
    exact getSetMemberKey_ne_key key member heq
  · omega
  · intro member
    have hdeleted : getSetMemberKey key member ∈
        (removed.filter fun member => member ∈ members).map (getSetMemberKey key) ↔
          member ∈ removed ∧ member ∈ members := by
      simp [getSetMemberKey_inj]
    have hkept : member ∈ members \ removed.toFinset ↔ member ∈ members ∧ member ∉ removed := by
      rw [Finset.mem_sdiff, List.mem_toFinset]
    rw [Store.get_removeBatch, Store.get_put_of_ne _ _ (getSetMemberKey_ne_key key member),
      hholds.records]
    by_cases hmem : member ∈ members
    · by_cases hremoved : member ∈ removed
      · rw [if_pos (hdeleted.mpr ⟨hremoved, hmem⟩), if_neg fun hkey => (hkept.mp hkey).2 hremoved]
      · rw [if_neg fun hkey => hremoved (hdeleted.mp hkey).1, if_pos hmem,
          if_pos (hkept.mpr ⟨hmem, hremoved⟩)]
    · rw [if_neg fun hkey => hmem (hdeleted.mp hkey).2, if_neg hmem,
        if_neg fun hkey => hmem (hkept.mp hkey).1]

end Srem

/-- One operation that counts right. -/
theorem step (hholds : HoldsSet key store members) {op : SetOp} (hcounts : op.Counts members)
    (now : ℤ) :
    HoldsSet key ((op.command key).run now store).1 (op.apply members).1 ∧
      ((op.command key).run now store).2 = .ok (op.apply members).2 := by
  cases op with
  | sadd added =>
      obtain ⟨hnodup, hrange⟩ := hcounts
      exact ⟨(hholds.sadd now hnodup).1 hrange, (hholds.sadd_counts_iff now).mpr hnodup⟩
  | srem removed =>
      exact ⟨hholds.srem now hcounts, (hholds.srem_counts_iff now).mpr hcounts⟩

/-- An operation that is answered and seen right has counted right. -/
theorem counts_of_served (hholds : HoldsSet key store members) {op : SetOp} {now : ℤ}
    (hreply : ((op.command key).run now store).2 = .ok (op.apply members).2)
    (hafter : SetAnswers key ((op.command key).run now store).1 (op.apply members).1) :
    op.Counts members := by
  cases op with
  | sadd added =>
      have hnodup := (hholds.sadd_counts_iff now).mp hreply
      exact ⟨hnodup, (hholds.sadd now hnodup).2 hafter⟩
  | srem removed => exact (hholds.srem_counts_iff now).mp hreply

end HoldsSet

/-! ## Runs -/

/-- Every answer of a run is that of the set, and so is what can be read before and after each
operation. -/
def ServesSet (key : Bytes) : List (ℤ × SetOp) → Store → Finset Bytes → Prop
  | [], store, members => SetAnswers key store members
  | (now, op) :: rest, store, members =>
      SetAnswers key store members ∧
        ((op.command key).run now store).2 = .ok (op.apply members).2 ∧
        ServesSet key rest ((op.command key).run now store).1 (op.apply members).1

theorem ServesSet.answers {key : Bytes} {ops : List (ℤ × SetOp)} {store : Store}
    {members : Finset Bytes} (hserves : ServesSet key ops store members) :
    SetAnswers key store members := by
  cases ops with
  | nil => exact hserves
  | cons op rest => exact hserves.1

theorem HoldsSet.serves_iff {key : Bytes} {store : Store} {members : Finset Bytes}
    (hholds : HoldsSet key store members) (ops : List (ℤ × SetOp)) :
    ServesSet key ops store members ↔ AllowedRun SetOp.apply SetOp.Counts ops members := by
  induction ops generalizing store members with
  | nil => exact iff_of_true hholds.answers trivial
  | cons head rest ih =>
      obtain ⟨now, op⟩ := head
      constructor
      · rintro ⟨-, hreply, hrest⟩
        have hcounts := hholds.counts_of_served hreply hrest.answers
        exact ⟨hcounts, (ih (hholds.step hcounts now).1).mp hrest⟩
      · rintro ⟨hcounts, hrest⟩
        obtain ⟨hnext, hreply⟩ := hholds.step hcounts now
        exact ⟨hholds.answers, hreply, (ih hnext).mpr hrest⟩

/-- A new set is served as a set exactly as long as no command names a member twice that it
adds or removes, and the number of members stays in the range of `int`. -/
theorem sets_refine_iff {key : Bytes} {store : Store} (habsent : store.get key = none)
    (hexpire : store.get (getExplireKey key) = none)
    (hfree : ∀ member, store.get (getSetMemberKey key member) = none)
    (ops : List (ℤ × SetOp)) :
    ServesSet key ops store ∅ ↔ AllowedRun SetOp.apply SetOp.Counts ops ∅ := by
  apply HoldsSet.serves_iff
  exact ⟨hexpire, Or.inr ⟨habsent, rfl⟩, by decide, fun member => by simp [hfree]⟩

/-- Members named twice that are there already, or are not. -/
theorem sets_refine_iff_sample :
    ServesSet (ascii "k") [(0, .sadd [ascii "a", ascii "b"]), (1, .sadd [ascii "a", ascii "a"]),
      (2, .srem [ascii "c", ascii "c", ascii "b"])] ∅ ∅ :=
  (sets_refine_iff rfl rfl (fun _ => rfl) _).mpr
    ⟨by decide +kernel, by decide +kernel, by decide +kernel, trivial⟩

/-- One new member that is named twice. -/
theorem sets_drift :
    (runCommands [(0, (SetOp.sadd [ascii "a", ascii "a"]).command (ascii "k")),
        (1, redisScard (ascii "k")), (1, redisSmembers (ascii "k"))] ∅).2 =
      [.ok (intReply 2), .ok (intReply 2), .ok (arrayReply [ascii "a"])] ∧
    ¬ServesSet (ascii "k") [(0, .sadd [ascii "a", ascii "a"])] ∅ ∅ := by
  refine ⟨by decide +kernel, fun hserves => ?_⟩
  have hreply := hserves.2.1
  revert hreply
  decide +kernel

end KopiDb.Redis

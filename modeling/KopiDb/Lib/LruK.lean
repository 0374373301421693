import Mathlib.Data.List.MinMax
import Mathlib.Data.List.Nodup

/-!
# Replacement by LRU-K

A store of bounded size that remembers of each entry how often and when it was used.  If there
is no room for a new entry, the entry leaves that was not used for longest, and entries that
were used fewer than `k` times leave before all others.  Two lists in the order of use decide
this without any times.
-/

namespace LruK

variable {κ β : Type*}

structure Entry (κ β : Type*) where
  key : κ
  block : β
  uses : ℕ
  lastUse : ℕ

/-- The entries, and the number of calls so far, which is the time of the next one. -/
structure State (κ β : Type*) where
  now : ℕ
  entries : List (Entry κ β)

inductive Call (κ β : Type*) where
  | get (key : κ)
  | put (key : κ) (block : β)

/-- The entries that may leave: those with fewer than `k` uses, or all if there are none. -/
def candidates (k : ℕ) (entries : List (Entry κ β)) : List (Entry κ β) :=
  let cold := entries.filter fun entry => entry.uses < k
  if cold.isEmpty then entries else cold

def victim (k : ℕ) (entries : List (Entry κ β)) : Option (Entry κ β) :=
  (candidates k entries).argmin Entry.lastUse

variable [DecidableEq κ]

def lookup (entries : List (Entry κ β)) (key : κ) : Option β :=
  (entries.find? fun entry => entry.key = key).map Entry.block

/-- The entries besides the one with a key. -/
def without (key : κ) (entries : List (Entry κ β)) : List (Entry κ β) :=
  entries.filter fun entry => entry.key ≠ key

def evict (k : ℕ) (entries : List (Entry κ β)) : List (Entry κ β) :=
  match victim k entries with
  | none => entries
  | some entry => without entry.key entries

def touch (key : κ) (now : ℕ) (entries : List (Entry κ β)) : List (Entry κ β) :=
  entries.map fun entry =>
    if entry.key = key then { entry with uses := entry.uses + 1, lastUse := now } else entry

/-- One call, with its answer. -/
def step (capacity k : ℕ) (call : Call κ β) (state : State κ β) : State κ β × Option β :=
  match call with
  | .get key =>
      (⟨state.now + 1, touch key state.now state.entries⟩, lookup state.entries key)
  | .put key block =>
      if (lookup state.entries key).isSome then
        (⟨state.now + 1, touch key state.now state.entries⟩, none)
      else
        let kept := if capacity ≤ state.entries.length then evict k state.entries
          else state.entries
        (⟨state.now + 1, ⟨key, block, 1, state.now⟩ :: kept⟩, none)

/-! ## The entry that leaves -/

omit [DecidableEq κ] in
/-- Nobody leaves before an entry that was not used for longer, and with `k` uses nobody leaves
before an entry with fewer. -/
theorem victim_spec {k : ℕ} {entries : List (Entry κ β)} {entry : Entry κ β}
    (hvictim : victim k entries = some entry) :
    entry ∈ entries ∧
      (∀ other ∈ entries, other.uses < k → entry.uses < k) ∧
      ∀ other ∈ entries, (other.uses < k ∨ k ≤ entry.uses) → entry.lastUse ≤ other.lastUse := by
  have hmin : ∀ other ∈ candidates k entries, entry.lastUse ≤ other.lastUse :=
    fun other hother => List.le_of_mem_argmin hother hvictim
  have hmem := List.argmin_mem hvictim
  unfold candidates at hmin hmem
  dsimp only at hmin hmem
  split_ifs at hmin hmem with hempty
  · have hnone : ∀ other ∈ entries, ¬other.uses < k := by
      intro other hother hcold
      rw [List.isEmpty_iff, List.filter_eq_nil_iff] at hempty
      exact hempty other hother (decide_eq_true hcold)
    exact ⟨hmem, fun other hother hcold => absurd hcold (hnone other hother),
      fun other hother _ => hmin other hother⟩
  · obtain ⟨hentry, hcold⟩ := List.mem_filter.mp hmem
    have hcold := of_decide_eq_true hcold
    refine ⟨hentry, fun _ _ _ => hcold, fun other hother huses => ?_⟩
    exact hmin other (List.mem_filter.mpr ⟨hother, decide_eq_true (huses.resolve_right hcold.not_ge)⟩)

/-! ## Two lists in the order of use -/

/-- The entries in two lists, by the number of uses, in each the most recent use first. -/
structure Recency (k : ℕ) (state : State κ β) (hot cold : List (Entry κ β)) : Prop where
  perm : state.entries.Perm (hot ++ cold)
  keys_nodup : ((hot ++ cold).map Entry.key).Nodup
  hot_uses : ∀ entry ∈ hot, k ≤ entry.uses
  cold_uses : ∀ entry ∈ cold, entry.uses < k
  hot_recent : hot.Pairwise fun entry other => other.lastUse < entry.lastUse
  cold_recent : cold.Pairwise fun entry other => other.lastUse < entry.lastUse
  past : ∀ entry ∈ hot ++ cold, entry.lastUse < state.now

section Without

variable {entries : List (Entry κ β)} {entry : Entry κ β}

theorem lookup_eq_none_iff {key : κ} :
    lookup entries key = none ↔ ∀ entry ∈ entries, entry.key ≠ key := by
  rw [lookup, Option.map_eq_none_iff, List.find?_eq_none]
  simp

theorem lookup_of_mem (hnodup : (entries.map Entry.key).Nodup) (hentry : entry ∈ entries) :
    lookup entries entry.key = some entry.block := by
  cases hfind : entries.find? fun other => other.key = entry.key with
  | none => exact absurd (decide_eq_true rfl) (List.find?_eq_none.mp hfind entry hentry)
  | some found =>
      have hkey : found.key = entry.key := by simpa using List.find?_some hfind
      rw [lookup, hfind, List.inj_on_of_nodup_map hnodup (List.mem_of_find?_eq_some hfind) hentry hkey]
      rfl

theorem without_append (key : κ) (left right : List (Entry κ β)) :
    without key (left ++ right) = without key left ++ without key right :=
  List.filter_append left right

theorem without_of_not_mem {key : κ} (hkey : ∀ entry ∈ entries, entry.key ≠ key) :
    without key entries = entries :=
  List.filter_eq_self.mpr fun entry hentry => decide_eq_true (hkey entry hentry)

theorem touch_of_not_mem {key : κ} (now : ℕ) (hkey : ∀ entry ∈ entries, entry.key ≠ key) :
    touch key now entries = entries := by
  rw [touch, List.map_congr_left (g := id), List.map_id]
  intro entry hentry
  exact if_neg (hkey entry hentry)

theorem evict_subset (k : ℕ) (entries : List (Entry κ β)) : evict k entries ⊆ entries := by
  rw [evict]
  cases victim k entries with
  | none => exact List.Subset.refl _
  | some entry => exact List.filter_subset_self _

/-- An entry and the others. -/
theorem perm_without (hnodup : (entries.map Entry.key).Nodup) (hentry : entry ∈ entries) :
    entries.Perm (entry :: without entry.key entries) := by
  rw [List.perm_ext_iff_of_nodup hnodup.of_map]
  · intro other
    rw [List.mem_cons, without, List.mem_filter, decide_eq_true_iff]
    constructor
    · intro hother
      by_cases hkey : other.key = entry.key
      · exact Or.inl (List.inj_on_of_nodup_map hnodup hother hentry hkey)
      · exact Or.inr ⟨hother, hkey⟩
    · rintro (rfl | ⟨hother, -⟩)
      · exact hentry
      · exact hother
  · rw [List.nodup_cons]
    refine ⟨fun hmem => ?_, hnodup.of_map.filter _⟩
    exact of_decide_eq_true (List.mem_filter.mp hmem).2 rfl

theorem perm_touch (hnodup : (entries.map Entry.key).Nodup) (hentry : entry ∈ entries) (now : ℕ) :
    (touch entry.key now entries).Perm
      ({ entry with uses := entry.uses + 1, lastUse := now } :: without entry.key entries) := by
  have hperm := (perm_without hnodup hentry).map fun other =>
    if other.key = entry.key then { other with uses := other.uses + 1, lastUse := now } else other
  rw [List.map_cons, if_pos rfl] at hperm
  have hothers := @touch_of_not_mem κ β _ (without entry.key entries) entry.key now fun other hother =>
    of_decide_eq_true (List.mem_filter.mp hother).2
  rw [touch] at hothers
  rw [hothers] at hperm
  exact hperm

end Without

namespace Recency

variable {k now : ℕ} {entries hot cold : List (Entry κ β)} {key : κ}

omit [DecidableEq κ] in
theorem entries_nodup (hrecency : Recency k ⟨now, entries⟩ hot cold) :
    (entries.map Entry.key).Nodup :=
  (hrecency.perm.map Entry.key).nodup_iff.mpr hrecency.keys_nodup

/-- A call that uses no entry. -/
theorem miss (hrecency : Recency k ⟨now, entries⟩ hot cold)
    (hmiss : ∀ entry ∈ entries, entry.key ≠ key) :
    Recency k ⟨now + 1, touch key now entries⟩ hot cold := by
  rw [touch_of_not_mem now hmiss]
  exact { hrecency with
    past := fun entry hentry => (hrecency.past entry hentry).trans (Nat.lt_succ_self now) }

/-- An entry that is used again goes to the front of the list of its new number of uses. -/
theorem used (hrecency : Recency k ⟨now, entries⟩ hot cold) {entry : Entry κ β}
    (hentry : entry ∈ hot ++ cold) :
    let used := { entry with uses := entry.uses + 1, lastUse := now }
    (k ≤ used.uses → Recency k ⟨now + 1, touch entry.key now entries⟩
        (used :: without entry.key hot) (without entry.key cold)) ∧
      (used.uses < k → Recency k ⟨now + 1, touch entry.key now entries⟩
        (without entry.key hot) (used :: without entry.key cold)) := by
  intro used
  have hperm : (touch entry.key now entries).Perm
      (used :: (without entry.key hot ++ without entry.key cold)) := by
    have htouch := perm_touch hrecency.keys_nodup hentry now
    rw [without_append] at htouch
    exact (hrecency.perm.map _).trans htouch
  have hkeys : ((used :: (without entry.key hot ++ without entry.key cold)).map Entry.key).Nodup := by
    have hentries := (perm_without hrecency.keys_nodup hentry).map Entry.key
    rw [without_append] at hentries
    exact hentries.nodup_iff.mp hrecency.keys_nodup
  have hmiddle : (without entry.key hot ++ used :: without entry.key cold).Perm
      (used :: (without entry.key hot ++ without entry.key cold)) := List.perm_middle
  have hhot : ∀ other ∈ without entry.key hot, other ∈ hot := fun _ => List.mem_of_mem_filter
  have hcold : ∀ other ∈ without entry.key cold, other ∈ cold := fun _ => List.mem_of_mem_filter
  have hhotPast : ∀ other ∈ without entry.key hot, other.lastUse < now := fun other hother =>
    hrecency.past other (List.mem_append_left _ (hhot other hother))
  have hcoldPast : ∀ other ∈ without entry.key cold, other.lastUse < now := fun other hother =>
    hrecency.past other (List.mem_append_right _ (hcold other hother))
  have hpast : ∀ other ∈ used :: (without entry.key hot ++ without entry.key cold),
      other.lastUse < now + 1 := by
    rw [List.forall_mem_cons]
    refine ⟨Nat.lt_succ_self now, fun other hother => ?_⟩
    rcases List.mem_append.mp hother with hother | hother
    · exact (hhotPast other hother).trans (Nat.lt_succ_self now)
    · exact (hcoldPast other hother).trans (Nat.lt_succ_self now)
  constructor
  · intro huses
    exact
      { perm := hperm
        keys_nodup := hkeys
        hot_uses := List.forall_mem_cons.mpr
          ⟨huses, fun other hother => hrecency.hot_uses other (hhot other hother)⟩
        cold_uses := fun other hother => hrecency.cold_uses other (hcold other hother)
        hot_recent := List.pairwise_cons.mpr ⟨hhotPast, hrecency.hot_recent.filter _⟩
        cold_recent := hrecency.cold_recent.filter _
        past := hpast }
  · intro huses
    exact
      { perm := hperm.trans hmiddle.symm
        keys_nodup := (hmiddle.map Entry.key).nodup_iff.mpr hkeys
        hot_uses := fun other hother => hrecency.hot_uses other (hhot other hother)
        cold_uses := List.forall_mem_cons.mpr
          ⟨huses, fun other hother => hrecency.cold_uses other (hcold other hother)⟩
        hot_recent := hrecency.hot_recent.filter _
        cold_recent := List.pairwise_cons.mpr ⟨hcoldPast, hrecency.cold_recent.filter _⟩
        past := fun other hother => hpast other (hmiddle.mem_iff.mp hother) }

omit [DecidableEq κ] in
/-- The entries that may leave are those of one list. -/
theorem candidates_perm (hrecency : Recency k ⟨now, entries⟩ hot cold) :
    (candidates k entries).Perm (if cold.isEmpty then hot else cold) := by
  have hperm := hrecency.perm.filter fun entry => decide (entry.uses < k)
  have hhot : hot.filter (fun entry => decide (entry.uses < k)) = [] :=
    List.filter_eq_nil_iff.mpr fun entry hentry hless =>
      (of_decide_eq_true hless).not_ge (hrecency.hot_uses entry hentry)
  have hcold : cold.filter (fun entry => decide (entry.uses < k)) = cold :=
    List.filter_eq_self.mpr fun entry hentry => decide_eq_true (hrecency.cold_uses entry hentry)
  rw [List.filter_append, hhot, hcold, List.nil_append] at hperm
  have hempty := hperm.isEmpty_eq
  unfold candidates
  dsimp only at hempty ⊢
  rw [hempty]
  split_ifs with hnone
  · have hentries := hrecency.perm
    rw [List.isEmpty_iff.mp hnone, List.append_nil] at hentries
    exact hentries
  · exact hperm

omit [DecidableEq κ] in
/-- The entry that leaves is the last one of a list in the order of use. -/
theorem victim_eq_last {front : List (Entry κ β)} {last : Entry κ β}
    (hperm : (candidates k entries).Perm (front ++ [last]))
    (hrecent : (front ++ [last]).Pairwise fun entry other => other.lastUse < entry.lastUse) :
    victim k entries = some last := by
  have hlast : last ∈ candidates k entries :=
    hperm.mem_iff.mpr (List.mem_append_right _ List.mem_cons_self)
  cases hvictim : victim k entries with
  | none =>
      rw [List.argmin_eq_none.mp hvictim] at hlast
      cases hlast
  | some entry =>
      have hle := List.le_of_mem_argmin hlast hvictim
      rcases List.mem_append.mp (hperm.mem_iff.mp (List.argmin_mem hvictim)) with hfront | hsame
      · have hlt := (List.pairwise_append.mp hrecent).2.2 entry hfront last List.mem_cons_self
        exact absurd hle hlt.not_ge
      · rw [List.mem_singleton.mp hsame]

theorem without_last {front : List (Entry κ β)} {last : Entry κ β}
    (hnodup : ((front ++ [last]).map Entry.key).Nodup) :
    without last.key (front ++ [last]) = front := by
  have hother : ∀ entry ∈ front, entry.key ≠ last.key := by
    rw [List.map_append, List.nodup_append] at hnodup
    exact fun entry hentry =>
      hnodup.2.2 _ (List.mem_map_of_mem hentry) _ (List.mem_map_of_mem List.mem_cons_self)
  rw [without_append, without_of_not_mem hother, without]
  simp

/-- The last entry of the list that is in question is the one that leaves. -/
theorem evicted (hrecency : Recency k ⟨now, entries⟩ hot cold) :
    Recency k ⟨now, evict k entries⟩ (if cold.isEmpty then hot.dropLast else hot)
      cold.dropLast := by
  have hsublist : ((if cold.isEmpty then hot.dropLast else hot) ++ cold.dropLast).Sublist
      (hot ++ cold) := by
    split_ifs
    · exact (List.dropLast_sublist _).append (List.dropLast_sublist _)
    · exact (List.Sublist.refl _).append (List.dropLast_sublist _)
  have hhot : (if cold.isEmpty then hot.dropLast else hot).Sublist hot := by
    split_ifs
    · exact List.dropLast_sublist _
    · exact List.Sublist.refl _
  have hcold := List.dropLast_sublist cold
  have hperm : (evict k entries).Perm
      ((if cold.isEmpty then hot.dropLast else hot) ++ cold.dropLast) := by
    have hcandidates := hrecency.candidates_perm
    have hleave : ∀ {front last}, (hot ++ cold) = front ++ [last] →
        victim k entries = some last → (evict k entries).Perm front := by
      intro front last hlists hvictim
      have hentries := hrecency.perm
      have hnodup := hrecency.keys_nodup
      rw [hlists] at hentries hnodup
      rw [evict, hvictim]
      have hfiltered := hentries.filter fun entry => decide (entry.key ≠ last.key)
      change (without last.key entries).Perm (without last.key (front ++ [last])) at hfiltered
      rwa [without_last hnodup] at hfiltered
    cases hlastCold : cold.getLast? with
    | none =>
        obtain rfl := List.getLast?_eq_none_iff.mp hlastCold
        cases hlastHot : hot.getLast? with
        | none =>
            obtain rfl := List.getLast?_eq_none_iff.mp hlastHot
            obtain rfl := List.Perm.eq_nil hrecency.perm
            exact List.Perm.refl _
        | some last =>
            obtain ⟨front, rfl⟩ := List.getLast?_eq_some_iff.mp hlastHot
            rw [List.isEmpty_nil, if_pos rfl] at hcandidates ⊢
            rw [List.dropLast_concat, List.dropLast_nil, List.append_nil]
            exact hleave (List.append_nil _) (victim_eq_last hcandidates hrecency.hot_recent)
    | some last =>
        obtain ⟨front, rfl⟩ := List.getLast?_eq_some_iff.mp hlastCold
        have hfull : ¬(front ++ [last]).isEmpty = true := by simp
        rw [if_neg hfull] at hcandidates ⊢
        rw [List.dropLast_concat]
        exact hleave (List.append_assoc _ _ _).symm
          (victim_eq_last hcandidates hrecency.cold_recent)
  exact
    { perm := hperm
      keys_nodup := hrecency.keys_nodup.sublist (hsublist.map _)
      hot_uses := fun entry hentry => hrecency.hot_uses entry (hhot.subset hentry)
      cold_uses := fun entry hentry => hrecency.cold_uses entry (hcold.subset hentry)
      hot_recent := hrecency.hot_recent.sublist hhot
      cold_recent := hrecency.cold_recent.sublist hcold
      past := fun entry hentry => hrecency.past entry (hsublist.subset hentry) }

omit [DecidableEq κ] in
/-- A new entry goes to the front of one of the lists. -/
theorem added (hrecency : Recency k ⟨now, entries⟩ hot cold)
    (hnew : ∀ entry ∈ entries, entry.key ≠ key) (block : β) :
    let entry : Entry κ β := ⟨key, block, 1, now⟩
    (k ≤ 1 → Recency k ⟨now + 1, entry :: entries⟩ (entry :: hot) cold) ∧
      (1 < k → Recency k ⟨now + 1, entry :: entries⟩ hot (entry :: cold)) := by
  intro entry
  have hmiddle : (hot ++ entry :: cold).Perm (entry :: (hot ++ cold)) := List.perm_middle
  have hkeys : ((entry :: (hot ++ cold)).map Entry.key).Nodup := by
    rw [List.map_cons, List.nodup_cons]
    refine ⟨fun hmem => ?_, hrecency.keys_nodup⟩
    obtain ⟨other, hother, hkey⟩ := List.mem_map.mp hmem
    exact hnew other (hrecency.perm.mem_iff.mpr hother) hkey
  have hpast : ∀ other ∈ entry :: (hot ++ cold), other.lastUse < now + 1 :=
    List.forall_mem_cons.mpr ⟨Nat.lt_succ_self now,
      fun other hother => (hrecency.past other hother).trans (Nat.lt_succ_self now)⟩
  constructor
  · intro hk
    exact
      { perm := hrecency.perm.cons entry
        keys_nodup := hkeys
        hot_uses := List.forall_mem_cons.mpr ⟨hk, hrecency.hot_uses⟩
        cold_uses := hrecency.cold_uses
        hot_recent := List.pairwise_cons.mpr
          ⟨fun other hother => hrecency.past other (List.mem_append_left _ hother),
            hrecency.hot_recent⟩
        cold_recent := hrecency.cold_recent
        past := hpast }
  · intro hk
    exact
      { perm := (hrecency.perm.cons entry).trans hmiddle.symm
        keys_nodup := (hmiddle.map Entry.key).nodup_iff.mpr hkeys
        hot_uses := hrecency.hot_uses
        cold_uses := List.forall_mem_cons.mpr ⟨hk, hrecency.cold_uses⟩
        hot_recent := hrecency.hot_recent
        cold_recent := List.pairwise_cons.mpr
          ⟨fun other hother => hrecency.past other (List.mem_append_right _ hother),
            hrecency.cold_recent⟩
        past := fun other hother => hpast other (hmiddle.mem_iff.mp hother) }

end Recency

/-! ## What is held -/

section Held

variable (capacity k : ℕ)

/-- The key whose entry leaves. -/
def evictedKey (call : Call κ β) (state : State κ β) : Option κ :=
  match call with
  | .get _ => none
  | .put key _ =>
      if (lookup state.entries key).isSome then none
      else if capacity ≤ state.entries.length then (victim k state.entries).map Entry.key
      else none

/-- The blocks of the keys after a call: an evicted key has none, and a put key has the block of
the put unless it had one before. -/
def heldAfter (call : Call κ β) (state : State κ β) (held : κ → Option β) (key : κ) : Option β :=
  let kept := if evictedKey capacity k call state = some key then none else held key
  match call with
  | .get _ => kept
  | .put put block => if put = key then kept.or (some block) else kept

/-- A `get` is answered with the block of its key. -/
def answer (call : Call κ β) (held : κ → Option β) : Option β :=
  match call with
  | .get key => held key
  | .put _ _ => none

/-- The blocks of the keys after all calls, and the answers to the calls. -/
def runHeld : List (Call κ β) → State κ β → (κ → Option β) → (κ → Option β) × List (Option β)
  | [], _, held => (held, [])
  | call :: rest, state, held =>
      let (after, answers) := runHeld rest (step capacity k call state).1
        (heldAfter capacity k call state held)
      (after, answer call held :: answers)

def run : List (Call κ β) → State κ β → State κ β × List (Option β)
  | [], state => (state, [])
  | call :: rest, state =>
      let (next, answer) := step capacity k call state
      let (after, answers) := run rest next
      (after, answer :: answers)

variable {capacity k}

theorem lookup_cons (entry : Entry κ β) (entries : List (Entry κ β)) (key : κ) :
    lookup (entry :: entries) key =
      if entry.key = key then some entry.block else lookup entries key := by
  rw [lookup, List.find?_cons]
  by_cases hkey : entry.key = key
  · simp [hkey]
  · simp [hkey, lookup]

theorem lookup_touch (entries : List (Entry κ β)) (used key : κ) (now : ℕ) :
    lookup (touch used now entries) key = lookup entries key := by
  induction entries with
  | nil => rfl
  | cons entry rest ih =>
      rw [touch, List.map_cons, ← touch, lookup_cons, lookup_cons, ih]
      by_cases hused : entry.key = used
      · rw [if_pos hused]
      · rw [if_neg hused]

theorem lookup_without (entries : List (Entry κ β)) (removed key : κ) :
    lookup (without removed entries) key =
      if removed = key then none else lookup entries key := by
  split_ifs with hkey
  · rw [lookup_eq_none_iff]
    intro entry hentry
    rw [← hkey]
    exact of_decide_eq_true (List.mem_filter.mp hentry).2
  · rw [lookup, lookup, without, List.find?_filter]
    congr 2
    funext entry
    by_cases hentry : entry.key = key
    · simp [hentry, Ne.symm hkey]
    · simp [hentry]

theorem lookup_evict (entries : List (Entry κ β)) (key : κ) :
    lookup (evict k entries) key =
      if (victim k entries).map Entry.key = some key then none else lookup entries key := by
  rw [evict]
  cases victim k entries with
  | none => rfl
  | some entry =>
      rw [lookup_without]
      simp

/-- The block of a key is that of the first put since the key was evicted. -/
theorem lookup_step (call : Call κ β) (state : State κ β) :
    lookup (step capacity k call state).1.entries =
      heldAfter capacity k call state (lookup state.entries) := by
  funext key
  cases call with
  | get used => exact lookup_touch _ _ _ _
  | put put block =>
      rw [step, heldAfter, evictedKey]
      dsimp only
      by_cases hpresent : (lookup state.entries put).isSome
      · rw [if_pos hpresent, if_pos hpresent, lookup_touch, if_neg (Option.some_ne_none key).symm]
        split_ifs with hkey
        · rw [← hkey, Option.or_of_isSome hpresent]
        · rfl
      · have habsent := Option.not_isSome_iff_eq_none.mp hpresent
        rw [if_neg hpresent, if_neg hpresent, lookup_cons]
        by_cases hkey : put = key
        · subst hkey
          rw [if_pos rfl, if_pos rfl, habsent, ite_self, Option.none_or]
        · rw [if_neg hkey, if_neg hkey]
          split_ifs with hfull hvictim hvictim
          · rw [lookup_evict, if_pos hvictim]
          · rw [lookup_evict, if_neg hvictim]
          · cases hvictim
          · rfl

/-- Every answer to a `get` is the block that the key holds. -/
theorem run_eq_runHeld (calls : List (Call κ β)) (state : State κ β) :
    (lookup (run capacity k calls state).1.entries, (run capacity k calls state).2) =
      runHeld capacity k calls state (lookup state.entries) := by
  induction calls generalizing state with
  | nil => rfl
  | cons call rest ih =>
      have hrest := ih (step capacity k call state).1
      rw [lookup_step] at hrest
      have hanswer : (step capacity k call state).2 = answer call (lookup state.entries) := by
        cases call with
        | get key => rfl
        | put key block =>
            rw [step]
            split_ifs <;> rfl
      rw [run, runHeld, ← hrest]
      dsimp only
      rw [hanswer]

end Held

end LruK

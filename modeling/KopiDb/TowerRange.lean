import KopiDb.TowerRefine

/-!
# Ranges on the towers

A prefix range is found by two descents.  A predicate query looks for some node of its range on
the way down, on any level, and widens from there on the bottom level both ways.  For every shape
of the towers the loop between the two iterators gives the nodes that belong to the range.
-/

namespace KopiDb

namespace TowerList

open DoublyLinked

/-- `begin_preffix` -/
def beginPreffix (table : TowerList) (preffix : Bytes) : Option (Option ℕ) := do
  let (current, _) ← table.descend (fun entry => decide (entry.key < preffix))
    table.currentLevel table.head
  table.forward? current 0

/-- `end_preffix` -/
def endPreffix (table : TowerList) (preffix : Bytes) : Option (Option ℕ) :=
  match SkipList.successor preffix with
  | none => some none
  | some bound => table.beginPreffix bound

/-- How a level is left: at a node of the range, or in front of the next level down. -/
inductive Sought where
  | found (id : ℕ)
  | down (current : ℕ)

/-- The loop of `iters_monotony_predicate` on one level. -/
def search (table : TowerList) (predicate : Bytes → ℤ) (lvl : ℕ) : ℕ → ℕ → Option Sought
  | 0, _ => none
  | fuel + 1, current => do
      match ← table.forward? current lvl with
      | none => some (.down current)
      | some next =>
          let outcome := predicate (← table.recordAt? next).key
          if outcome > 0 then table.search predicate lvl fuel next
          else if outcome = 0 then some (.found next)
          else some (.down current)

def searchDown (table : TowerList) (predicate : Bytes → ℤ) : ℕ → ℕ → Option (Option ℕ)
  | 0, _ => some none
  | lvl + 1, current => do
      match ← table.search predicate lvl table.fresh current with
      | .found id => some (some id)
      | .down current => table.searchDown predicate lvl current

/-- The way back on the bottom level, not past the head. -/
def widenLeft (table : TowerList) (predicate : Bytes → ℤ) : ℕ → ℕ → Option ℕ
  | 0, _ => none
  | fuel + 1, left => do
      match ← table.backward? left 0 with
      | none => some left
      | some before =>
          if before = table.head then some left
          else if predicate (← table.recordAt? before).key ≠ 0 then some left
          else table.widenLeft predicate fuel before

/-- `iters_monotony_predicate`: the way forward on the bottom level is a walk. -/
def itersMonotonyPredicate (table : TowerList) (predicate : Bytes → ℤ) :
    Option (Option (Option ℕ × Option ℕ)) := do
  match ← table.searchDown predicate table.currentLevel table.head with
  | none => some none
  | some node =>
      let left ← table.widenLeft predicate table.fresh node
      let right ← table.walk (fun entry => decide (predicate entry.key = 0)) 0 table.fresh node
      some (some (some left, ← table.forward? right 0))

/-! ## Loops between iterators -/

/-- The loop up to an iterator behind some nodes visits these nodes. -/
theorem between_eq {table : TowerList} {lvl fuel : ℕ} {middle post : List ℕ}
    (hheight : ∀ id ∈ middle, lvl < table.height id)
    (hlinked : ∀ id ∈ (middle ++ post).head?, Linked (table.links lvl) id (middle ++ post).tail)
    (hnodup : (middle ++ post).Nodup) (hfuel : middle.length ≤ fuel) :
    table.between lvl post.head? fuel (middle ++ post).head? = some middle := by
  induction middle generalizing fuel with
  | nil =>
      cases fuel with
      | zero => exact if_pos rfl
      | succ fuel => exact if_pos rfl
  | cons id middle ih =>
      obtain ⟨fuel, rfl⟩ := Nat.exists_eq_succ_of_ne_zero (Nat.zero_lt_of_lt hfuel).ne'
      obtain ⟨hnew, hrest⟩ := List.nodup_cons.mp hnodup
      have hlinked' : Linked (table.links lvl) id (middle ++ post) := hlinked id rfl
      have hne : (id :: (middle ++ post)).head? ≠ post.head? := by
        intro heq
        have hmem := List.mem_of_mem_head? (Option.mem_def.mpr heq.symm)
        exact hnew (List.mem_append_right middle hmem)
      have htail : ∀ next ∈ (middle ++ post).head?,
          Linked (table.links lvl) next (middle ++ post).tail := by
        intro next hnext
        cases hsplit : middle ++ post with
        | nil => simp [hsplit] at hnext
        | cons second rest =>
            rw [hsplit, List.head?_cons, Option.mem_some_iff] at hnext
            subst hnext
            rw [hsplit] at hlinked'
            exact hlinked'.2.2
      have hloop := ih (fun other hmem => hheight other (List.mem_cons_of_mem _ hmem)) htail hrest
        (Nat.le_of_succ_le_succ hfuel)
      rw [List.cons_append, between, if_neg hne, List.head?_cons]
      dsimp only [Option.bind_eq_bind, Option.bind_some]
      rw [forward?_eq (hheight id List.mem_cons_self), hlinked'.next_eq, Option.bind_some, hloop]
      rfl

/-- The loop on the bottom level between two places of the list. -/
theorem Shape.between_split {table : TowerList} {pre middle post : List ℕ}
    (hshape : table.Shape (pre ++ (middle ++ post))) :
    table.between 0 post.head? table.fresh (middle ++ post).head? = some middle := by
  have hpos := hshape.currentLevel_pos.trans_le hshape.currentLevel_le
  have hlinked := hshape.linked 0 hpos
  rw [hshape.level_zero] at hlinked
  have hlength := hshape.length_lt
  rw [List.length_append, List.length_append] at hlength
  apply between_eq
  · intro id hmem
    exact hshape.height_pos id (by simp [hmem])
  · intro id hmem
    have hdrop := hlinked.drop
    cases hsplit : middle ++ post with
    | nil => simp [hsplit] at hmem
    | cons second rest =>
        rw [hsplit, List.head?_cons, Option.mem_some_iff] at hmem
        subst hmem
        rw [hsplit] at hdrop
        exact hdrop.2.2
  · exact (List.nodup_append.mp (List.nodup_cons.mp hshape.nodup).2).2.1
  · omega

/-! ## Prefix ranges -/

theorem Shape.beginPreffix_eq {table : TowerList} {pre post : List ℕ}
    (hshape : table.Shape (pre ++ post)) {preffix : Bytes}
    (hpre : ∀ id ∈ pre, (table.entry id).key < preffix)
    (hpost : ∀ id ∈ post, preffix ≤ (table.entry id).key) :
    table.beginPreffix preffix = some post.head? := by
  have hdescend : table.descend (fun entry => decide (entry.key < preffix))
      table.currentLevel table.head = _ :=
    hshape.descend_head (fun id hmem => decide_eq_true (hpre id hmem)) fun id hmem =>
      decide_eq_true_iff.not.mpr (not_lt.mpr (hpost id hmem))
  rw [beginPreffix, hdescend]
  exact hshape.candidate_eq

/-- The nodes below a bound stand in front of the others. -/
theorem exists_bound (entry : ℕ → Entry) {ids : List ℕ} (hordered : NodesOrdered (ids.map entry))
    (bound : Bytes) :
    ∃ pre post, ids = pre ++ post ∧ (∀ id ∈ pre, (entry id).key < bound) ∧
      ∀ id ∈ post, bound ≤ (entry id).key := by
  obtain ⟨pre, post, hsplit, hpre, hpost, -, -⟩ :=
    exists_cut entry (SkipList.cut_of_ordered hordered bound)
  exact ⟨pre, post, hsplit, fun id hmem => of_decide_eq_true (hpre id hmem),
    fun id hmem => not_lt.mp fun hlt => hpost id hmem (decide_eq_true hlt)⟩

theorem filter_eq_middle (test : ℕ → Bool) {pre middle post : List ℕ}
    (hpre : ∀ id ∈ pre, ¬test id) (hmiddle : ∀ id ∈ middle, test id)
    (hpost : ∀ id ∈ post, ¬test id) : (pre ++ (middle ++ post)).filter test = middle := by
  rw [List.filter_append, List.filter_append, List.filter_eq_nil_iff.mpr hpre,
    List.filter_eq_self.mpr hmiddle, List.filter_eq_nil_iff.mpr hpost, List.nil_append,
    List.append_nil]

theorem Refines.preffix_range {table : TowerList} {ids : List ℕ} {list : SkipList}
    (hrefines : table.Refines ids list) (preffix : Bytes) :
    ∃ start stop, table.beginPreffix preffix = some start ∧
      table.endPreffix preffix = some stop ∧
      table.between 0 stop table.fresh start =
        some (ids.filter fun id => decide (preffix <+: (table.entry id).key)) := by
  have hordered := hrefines.ordered
  rw [endPreffix]
  cases hbound : SkipList.successor preffix with
  | none =>
      obtain ⟨pre, post, rfl, hpre, hpost⟩ := exists_bound table.entry hordered preffix
      have hfilter := @filter_eq_middle
        (fun id => decide (preffix <+: (table.entry id).key)) pre post []
        (fun id hmem => by
          rw [decide_eq_true_eq, SkipList.preffix_iff, hbound]
          exact fun hkey => (hpre id hmem).not_ge hkey.1)
        (fun id hmem => by
          rw [decide_eq_true_eq, SkipList.preffix_iff, hbound]
          exact ⟨hpost id hmem, fun _ hnone => by cases hnone⟩)
        (List.forall_mem_nil _)
      have hshape := hrefines.toShape
      have hloop := @Shape.between_split table pre post [] (by rwa [List.append_nil])
      rw [List.append_nil] at hfilter hloop
      rw [hfilter]
      exact ⟨post.head?, none, hshape.beginPreffix_eq hpre hpost, rfl, hloop⟩
  | some bound =>
      obtain ⟨front, post, rfl, hfront, hpost⟩ := exists_bound table.entry hordered bound
      rw [List.map_append, NodesOrdered, List.pairwise_append] at hordered
      obtain ⟨pre, middle, rfl, hpre, hmiddle⟩ := exists_bound table.entry hordered.1 preffix
      have hless : preffix < bound :=
        ((SkipList.preffix_iff preffix preffix).mp List.prefix_rfl).2 _ hbound
      have hstarts (id : ℕ) : preffix <+: (table.entry id).key ↔
          preffix ≤ (table.entry id).key ∧ (table.entry id).key < bound := by
        rw [SkipList.preffix_iff, hbound]
        simp
      have hfilter := filter_eq_middle
        (fun id => decide (preffix <+: (table.entry id).key))
        (fun id hmem => by
          rw [decide_eq_true_eq, hstarts]
          exact fun hkey => (hpre id hmem).not_ge hkey.1)
        (fun id hmem => by
          rw [decide_eq_true_eq, hstarts]
          exact ⟨hmiddle id hmem, hfront id (List.mem_append_right pre hmem)⟩)
        (fun id hmem => by
          rw [decide_eq_true_eq, hstarts]
          exact fun hkey => (hpost id hmem).not_gt hkey.2)
      have hshape := hrefines.toShape
      have hend : table.beginPreffix bound = some post.head? :=
        hshape.beginPreffix_eq hfront hpost
      rw [List.append_assoc] at hshape ⊢
      refine ⟨(middle ++ post).head?, post.head?, hshape.beginPreffix_eq hpre ?_, hend, ?_⟩
      · intro id hmem
        rcases List.mem_append.mp hmem with hmem | hmem
        · exact hmiddle id hmem
        · exact hless.le.trans (hpost id hmem)
      · rw [hfilter]
        exact hshape.between_split

/-! ## Predicate ranges -/

section Predicate

variable {table : TowerList} {predicate : Bytes → ℤ} {pre middle post : List ℕ}

/-- On one level the search goes where the walk of the nodes to the left of the range goes, and
looks at the next node. -/
theorem search_eq (table : TowerList) (predicate : Bytes → ℤ) (lvl fuel current : ℕ) :
    table.search predicate lvl fuel current =
      (table.walk (fun entry => decide (predicate entry.key > 0)) lvl fuel current).bind
        fun stop => (table.forward? stop lvl).bind fun next =>
          match next with
          | none => some (.down stop)
          | some next => (table.recordAt? next).map fun entry =>
              if predicate entry.key = 0 then .found next else .down stop := by
  induction fuel generalizing current with
  | zero => rfl
  | succ fuel ih =>
      rw [search, walk]
      cases hforward : table.forward? current lvl with
      | none => rfl
      | some ptr =>
          cases ptr with
          | none => simp [hforward]
          | some next =>
              cases hentry : table.recordAt? next with
              | none => simp [hentry]
              | some entry =>
                  by_cases hpos : predicate entry.key > 0
                  · simpa [hentry, hpos] using ih next
                  · by_cases hzero : predicate entry.key = 0
                    · simp [hentry, hforward, hzero]
                    · simp [hentry, hforward, hpos, hzero]

variable (hshape : table.Shape (pre ++ (middle ++ post)))
  (hpre : ∀ id ∈ pre, 0 < predicate (table.entry id).key)
  (hmiddle : ∀ id ∈ middle, predicate (table.entry id).key = 0)
  (hpost : ∀ id ∈ post, predicate (table.entry id).key < 0)

include hshape hpre hmiddle hpost in
theorem search_shape {lvl current : ℕ} (hlvl : lvl < table.maxLevel)
    (hcurrent : current ∈ table.head :: table.level lvl pre) :
    table.search predicate lvl table.fresh current =
      some (match (table.level lvl middle).head? with
        | some id => .found id
        | none => .down (table.stop pre lvl)) := by
  have hwalk : table.walk (fun entry => decide (predicate entry.key > 0)) lvl table.fresh
      current = some (table.stop pre lvl) := by
    apply hshape.walk_eq_stop (fun id hmem => decide_eq_true (hpre id hmem)) _ hlvl hcurrent
    intro id hmem
    rw [decide_eq_true_eq, not_lt]
    rcases List.mem_append.mp hmem with hmem | hmem
    · exact (hmiddle id hmem).le
    · exact (hpost id hmem).le
  have hentry {id : ℕ} (hmem : id ∈ middle ++ post) :
      table.recordAt? id = some (table.entry id) :=
    recordAt?_eq (hshape.height_pos id (List.mem_append_right pre hmem))
  rw [search_eq, hwalk, Option.bind_some, hshape.stop_next hlvl, Option.bind_some, level_append]
  cases hreach : table.level lvl middle with
  | cons id rest =>
      have hmem : id ∈ middle := (mem_level.mp (hreach ▸ List.mem_cons_self)).1
      simp [hentry (List.mem_append_left post hmem), hmiddle id hmem]
  | nil =>
      cases hbehind : table.level lvl post with
      | nil => rfl
      | cons id rest =>
          have hmem : id ∈ post := (mem_level.mp (hbehind ▸ List.mem_cons_self)).1
          simp [hentry (List.mem_append_right middle hmem), (hpost id hmem).ne]

include hshape hpre hmiddle hpost in
/-- The way down ends at some node of the range, or there is none. -/
theorem searchDown_shape {lvl current : ℕ} (hlvl : lvl < table.maxLevel)
    (hcurrent : current ∈ table.head :: table.level lvl pre) :
    ∃ found, table.searchDown predicate (lvl + 1) current = some found ∧
      (∀ id, found = some id → id ∈ middle) ∧ (found = none → middle = []) := by
  have hsearch := search_shape hshape hpre hmiddle hpost hlvl hcurrent
  induction lvl generalizing current with
  | zero =>
      have hall : table.level 0 middle = middle := by
        rw [level, List.filter_eq_self]
        intro id hmem
        simpa using hshape.height_pos id (by simp [hmem])
      rw [searchDown, hsearch, hall]
      cases middle with
      | nil => exact ⟨none, rfl, by simp, fun _ => rfl⟩
      | cons id rest => exact ⟨some id, rfl, by simp, by simp⟩
  | succ lvl ih =>
      have hlvl' := Nat.lt_of_succ_lt hlvl
      rw [searchDown, hsearch]
      cases hreach : (table.level (lvl + 1) middle).head? with
      | some id =>
          have hmem := List.mem_of_mem_head? (Option.mem_def.mpr hreach)
          refine ⟨some id, rfl, ?_, by simp⟩
          rintro _ ⟨⟩
          exact (mem_level.mp hmem).1
      | none =>
          have hbelow : table.stop pre (lvl + 1) ∈ table.head :: table.level lvl pre := by
            have hsub := (table.level_succ_sublist lvl pre).cons_cons table.head
            exact hsub.subset (Shape.stop_mem table pre (lvl + 1))
          exact ih hlvl' hbelow (search_shape hshape hpre hmiddle hpost hlvl' hbelow)

end Predicate

theorem backward?_eq {table : TowerList} {id before lvl : ℕ} (hlvl : lvl < table.height id)
    (hprev : (table.links lvl).prev id = some before) (halive : 0 < table.height before) :
    table.backward? id lvl = some (some before) := by
  obtain ⟨node, hnode, hlength, -⟩ := exists_node (Nat.zero_lt_of_lt hlvl)
  obtain ⟨other, hother, -⟩ := exists_node halive
  rw [← hlength, ← node.sameLevels] at hlvl
  have hback : node.backward[lvl]? = some (some before) := by
    simp only [links, hnode, Option.bind_some, List.getElem?_eq_getElem hlvl,
      Option.join_some] at hprev
    rw [List.getElem?_eq_getElem hlvl, hprev]
  rw [backward?, hnode, Option.bind_some, hback, Option.map_some,
    Option.filter_some_pos (by simp [hother])]

/-- The way back ends at the first node of the range. -/
theorem widenLeft_eq {table : TowerList} {predicate : Bytes → ℤ} {pre front rest : List ℕ}
    {id fuel : ℕ} (hshape : table.Shape (pre ++ (front ++ id :: rest)))
    (hpre : ∀ id ∈ pre, predicate (table.entry id).key ≠ 0)
    (hfront : ∀ id ∈ front, predicate (table.entry id).key = 0) (hfuel : front.length < fuel) :
    table.widenLeft predicate fuel id = some (front.headD id) := by
  have hpos := hshape.currentLevel_pos.trans_le hshape.currentLevel_le
  have hbefore {left : List ℕ} {id : ℕ} {right : List ℕ} (hids : table.Shape (left ++ id :: right)) :
      table.backward? id 0 = some (some (left.getLastD table.head)) := by
    have hlinked := hids.linked 0 hpos
    rw [hids.level_zero] at hlinked
    apply backward?_eq (hids.height_pos id (by simp)) hlinked.prev_eq
    rcases List.mem_cons.mp (List.getLastD_mem_cons (l := left) (a := table.head)) with
      hhead | hmem
    · rw [hhead]
      exact hids.head_height_pos
    · exact hids.height_pos _ (List.mem_append_left _ hmem)
  induction front using List.reverseRecOn generalizing id rest fuel with
  | nil =>
      obtain ⟨fuel, rfl⟩ := Nat.exists_eq_succ_of_ne_zero hfuel.ne'
      rw [List.nil_append] at hshape
      rw [widenLeft, hbefore hshape]
      dsimp only [Option.bind_eq_bind, Option.bind_some]
      split_ifs with hhead
      · rfl
      · have hmem : pre.getLastD table.head ∈ pre :=
          (List.mem_cons.mp List.getLastD_mem_cons).resolve_left hhead
        rw [recordAt?_eq (hshape.height_pos _ (List.mem_append_left _ hmem)), Option.bind_some,
          if_pos (hpre _ hmem)]
        rfl
  | append_singleton front before ih =>
      obtain ⟨fuel, rfl⟩ := Nat.exists_eq_succ_of_ne_zero (Nat.zero_lt_of_lt hfuel).ne'
      have hids := hshape
      rw [← List.append_assoc] at hids
      have hlast : (pre ++ (front ++ [before])).getLastD table.head = before := by
        rw [← List.append_assoc, List.getLastD_concat]
      have hne : before ≠ table.head := by
        rintro rfl
        exact (List.nodup_cons.mp hshape.nodup).1 (by simp)
      have hzero := hfront before (by simp)
      rw [List.append_assoc, List.singleton_append] at hshape
      rw [List.length_append, List.length_singleton] at hfuel
      have hreach := hshape.height_pos before (by simp)
      rw [widenLeft, hbefore hids, hlast]
      dsimp only [Option.bind_eq_bind, Option.bind_some]
      rw [if_neg hne, recordAt?_eq hreach, Option.bind_some, if_neg (not_not.mpr hzero),
        ih hshape (fun other hmem => hfront other (List.mem_append_left _ hmem)) (by omega)]
      cases front with
      | nil => rfl
      | cons first front => rfl

/-- The nodes on which the predicate is zero stand between those to their left and right. -/
theorem exists_zero_run (entry : ℕ → Entry) {predicate : Bytes → ℤ}
    (hmono : MonotonePredicate predicate) {ids : List ℕ}
    (hordered : NodesOrdered (ids.map entry)) :
    ∃ pre middle post, ids = pre ++ (middle ++ post) ∧
      (∀ id ∈ pre, 0 < predicate (entry id).key) ∧
      (∀ id ∈ middle, predicate (entry id).key = 0) ∧
      ∀ id ∈ post, predicate (entry id).key < 0 := by
  have hnotNeg : (ids.map entry).Pairwise fun left right =>
      decide (0 ≤ predicate right.key) = true → decide (0 ≤ predicate left.key) = true := by
    apply List.Pairwise.imp _ hordered
    intro left right hlt hright
    rw [decide_eq_true_eq] at hright ⊢
    by_contra hneg
    exact (hmono.neg_of_le (SkipList.key_le_of_nodeLt hlt) (not_le.mp hneg)).not_ge hright
  obtain ⟨front, post, rfl, hfront, hpost, -, -⟩ := exists_cut entry hnotNeg
  rw [List.map_append, NodesOrdered, List.pairwise_append] at hordered
  have hpositive : (front.map entry).Pairwise fun left right =>
      decide (0 < predicate right.key) = true → decide (0 < predicate left.key) = true := by
    apply List.Pairwise.imp _ hordered.1
    intro left right hlt hright
    rw [decide_eq_true_eq] at hright ⊢
    exact hmono.pos_of_le (SkipList.key_le_of_nodeLt hlt) hright
  obtain ⟨pre, middle, rfl, hpre, hmiddle, -, -⟩ := exists_cut entry hpositive
  refine ⟨pre, middle, post, List.append_assoc .., ?_, ?_, ?_⟩
  · exact fun id hmem => of_decide_eq_true (hpre id hmem)
  · intro id hmem
    have hge := of_decide_eq_true (hfront id (List.mem_append_right pre hmem))
    have hle := not_lt.mp (mt decide_eq_true (hmiddle id hmem))
    exact le_antisymm hle hge
  · exact fun id hmem => not_le.mp (mt decide_eq_true (hpost id hmem))

/-- The way forward ends in front of the first node behind the range. -/
theorem widenRight_eq {table : TowerList} {goOn : Entry → Bool} {pre back post : List ℕ}
    {id : ℕ} (hshape : table.Shape (pre ++ id :: (back ++ post)))
    (hback : ∀ id ∈ back, goOn (table.entry id)) (hpost : ∀ id ∈ post, ¬goOn (table.entry id)) :
    ∃ right, table.walk goOn 0 table.fresh id = some right ∧
      table.forward? right 0 = some post.head? := by
  have hpos := hshape.currentLevel_pos.trans_le hshape.currentLevel_le
  have hlinked := hshape.linked 0 hpos
  rw [hshape.level_zero] at hlinked
  have hrest : Linked (table.links 0) id (back ++ post) := hlinked.drop.2.2
  have hheight : ∀ other ∈ id :: (back ++ post), 0 < table.height other := fun other hmem =>
    hshape.height_pos other (List.mem_append_right pre hmem)
  have hfuel : (back ++ post).length < table.fresh := by
    have hlength := hshape.length_lt
    rw [List.length_append, List.length_cons] at hlength
    omega
  refine ⟨back.getLastD id, ?_, ?_⟩
  · rw [walk_eq goOn hrest hheight hfuel]
    congr 2
    rw [List.takeWhile_append_of_pos hback, (List.takeWhile_eq_nil_iff).mpr, List.append_nil]
    intro hlt
    exact hpost _ (List.getElem_mem hlt)
  · rw [forward?_eq, hrest.drop.next_eq]
    exact hheight _ (List.mem_append_left post List.getLastD_mem_cons)

/-- The range of a monotone predicate, found from any node of it. -/
theorem Refines.predicate_range {table : TowerList} {ids : List ℕ} {list : SkipList}
    (hrefines : table.Refines ids list) {predicate : Bytes → ℤ}
    (hmono : MonotonePredicate predicate) :
    ∃ found, table.itersMonotonyPredicate predicate = some found ∧
      (found = none ↔ ∀ id ∈ ids, predicate (table.entry id).key ≠ 0) ∧
      ∀ start stop, found = some (start, stop) →
        table.between 0 stop table.fresh start =
          some (ids.filter fun id => decide (predicate (table.entry id).key = 0)) := by
  obtain ⟨pre, middle, post, rfl, hpre, hmiddle, hpost⟩ :=
    exists_zero_run table.entry hmono hrefines.ordered
  have hshape := hrefines.toShape
  have hfilter := filter_eq_middle
    (fun id => decide (predicate (table.entry id).key = 0))
    (fun id hmem => decide_eq_true_iff.not.mpr (hpre id hmem).ne')
    (fun id hmem => decide_eq_true (hmiddle id hmem))
    (fun id hmem => decide_eq_true_iff.not.mpr (hpost id hmem).ne)
  have hsucc := Nat.sub_add_cancel hshape.currentLevel_pos
  have hlt : table.currentLevel - 1 < table.maxLevel := by
    have hle := hshape.currentLevel_le
    omega
  obtain ⟨found, hsearch, hsome, hnone⟩ := searchDown_shape hshape hpre hmiddle hpost hlt
    List.mem_cons_self
  rw [hsucc] at hsearch
  rw [itersMonotonyPredicate, hsearch, hfilter]
  cases found with
  | none =>
      have hempty := hnone rfl
      subst hempty
      refine ⟨none, rfl, ⟨fun _ id hmem => ?_, fun _ => rfl⟩, by simp⟩
      rcases List.mem_append.mp hmem with hmem | hmem
      · exact (hpre id hmem).ne'
      · exact (hpost id hmem).ne
  | some node =>
      have hnode := hsome node rfl
      obtain ⟨front, back, rfl⟩ := List.append_of_mem hnode
      have hids := hshape
      rw [List.append_assoc, List.cons_append] at hids
      have hfuel : front.length < table.fresh := by
        have hlength := hshape.length_lt
        simp only [List.length_append] at hlength
        omega
      have hleft := widenLeft_eq hids (fun id hmem => (hpre id hmem).ne')
        (fun id hmem => hmiddle id (List.mem_append_left _ hmem)) hfuel
      rw [← List.append_assoc] at hids
      obtain ⟨right, hright, hstop⟩ := @widenRight_eq table
        (fun entry => decide (predicate entry.key = 0)) _ _ _ _ hids
        (fun id hmem => decide_eq_true (hmiddle id (by simp [hmem])))
        (fun id hmem => decide_eq_true_iff.not.mpr (hpost id hmem).ne)
      have hstart : some (front.headD node) = ((front ++ node :: back) ++ post).head? := by
        cases front with
        | nil => rfl
        | cons first front => rfl
      refine ⟨some (some (front.headD node), post.head?), ?_, ?_, ?_⟩
      · dsimp only [Option.bind_eq_bind, Option.bind_some]
        rw [hleft, Option.bind_some, hright, Option.bind_some, hstop]
        rfl
      · constructor
        · intro hsome
          cases hsome
        · intro hall
          exact absurd (hmiddle node hnode) (hall node (by simp))
      · rintro _ _ ⟨⟩
        rw [hstart]
        exact hshape.between_split

/-- In every shape the queries find their ranges: a prefix query exactly the nodes whose key
starts with the prefix, a predicate query the run of all nodes on which the predicate is zero, or
nothing if there is none. -/
theorem skip_list_ranges {table : TowerList} {ids : List ℕ} {list : SkipList}
    (hrefines : table.Refines ids list) :
    (∀ preffix : Bytes, ∃ start stop, table.beginPreffix preffix = some start ∧
      table.endPreffix preffix = some stop ∧
      table.between 0 stop table.fresh start =
        some (ids.filter fun id => decide (preffix <+: (table.entry id).key))) ∧
      ∀ predicate : Bytes → ℤ, MonotonePredicate predicate →
        ∃ found, table.itersMonotonyPredicate predicate = some found ∧
          (found = none ↔ ∀ id ∈ ids, predicate (table.entry id).key ≠ 0) ∧
          ∀ start stop, found = some (start, stop) → ∃ pre run post,
            ids = pre ++ (run ++ post) ∧
            table.between 0 stop table.fresh start = some run ∧
            (∀ id ∈ run, predicate (table.entry id).key = 0) ∧
            ∀ id ∈ pre ++ post, predicate (table.entry id).key ≠ 0 := by
  refine ⟨hrefines.preffix_range, ?_⟩
  intro predicate hmono
  obtain ⟨found, hfound, hnone, hrange⟩ := hrefines.predicate_range hmono
  refine ⟨found, hfound, hnone, ?_⟩
  intro start stop hsome
  obtain ⟨pre, run, post, rfl, hpre, hrun, hpost⟩ :=
    exists_zero_run table.entry hmono hrefines.ordered
  have hfilter := filter_eq_middle
    (fun id => decide (predicate (table.entry id).key = 0))
    (fun id hmem => decide_eq_true_iff.not.mpr (hpre id hmem).ne')
    (fun id hmem => decide_eq_true (hrun id hmem))
    (fun id hmem => decide_eq_true_iff.not.mpr (hpost id hmem).ne)
  refine ⟨pre, run, post, rfl, hfilter ▸ hrange start stop hsome, hrun, ?_⟩
  intro id hmem
  rcases List.mem_append.mp hmem with hmem | hmem
  · exact (hpre id hmem).ne'
  · exact (hpost id hmem).ne

/-- Zero from the key `b` on. -/
def fromB (key : Bytes) : ℤ := if key < [98] then 1 else 0

theorem fromB_monotone : MonotonePredicate fromB where
  neg_of_le _ hneg := by
    unfold fromB at hneg
    split_ifs at hneg
    · exact absurd hneg (by decide)
    · exact absurd hneg (lt_irrefl 0)
  pos_of_le hle hpos := by
    unfold fromB at hpos ⊢
    split_ifs at hpos with hlt
    · rw [if_pos (hle.trans_lt hlt)]
      exact Int.one_pos
    · exact absurd hpos (lt_irrefl 0)

/-- Three towers of different heights, a prefix range and a predicate range over them. -/
theorem skip_list_ranges_sample :
    ∃ (table : TowerList) (ids : List ℕ),
      ((new 16).put [97, 255] [1] 1 (fun _ => true) >>= fun first =>
        first.put [98] [2] 2 (fun _ => false) >>= fun second =>
          second.put [97] [3] 3 (fun toss => decide (toss < 2))) = some table ∧
      ids.map table.entry = [⟨[97], [3], 3⟩, ⟨[97, 255], [1], 1⟩, ⟨[98], [2], 2⟩] ∧
      (∃ start stop, table.beginPreffix [97] = some start ∧ table.endPreffix [97] = some stop ∧
        table.between 0 stop table.fresh start =
          some (ids.filter fun id => decide ([97] <+: (table.entry id).key))) ∧
      ∃ start stop pre run post,
        table.itersMonotonyPredicate (fromB) = some (some (start, stop)) ∧
        ids = pre ++ (run ++ post) ∧ table.between 0 stop table.fresh start = some run ∧
        (∀ id ∈ run, fromB (table.entry id).key = 0) ∧
        ∀ id ∈ pre ++ post, fromB (table.entry id).key ≠ 0 := by
  obtain ⟨first, _, hfirst, hone, -⟩ := (refines_new 16).put [97, 255] [1] 1 fun _ => true
  obtain ⟨second, _, hsecond, htwo, -⟩ := hone.put [98] [2] 2 fun _ => false
  obtain ⟨table, ids, hthird, hrefines, -⟩ :=
    htwo.put [97] [3] 3 fun toss => decide (toss < 2)
  have hnodes : ids.map table.entry = [⟨[97], [3], 3⟩, ⟨[97, 255], [1], 1⟩, ⟨[98], [2], 2⟩] :=
    hrefines.nodes
  obtain ⟨hpreffix, hpredicate⟩ := skip_list_ranges hrefines
  obtain ⟨found, hfound, hnone, hrange⟩ := hpredicate fromB fromB_monotone
  refine ⟨table, ids, ?_, hnodes, hpreffix [97], ?_⟩
  · rw [hfirst, Option.bind_eq_bind, Option.bind_some, hsecond]
    exact hthird
  cases hfound' : found with
  | none =>
      have hmem : (⟨[98], [2], 2⟩ : Entry) ∈ ids.map table.entry := by
        rw [hnodes]
        decide
      obtain ⟨id, hid, hentry⟩ := List.mem_map.mp hmem
      have hnever := hnone.mp hfound' id hid
      rw [hentry] at hnever
      exact absurd (by decide) hnever
  | some range =>
      obtain ⟨start, stop⟩ := range
      obtain ⟨pre, run, post, hrun⟩ := hrange start stop hfound'
      exact ⟨start, stop, pre, run, post, hfound' ▸ hfound, hrun⟩

end TowerList

end KopiDb

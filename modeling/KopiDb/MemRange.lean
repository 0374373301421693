import KopiDb.MemTable
import KopiDb.SstRange
import KopiDb.Lib.Prefixes

/-!
# Ranges of the memory tables

A prefix query cuts a table at the first key that is not smaller than the prefix and at the
first that is not smaller than its successor.  A predicate query walks down the towers to some
node of its range and widens it on the bottom list.  Both then go through a queue as a full
scan does.
-/

namespace KopiDb

namespace SkipList

/-! ## Prefix ranges -/

/-- `begin_preffix` -/
def beginPreffix (table : SkipList) (preffix : Bytes) : SkipListIterator :=
  ⟨table.nodes.dropWhile fun node => decide (node.key < preffix)⟩

/-- The successor of a prefix: without its largest bytes at the end, the last byte one up. -/
def successor (preffix : Bytes) : Option Bytes :=
  let front := preffix.rdropWhile fun byte => byte = 255
  match front.getLast? with
  | none => none
  | some last => some (front.dropLast ++ [last + 1])

/-- `end_preffix` -/
def endPreffix (table : SkipList) (preffix : Bytes) : SkipListIterator :=
  match successor preffix with
  | none => ⟨[]⟩
  | some bound => table.beginPreffix bound

/-- The loop from one iterator up to another; behind the last node there is nothing to go to. -/
def between (stop : List Entry) : List Entry → Except Err (List Entry)
  | [] => if stop = [] then .ok [] else .error .nullAccess
  | node :: rest =>
      if node :: rest = stop then .ok [] else (between stop rest).map fun nodes => node :: nodes

theorem between_append (front stop : List Entry) : between stop (front ++ stop) = .ok front := by
  induction front with
  | nil =>
      cases stop with
      | nil => rfl
      | cons node rest => exact if_pos rfl
  | cons node front ih =>
      have hne : node :: (front ++ stop) ≠ stop := by
        intro heq
        have hlength := congrArg List.length heq
        rw [List.length_cons, List.length_append] at hlength
        omega
      rw [List.cons_append, between, if_neg hne, ih]
      rfl

/-- A run that a test cuts in two: what passes stands in front. -/
theorem cut_eq_filter {α : Type} {test : α → Bool} {items : List α}
    (hcut : items.Pairwise fun left right => test right = true → test left = true) :
    items.takeWhile test = items.filter test ∧
      items.dropWhile test = items.filter fun item => !test item := by
  induction items with
  | nil => exact ⟨rfl, rfl⟩
  | cons item rest ih =>
      obtain ⟨hfirst, hrest⟩ := List.pairwise_cons.mp hcut
      obtain ⟨htake, hdrop⟩ := ih hrest
      by_cases htest : test item = true
      · rw [List.takeWhile_cons_of_pos htest, List.filter_cons_of_pos htest, htake,
          List.dropWhile_cons_of_pos htest, List.filter_cons_of_neg (by simp [htest]), hdrop]
        exact ⟨rfl, rfl⟩
      · have hnone : ∀ other ∈ item :: rest, test other = false := by
          intro other hmem
          rcases List.mem_cons.mp hmem with rfl | hmem
          · exact Bool.eq_false_iff.mpr htest
          · exact Bool.eq_false_iff.mpr fun hother => htest (hfirst other hmem hother)
        rw [List.takeWhile_cons_of_neg htest, List.dropWhile_cons_of_neg htest]
        constructor
        · symm
          rw [List.filter_eq_nil_iff]
          exact fun other hmem => Bool.eq_false_iff.mp (hnone other hmem)
        · symm
          rw [List.filter_eq_self]
          exact fun other hmem => by rw [hnone other hmem, Bool.not_false]

theorem key_le_of_nodeLt {left right : Entry} (hlt : nodeLt left right) : left.key ≤ right.key :=
  (nodeLt_iff.mp hlt).elim le_of_lt fun hsame => hsame.1.le

/-- A bound on the keys cuts the nodes in two. -/
theorem cut_of_ordered {nodes : List Entry} (hordered : NodesOrdered nodes) (bound : Bytes) :
    nodes.Pairwise fun left right =>
      decide (right.key < bound) = true → decide (left.key < bound) = true := by
  apply List.Pairwise.imp _ hordered
  intro left right hlt hright
  rw [decide_eq_true_iff] at hright ⊢
  exact (key_le_of_nodeLt hlt).trans_lt hright

theorem byte_covBy {byte : Fin 256} (hbyte : byte ≠ 255) : byte ⋖ byte + 1 := by
  have hval : (byte + 1).val = byte.val + 1 :=
    Fin.val_add_one_of_lt (Fin.lt_last_iff_ne_last.mpr hbyte)
  constructor
  · rw [Fin.lt_def, hval]
    exact Nat.lt_succ_self _
  · intro other hlow hhigh
    rw [Fin.lt_def] at hlow hhigh
    omega

/-- What a successor is, or that there is none. -/
theorem successor_cases (preffix : Bytes) :
    (successor preffix = none ∧ preffix = List.replicate preffix.length 255) ∨
      ∃ front last count, preffix = front ++ last :: List.replicate count 255 ∧ last ≠ 255 ∧
        successor preffix = some (front ++ [last + 1]) := by
  induction preffix using List.reverseRecOn with
  | nil => exact Or.inl ⟨rfl, rfl⟩
  | append_singleton init byte ih =>
      by_cases hbyte : byte = 255
      · have hsame : successor (init ++ [byte]) = successor init := by
          rw [successor, List.rdropWhile_concat_pos _ _ _ (by simpa using hbyte)]
          rfl
        rw [hsame, hbyte]
        rcases ih with ⟨hnone, hall⟩ | ⟨front, last, count, hsplit, hlast, hsome⟩
        · refine Or.inl ⟨hnone, ?_⟩
          rw [List.length_append, List.length_singleton, List.replicate_succ', ← hall]
        · refine Or.inr ⟨front, last, count + 1, ?_, hlast, hsome⟩
          rw [hsplit, List.replicate_succ', List.append_assoc, List.cons_append]
      · refine Or.inr ⟨init, byte, 0, rfl, hbyte, ?_⟩
        rw [successor, List.rdropWhile_concat_neg _ _ _ (by simpa using hbyte),
          List.getLast?_concat, List.dropLast_concat]

/-- The keys that start with a prefix are those from it up to its successor. -/
theorem preffix_iff (preffix key : Bytes) : preffix <+: key ↔
    preffix ≤ key ∧ ∀ bound, successor preffix = some bound → key < bound := by
  have htop : ∀ byte : Fin 256, byte ≤ 255 := Fin.le_last
  rcases successor_cases preffix with ⟨hnone, hall⟩ | ⟨front, last, count, hsplit, hlast, hsome⟩
  · rw [hnone, hall, ← Prefixes.replicate_le_iff htop]
    simp
  · rw [hsome, hsplit, Prefixes.prefix_iff_of_covBy htop (byte_covBy hlast)]
    simp

/-- The nodes of a prefix range are those whose key starts with the prefix. -/
theorem between_preffix (table : SkipList) (preffix : Bytes) :
    between (table.endPreffix preffix).rest (table.beginPreffix preffix).rest =
      .ok (table.nodes.filter fun node => decide (preffix <+: node.key)) := by
  have hfrom : ∀ bound, (table.beginPreffix bound).rest =
      table.nodes.filter fun node => !decide (node.key < bound) := fun bound =>
    (cut_eq_filter (cut_of_ordered table.ordered bound)).2
  have hsplit : (table.beginPreffix preffix).rest =
      (table.nodes.filter fun node => decide (preffix <+: node.key)) ++
        (table.endPreffix preffix).rest := by
    rw [endPreffix]
    cases hbound : successor preffix with
    | none =>
        rw [hfrom, List.append_nil]
        apply List.filter_congr
        intro node _
        rw [← decide_not, decide_eq_decide, preffix_iff, hbound, not_lt]
        simp
    | some bound =>
        have hless : preffix < bound := ((preffix_iff preffix preffix).mp List.prefix_rfl).2 _ hbound
        have hstart := (table.ordered.filter fun node => !decide (node.key < preffix))
        obtain ⟨htake, hdrop⟩ := cut_eq_filter (cut_of_ordered hstart bound)
        dsimp only
        rw [hfrom, hfrom, ← List.takeWhile_append_dropWhile
          (p := fun node : Entry => decide (node.key < bound)) (l := table.nodes.filter _), htake,
          hdrop, List.filter_filter, List.filter_filter]
        congr 1
        · apply List.filter_congr
          intro node _
          rw [← decide_not, ← Bool.decide_and, decide_eq_decide, preffix_iff, hbound, not_lt]
          simp [and_comm]
        · apply List.filter_congr
          intro node _
          rw [← decide_not, ← decide_not, ← Bool.decide_and, decide_eq_decide, not_lt, not_lt]
          exact and_iff_left_of_imp fun hle => hless.le.trans hle
  rw [hsplit, between_append]

/-! ## Predicate ranges -/

/-- What the descent uses of the towers: how many levels it starts with, and how many a node is
linked into. -/
structure Towers where
  currentLevel : ℕ
  height : Entry → ℕ
  currentLevel_pos : 0 < currentLevel
  height_pos : ∀ node, 0 < height node

/-- Where the walk on one level stops: at a node of the range, or in front of the next level
down.  `before` lists the nodes behind it, the nearest first. -/
inductive Descent where
  | found (before : List Entry) (node : Entry) (after : List Entry)
  | down (before rest : List Entry)

/-- The walk on one level.  `skipped` lists the nodes since the current one that are not
linked into the level. -/
def walkLevel (predicate : Bytes → ℤ) (height : Entry → ℕ) (lvl : ℕ) :
    List Entry → List Entry → List Entry → Descent
  | before, skipped, [] => .down before skipped.reverse
  | before, skipped, node :: rest =>
      if height node ≤ lvl then walkLevel predicate height lvl before (node :: skipped) rest
      else if predicate node.key > 0 then
        walkLevel predicate height lvl (node :: (skipped ++ before)) [] rest
      else if predicate node.key = 0 then .found (skipped ++ before) node rest
      else .down before (skipped.reverse ++ node :: rest)

/-- The descent from level to level. -/
def descend (predicate : Bytes → ℤ) (height : Entry → ℕ) :
    ℕ → List Entry → List Entry → Option (List Entry × Entry × List Entry)
  | 0, _, _ => none
  | lvl + 1, before, rest =>
      match walkLevel predicate height lvl before [] rest with
      | .found before node after => some (before, node, after)
      | .down before rest => descend predicate height lvl before rest

/-- `iters_monotony_predicate` -/
def itersMonotonyPredicate (table : SkipList) (towers : Towers) (predicate : Bytes → ℤ) :
    Option (SkipListIterator × SkipListIterator) :=
  (descend predicate towers.height towers.currentLevel [] table.nodes).map
    fun (before, node, after) =>
      (⟨(before.takeWhile fun other => decide (predicate other.key = 0)).reverse ++
          node :: after⟩,
        ⟨after.dropWhile fun other => decide (predicate other.key = 0)⟩)

section Descent

variable {predicate : Bytes → ℤ} {height : Entry → ℕ}

/-- A walk loses no node, and it passes only nodes to the left of the range. -/
theorem walkLevel_spec (hmono : MonotonePredicate predicate) (lvl : ℕ)
    {before skipped rest : List Entry}
    (hordered : NodesOrdered (before.reverse ++ (skipped.reverse ++ rest)))
    (hbefore : ∀ node ∈ before, 0 < predicate node.key) :
    match walkLevel predicate height lvl before skipped rest with
    | .found before' node after =>
        before'.reverse ++ node :: after = before.reverse ++ (skipped.reverse ++ rest) ∧
          predicate node.key = 0
    | .down before' rest' =>
        before'.reverse ++ rest' = before.reverse ++ (skipped.reverse ++ rest) ∧
          ∀ node ∈ before', 0 < predicate node.key := by
  induction rest generalizing before skipped with
  | nil => exact ⟨by rw [List.append_nil], hbefore⟩
  | cons node rest ih =>
      rw [walkLevel]
      split_ifs with hheight hpos hzero
      · have hnext := @ih before (node :: skipped) (by simpa using hordered) hbefore
        simpa using hnext
      · have hall : ∀ other ∈ node :: (skipped ++ before), 0 < predicate other.key := by
          have hleft := (List.pairwise_append.mp (List.pairwise_append.mp hordered).2.1).2.2
          intro other hmem
          rcases List.mem_cons.mp hmem with rfl | hmem
          · exact hpos
          · rcases List.mem_append.mp hmem with hmem | hmem
            · have hlt := hleft other (List.mem_reverse.mpr hmem) node List.mem_cons_self
              exact hmono.pos_of_le (key_le_of_nodeLt hlt) hpos
            · exact hbefore other hmem
        have hnext := @ih (node :: (skipped ++ before)) [] (by simpa using hordered) hall
        simpa using hnext
      · exact ⟨by simp, hzero⟩
      · exact ⟨rfl, hbefore⟩

/-- On the bottom level every node is met, so a walk that goes down from there found no
range. -/
theorem walkLevel_bottom (hmono : MonotonePredicate predicate) (hheight : ∀ node, 0 < height node)
    {before rest before' rest' : List Entry} (hordered : NodesOrdered (before.reverse ++ rest))
    (hwalk : walkLevel predicate height 0 before [] rest = .down before' rest') :
    ∀ node ∈ rest, predicate node.key ≠ 0 := by
  induction rest generalizing before with
  | nil => exact List.forall_mem_nil _
  | cons node rest ih =>
      rw [walkLevel, if_neg (Nat.not_le.mpr (hheight node)), List.nil_append] at hwalk
      split_ifs at hwalk with hpos hzero
      · rw [List.forall_mem_cons]
        exact ⟨hpos.ne', ih (by simpa using hordered) hwalk⟩
      · have hneg : predicate node.key < 0 := by omega
        have hright := (List.pairwise_cons.mp (List.pairwise_append.mp hordered).2.1).1
        rw [List.forall_mem_cons]
        refine ⟨hneg.ne, fun other hmem => ?_⟩
        exact (hmono.neg_of_le (key_le_of_nodeLt (hright other hmem)) hneg).ne

/-- The descent finds a node of the range, where there is one. -/
theorem descend_spec (hmono : MonotonePredicate predicate) (hheight : ∀ node, 0 < height node)
    {levels : ℕ} (hlevels : 0 < levels) {before rest : List Entry}
    (hordered : NodesOrdered (before.reverse ++ rest))
    (hbefore : ∀ node ∈ before, 0 < predicate node.key) :
    match descend predicate height levels before rest with
    | some (before', node, after) =>
        before'.reverse ++ node :: after = before.reverse ++ rest ∧ predicate node.key = 0
    | none => ∀ node ∈ before.reverse ++ rest, predicate node.key ≠ 0 := by
  induction levels generalizing before rest with
  | zero => exact absurd hlevels (lt_irrefl 0)
  | succ lvl ih =>
      have hwalk := @walkLevel_spec predicate height hmono lvl before [] rest hordered hbefore
      rw [descend]
      cases hresult : walkLevel predicate height lvl before [] rest with
      | found before' node after =>
          rw [hresult] at hwalk
          exact hwalk
      | down before' rest' =>
          rw [hresult] at hwalk
          obtain ⟨hsplit, hleft⟩ := hwalk
          rw [List.reverse_nil, List.nil_append] at hsplit
          cases lvl with
          | zero =>
              intro node hmem
              rcases List.mem_append.mp hmem with hmem | hmem
              · exact (hbefore node (List.mem_reverse.mp hmem)).ne'
              · exact walkLevel_bottom hmono hheight hordered hresult node hmem
          | succ lvl =>
              have hnext := @ih (Nat.succ_pos lvl) before' rest' (hsplit ▸ hordered) hleft
              rwa [hsplit] at hnext

end Descent

theorem zero_of_between {predicate : Bytes → ℤ} (hmono : MonotonePredicate predicate)
    {left middle right : Bytes} (hleft : left ≤ middle) (hright : middle ≤ right)
    (hzeroLeft : predicate left = 0) (hzeroRight : predicate right = 0) :
    predicate middle = 0 := by
  rcases lt_trichotomy (predicate middle) 0 with hneg | hzero | hpos
  · exact absurd hzeroRight (hmono.neg_of_le hright hneg).ne
  · exact hzero
  · exact absurd hzeroLeft (hmono.pos_of_le hleft hpos).ne'

/-- Widening a range from one of its nodes finds all of them. -/
theorem filter_eq_widened {predicate : Bytes → ℤ} (hmono : MonotonePredicate predicate)
    {before after : List Entry} {node : Entry}
    (hordered : NodesOrdered (before.reverse ++ node :: after)) (hzero : predicate node.key = 0) :
    (before.reverse ++ node :: after).filter (fun other => decide (predicate other.key = 0)) =
      (before.takeWhile fun other => decide (predicate other.key = 0)).reverse ++
        node :: after.takeWhile fun other => decide (predicate other.key = 0) := by
  obtain ⟨hleft, hright, hacross⟩ := List.pairwise_append.mp hordered
  obtain ⟨hnode, hafter⟩ := List.pairwise_cons.mp hright
  have hcutAfter : after.Pairwise fun left right => decide (predicate right.key = 0) = true →
      decide (predicate left.key = 0) = true := by
    rw [List.pairwise_iff_forall_sublist] at hafter ⊢
    intro left right hsublist hpredicate
    rw [decide_eq_true_iff] at hpredicate ⊢
    have hmem : left ∈ after := hsublist.subset List.mem_cons_self
    exact zero_of_between hmono (key_le_of_nodeLt (hnode left hmem))
      (key_le_of_nodeLt (hafter hsublist)) hzero hpredicate
  have hcutBefore : before.Pairwise fun left right => decide (predicate right.key = 0) = true →
      decide (predicate left.key = 0) = true := by
    rw [List.pairwise_reverse, List.pairwise_iff_forall_sublist] at hleft
    rw [List.pairwise_iff_forall_sublist]
    intro left right hsublist hpredicate
    rw [decide_eq_true_iff] at hpredicate ⊢
    have hmem : left ∈ before := hsublist.subset List.mem_cons_self
    exact zero_of_between hmono (key_le_of_nodeLt (hleft hsublist))
      (key_le_of_nodeLt (hacross left (List.mem_reverse.mpr hmem) node List.mem_cons_self))
      hpredicate hzero
  rw [(cut_eq_filter hcutAfter).1, (cut_eq_filter hcutBefore).1, List.filter_append,
    List.filter_reverse, List.filter_cons_of_pos (by simpa using hzero)]

/-- The nodes of a predicate range are those on which the predicate is zero; without one there
is no range. -/
theorem itersMonotonyPredicate_spec (table : SkipList) (towers : Towers)
    {predicate : Bytes → ℤ} (hmono : MonotonePredicate predicate) :
    match table.itersMonotonyPredicate towers predicate with
    | some range => between range.2.rest range.1.rest =
        .ok (table.nodes.filter fun node => decide (predicate node.key = 0))
    | none => table.nodes.filter (fun node => decide (predicate node.key = 0)) = [] := by
  have hspec := @descend_spec predicate towers.height hmono towers.height_pos _
    towers.currentLevel_pos [] table.nodes table.ordered (List.forall_mem_nil _)
  rw [itersMonotonyPredicate]
  cases hdescend : descend predicate towers.height towers.currentLevel [] table.nodes with
  | none =>
      rw [hdescend] at hspec
      rw [Option.map_none]
      rw [List.filter_eq_nil_iff]
      intro node hmem
      rw [decide_eq_true_iff]
      exact hspec node hmem
  | some place =>
      obtain ⟨before, node, after⟩ := place
      rw [hdescend] at hspec
      obtain ⟨hsplit, hzero⟩ := hspec
      have hordered := table.ordered
      rw [show table.nodes = before.reverse ++ node :: after from hsplit.symm] at hordered ⊢
      rw [filter_eq_widened hmono hordered hzero, Option.map_some]
      have hrange := between_append ((before.takeWhile fun other =>
        decide (predicate other.key = 0)).reverse ++ node :: after.takeWhile fun other =>
          decide (predicate other.key = 0)) (after.dropWhile fun other =>
            decide (predicate other.key = 0))
      rw [List.append_assoc, List.cons_append, List.takeWhile_append_dropWhile] at hrange
      exact hrange

end SkipList

namespace MemTable

/-! ## Queries over all tables -/

/-- The nodes of one table that a query collects. -/
def collectNodes (trancId : ℕ) (isAborted : ℕ → Bool) (tableIdx : ℕ) (nodes : List Entry) :
    List SearchItem :=
  (nodes.filter fun node => decide (node.key ≠ []) &&
    Versions.visible trancId isAborted node.txid).map fun node => ⟨node, tableIdx, 0⟩

/-- The tables in the order of collection, each with its range. -/
def collectRanges (trancId : ℕ) (isAborted : ℕ → Bool)
    (rangeOf : ℕ → SkipList → Except Err (List Entry)) :
    List SkipList → Except Err (List SearchItem)
  | [] => .ok []
  | table :: rest => do
      let nodes ← rangeOf rest.length table
      let items ← collectRanges trancId isAborted rangeOf rest
      return collectNodes trancId isAborted rest.length nodes ++ items

/-- `iters_preffix` -/
def itersPreffix (mem : MemTable) (preffix : Bytes) (trancId : ℕ) (isAborted : ℕ → Bool) :
    Except Err HeapIterator := do
  let items ← collectRanges trancId isAborted (fun _ table =>
    SkipList.between (table.endPreffix preffix).rest (table.beginPreffix preffix).rest) mem.tables
  return HeapIterator.ofItems items trancId true false

/-- `iters_monotony_predicate`; `towers` are those of the tables by their index. -/
def itersMonotonyPredicate (mem : MemTable) (towers : ℕ → SkipList.Towers) (trancId : ℕ)
    (predicate : Bytes → ℤ) (isAborted : ℕ → Bool) :
    Except Err (Option (HeapIterator × HeapIterator)) := do
  let items ← collectRanges trancId isAborted (fun tableIdx table =>
    match table.itersMonotonyPredicate (towers tableIdx) predicate with
    | none => .ok []
    | some range => SkipList.between range.2.rest range.1.rest) mem.tables
  let beginIter := HeapIterator.ofItems items trancId true false
  if beginIter.isValid then return some (beginIter, HeapIterator.empty true false)
  else return none

/-- Ranges that a test of the keys describes are collected as the test picks them from a full
scan. -/
theorem collectRanges_eq {trancId : ℕ} {isAborted : ℕ → Bool}
    {rangeOf : ℕ → SkipList → Except Err (List Entry)} {keep : Bytes → Bool}
    (hrange : ∀ tableIdx table,
      rangeOf tableIdx table = .ok (table.nodes.filter fun node => keep node.key))
    (tables : List SkipList) :
    collectRanges trancId isAborted rangeOf tables =
      .ok ((collectTables trancId isAborted tables).filter fun item => keep item.entry.key) := by
  induction tables with
  | nil => rfl
  | cons table rest ih =>
      have hnodes : collectNodes trancId isAborted rest.length
          (table.nodes.filter fun node => keep node.key) =
            (collect trancId isAborted table rest.length).filter fun item =>
              keep item.entry.key := by
        rw [collectNodes, collect, List.filter_map, List.filter_filter, List.filter_filter]
        congr 1
        apply List.filter_congr
        intro node _
        exact Bool.and_comm _ _
      rw [collectRanges, hrange, ih, collectTables, List.filter_append, ← hnodes]
      rfl

/-- A test of the keys hides a key or leaves its versions alone. -/
private theorem read_filter_key (versions : List Entry) (keep : Bytes → Bool) (key : Bytes)
    (bound : ℕ) (skip : ℕ → Bool) :
    Versions.read (versions.filter fun version => keep version.key) key bound skip =
      (Versions.read versions key bound skip).filter fun version => keep version.key := by
  by_cases hkeep : keep key = true
  · have hread : Versions.read (versions.filter fun version => keep version.key) key bound skip =
        Versions.read versions key bound skip := by
      apply Versions.read_congr
      intro txid
      simp only [Versions.versionsOf, List.filter_filter]
      congr 1
      apply List.filter_congr
      intro version _
      by_cases hkey : version.key = key
      · rw [hkey, hkeep, Bool.and_true]
      · rw [decide_eq_false hkey, Bool.false_and, Bool.false_and]
    rw [hread]
    cases hfound : Versions.read versions key bound skip with
    | none => rfl
    | some version =>
        have hkey := (Versions.read_eq_some hfound).2.1
        rw [Option.filter_some, hkey, if_pos hkeep]
  · have hnone : Versions.read (versions.filter fun version => keep version.key) key bound skip =
        none := by
      apply Versions.read_eq_none_of_absent
      intro version hmem hkey
      rw [List.mem_filter, hkey] at hmem
      exact hkeep hmem.2
    rw [hnone]
    cases hfound : Versions.read versions key bound skip with
    | none => rfl
    | some version =>
        have hkey := (Versions.read_eq_some hfound).2.1
        rw [Option.filter_some, hkey, if_neg hkeep]

/-- A queue over the items whose key passes a test shows what passes it of all items. -/
theorem toList_ofItems_filter (mem : MemTable) (trancId : ℕ) (isAborted : ℕ → Bool)
    (keep : Bytes → Bool) :
    Cursor.toList (HeapIterator.ofItems ((collectTables trancId isAborted mem.tables).filter
        fun item => keep item.entry.key) trancId true false) =
      (Cursor.toList (mem.begin trancId true isAborted)).filter fun entry => keep entry.key := by
  have hranked := (collectTables_ranked trancId isAborted mem.tables).2
  have hstrict := mem.strictKeys_begin trancId true isAborted
  rw [HeapIterator.toList_ofItems]
  apply Versions.StrictKeys.ext (HeapIterator.strictKeys_render _ _ _) (hstrict.filter _)
  intro version _
  rw [hstrict.find?_filter, begin, HeapIterator.toList_ofItems, HeapIterator.find?_render,
    HeapIterator.find?_render,
    Versions.read_congr ((heapOf_sameVersions (hranked.filter _)).latestAgree version.key),
    Versions.read_congr ((heapOf_sameVersions hranked).latestAgree version.key)]
  have hmap : ((collectTables trancId isAborted mem.tables).filter
      fun item => keep item.entry.key).map SearchItem.entry =
        ((collectTables trancId isAborted mem.tables).map SearchItem.entry).filter
          fun entry => keep entry.key := by
    rw [List.filter_map]
    rfl
  rw [hmap, read_filter_key, Option.filter_filter, Option.filter_filter]
  congr 1
  funext entry
  exact Bool.and_comm _ _

/-- A prefix query shows of a full scan the keys that start with the prefix. -/
theorem itersPreffix_spec (mem : MemTable) (preffix : Bytes) (trancId : ℕ)
    (isAborted : ℕ → Bool) : ∃ found,
      mem.itersPreffix preffix trancId isAborted = .ok found ∧
        Cursor.toList found = (Cursor.toList (mem.begin trancId true isAborted)).filter
          fun entry => decide (preffix <+: entry.key) := by
  have hitems := @collectRanges_eq trancId isAborted _ (fun key => decide (preffix <+: key))
    (fun _ table => SkipList.between_preffix table preffix) mem.tables
  refine ⟨_, by rw [itersPreffix, hitems]; rfl, ?_⟩
  exact mem.toList_ofItems_filter trancId isAborted fun key => decide (preffix <+: key)

/-- A predicate query shows of a full scan the keys on which the predicate is zero, and returns
nothing where there is none. -/
theorem itersMonotonyPredicate_spec (mem : MemTable) (towers : ℕ → SkipList.Towers)
    (trancId : ℕ) {predicate : Bytes → ℤ} (hmono : MonotonePredicate predicate)
    (isAborted : ℕ → Bool) : ∃ found,
      mem.itersMonotonyPredicate towers trancId predicate isAborted = .ok found ∧
        found.elim [] (fun range => Cursor.toList range.1) =
          (Cursor.toList (mem.begin trancId true isAborted)).filter
            (fun entry => decide (predicate entry.key = 0)) ∧
        ∀ range, found = some range → Cursor.toList range.1 ≠ [] ∧ Cursor.toList range.2 = [] := by
  have hrange : ∀ tableIdx (table : SkipList),
      (match table.itersMonotonyPredicate (towers tableIdx) predicate with
      | none => Except.ok []
      | some range => SkipList.between range.2.rest range.1.rest) =
        Except.ok (table.nodes.filter fun node => decide (predicate node.key = 0)) := by
    intro tableIdx table
    have hspec := table.itersMonotonyPredicate_spec (towers tableIdx) hmono
    cases hfound : table.itersMonotonyPredicate (towers tableIdx) predicate with
    | none =>
        rw [hfound] at hspec
        exact congrArg Except.ok hspec.symm
    | some range =>
        rw [hfound] at hspec
        exact hspec
  have hitems := @collectRanges_eq trancId isAborted _ (fun key => decide (predicate key = 0))
    hrange mem.tables
  have hshown := mem.toList_ofItems_filter trancId isAborted fun key => decide (predicate key = 0)
  rw [itersMonotonyPredicate, hitems]
  change ∃ found, (if (HeapIterator.ofItems _ trancId true false).isValid then _ else _) = _ ∧ _
  rw [← hshown]
  generalize HeapIterator.ofItems _ trancId true false = beginIter
  by_cases hvalid : beginIter.isValid = true
  · refine ⟨some (beginIter, HeapIterator.empty true false), if_pos hvalid, rfl, ?_⟩
    rintro range hrange
    obtain rfl := Option.some.inj hrange
    refine ⟨fun hnil => ?_, Cursor.toList_of_none rfl⟩
    rw [Cursor.toList_eq_nil_iff, HeapIterator.current?_eq, Option.map_eq_none_iff,
      List.head?_eq_none_iff] at hnil
    rw [HeapIterator.isValid, hnil] at hvalid
    exact Bool.noConfusion hvalid
  · refine ⟨none, if_neg hvalid, ?_, fun range hrange => by cases hrange⟩
    have hempty : beginIter.items = [] := by
      simpa [HeapIterator.isValid] using hvalid
    exact (Cursor.toList_of_none (by rw [HeapIterator.current?_eq, hempty]; rfl)).symm

end MemTable

end KopiDb
